import LFGateway.Net.Impl.TcpConnection

/-!
This module contains the two states a connection can be in between callbacks, open and closed, and
what the channel operations do to an open one.
-/

namespace LFGateway

open Foundation

namespace Reactor

variable {r r' r'' : Reactor} {c : Nat} {fd : Int}

@[simp]
theorem modify_conn_self (f : TcpConnection → TcpConnection)
    : (r.modify c f).conn c = f (r.conn c) := by
  simp [modify]

@[simp]
theorem modify_conn_of_ne (f : TcpConnection → TcpConnection) {c' : Nat} (h : c' ≠ c)
    : (r.modify c f).conn c' = r.conn c' := by
  simp [modify, h]

@[simp]
theorem modify_created (f : TcpConnection → TcpConnection) : (r.modify c f).created = r.created := rfl

@[simp]
theorem modify_server (f : TcpConnection → TcpConnection) : (r.modify c f).server = r.server := rfl

@[simp]
theorem modify_interest (f : TcpConnection → TcpConnection)
    : (r.modify c f).interest = r.interest := rfl

@[simp]
theorem modify_tasks (f : TcpConnection → TcpConnection) : (r.modify c f).tasks = r.tasks := rfl

@[simp]
theorem modify_calls (f : TcpConnection → TcpConnection) : (r.modify c f).calls = r.calls := rfl

@[simp]
theorem modify_sent (f : TcpConnection → TcpConnection) : (r.modify c f).sent = r.sent := rfl

@[simp]
theorem modify_written (f : TcpConnection → TcpConnection)
    : (r.modify c f).written = r.written := rfl

@[simp]
theorem call_calls_self (x : Call) : (r.call c x).calls c = r.calls c ++ [x] := by
  simp [call]

@[simp]
theorem call_calls_of_ne (x : Call) {c' : Nat} (h : c' ≠ c)
    : (r.call c x).calls c' = r.calls c' := by
  simp [call, h]

@[simp]
theorem call_conn (x : Call) : (r.call c x).conn = r.conn := rfl

@[simp]
theorem call_created (x : Call) : (r.call c x).created = r.created := rfl

@[simp]
theorem call_server (x : Call) : (r.call c x).server = r.server := rfl

@[simp]
theorem call_interest (x : Call) : (r.call c x).interest = r.interest := rfl

@[simp]
theorem call_tasks (x : Call) : (r.call c x).tasks = r.tasks := rfl

@[simp]
theorem call_sent (x : Call) : (r.call c x).sent = r.sent := rfl

@[simp]
theorem call_written (x : Call) : (r.call c x).written = r.written := rfl

def tasksOf (r : Reactor) (c : Nat) : List Bytes :=
  r.tasks.filterMap fun task => if task.1 = c then some task.2 else none

def readsOf (r : Reactor) (c : Nat) : List Bytes :=
  (r.calls c).filterMap fun
    | .read _ data => if data = [] then none else some data
    | _ => none

def KeepsOpen (x : Call) : Prop := x ≠ .removeConnection ∧ ∀ fd, x ≠ .close fd

/--
Connection `c` is open on descriptor `fd`: its channel is registered with what the channel itself
remembers, and nothing has been closed through it.
-/
structure Open (c : Nat) (fd : Int) (r : Reactor) : Prop where
  nonneg : 0 ≤ fd
  sockfd : (r.conn c).sockfd_ = fd
  channelFd : (r.conn c).channel_.fd_ = fd
  index : (r.conn c).channel_.index_ = 1
  removed : (r.conn c).channel_.removed_ = false
  interest : r.interest fd = some ⟨c, (r.conn c).channel_.events_⟩
  calls : ∀ x ∈ r.calls c, KeepsOpen x

/--
Connection `c` is closed: `removeConnection` and `::close` were called once, at the very end.
-/
structure Closed (c : Nat) (r : Reactor) : Prop where
  sockfd : (r.conn c).sockfd_ = -1
  index : (r.conn c).channel_.index_ = -1
  removed : (r.conn c).channel_.removed_ = true
  calls : ∃ earlier fd, r.calls c = earlier ++ [.removeConnection, .close fd] ∧
    ∀ x ∈ earlier, KeepsOpen x

structure Frame (c : Nat) (fd : Int) (r r' : Reactor) : Prop where
  created : r'.created = r.created
  conn : ∀ c', c' ≠ c → r'.conn c' = r.conn c'
  owner : (r'.conn c).server = (r.conn c).server
  name : (r'.conn c).name_ = (r.conn c).name_
  interest : ∀ fd', fd' ≠ fd → r'.interest fd' = r.interest fd'
  calls : ∀ c', c' ≠ c → r'.calls c' = r.calls c'
  tasks : ∀ c', c' ≠ c → r'.tasksOf c' = r.tasksOf c'
  sent : ∀ c', c' ≠ c → r'.sent c' = r.sent c'
  written : ∀ c', c' ≠ c → r'.written c' = r.written c'

theorem Frame.refl (c : Nat) (fd : Int) (r : Reactor) : Frame c fd r r := by
  constructor <;> intros <;> rfl

theorem Frame.trans (h : Frame c fd r r') (h' : Frame c fd r' r'') : Frame c fd r r'' where
  created := by rw [h'.created, h.created]
  conn c' hne := by rw [h'.conn c' hne, h.conn c' hne]
  owner := by rw [h'.owner, h.owner]
  name := by rw [h'.name, h.name]
  interest fd' hne := by rw [h'.interest fd' hne, h.interest fd' hne]
  calls c' hne := by rw [h'.calls c' hne, h.calls c' hne]
  tasks c' hne := by rw [h'.tasks c' hne, h.tasks c' hne]
  sent c' hne := by rw [h'.sent c' hne, h.sent c' hne]
  written c' hne := by rw [h'.written c' hne, h.written c' hne]

theorem Frame.modify (f : TcpConnection → TcpConnection)
    (howner : (f (r.conn c)).server = (r.conn c).server)
    (hname : (f (r.conn c)).name_ = (r.conn c).name_)
    : Frame c fd r (r.modify c f) := by
  constructor <;> simp_all [tasksOf]

theorem Frame.call (x : Call) : Frame c fd r (r.call c x) := by
  constructor <;> simp_all [tasksOf]

theorem Open.modify (h : Open c fd r) (f : TcpConnection → TcpConnection)
    (hsockfd : (f (r.conn c)).sockfd_ = (r.conn c).sockfd_)
    (hchannel : (f (r.conn c)).channel_ = (r.conn c).channel_) : Open c fd (r.modify c f) where
  nonneg := h.nonneg
  sockfd := by simp [hsockfd, h.sockfd]
  channelFd := by simp [hchannel, h.channelFd]
  index := by simp [hchannel, h.index]
  removed := by simp [hchannel, h.removed]
  interest := by simp [hchannel, h.interest]
  calls := by
    rw [modify_calls]
    exact h.calls

theorem Open.call (h : Open c fd r) {x : Call} (hx : KeepsOpen x) : Open c fd (r.call c x) where
  nonneg := h.nonneg
  sockfd := h.sockfd
  channelFd := h.channelFd
  index := h.index
  removed := h.removed
  interest := h.interest
  calls := by
    intro y hy
    rw [call_calls_self, List.mem_append, List.mem_singleton] at hy
    cases hy with
    | inl hold => exact h.calls y hold
    | inr heq =>
      rw [heq]
      exact hx

theorem setEvents_of_open (h : Open c fd r) (f : Events → Events)
    : Channel.setEvents r c f
        =
      ({ r with
        conn := Function.update r.conn c { r.conn c with
          channel_ := { (r.conn c).channel_ with events_ := f (r.conn c).channel_.events_ } }
        interest := Function.update r.interest fd (some ⟨c, f (r.conn c).channel_.events_⟩)
      }.call c (.epollCtl .mod fd (f (r.conn c).channel_.events_))) := by
  simp [Channel.setEvents, Channel.update, updateChannel, epollCtl, modifyChannel, Reactor.modify,
    Reactor.call, h.removed, h.index, h.channelFd]

theorem Open.setEvents (h : Open c fd r) (f : Events → Events)
    : Open c fd (Channel.setEvents r c f) ∧ Frame c fd r (Channel.setEvents r c f) := by
  rw [setEvents_of_open h]
  constructor
  . apply Open.call
    . constructor
      . exact h.nonneg
      . simp [h.sockfd]
      . simp [h.channelFd]
      . simp [h.index]
      . simp [h.removed]
      . simp
      . exact h.calls
    . simp [KeepsOpen]
  . apply Frame.trans _ (Frame.call _)
    constructor <;> simp_all [tasksOf]

/--
The entry of a connection that closed has left the map of its server.
-/
def erased (r : Reactor) (c : Nat) : ServerId → TcpServer :=
  let s := (r.conn c).server
  let server := r.server s
  Function.update r.server s { server with
    connections_ := server.connections_.filter fun entry => entry.1 ≠ (r.conn c).name_ }

/--
`handleClose` on an open connection removes the channel, then the entry, then closes; the
`connectDestroyed` that `removeConnection` runs finds the channel gone.
-/
theorem handleClose_of_open (h : Open c fd r)
    : TcpConnection.handleClose r c
        =
      { r with
        conn := Function.update r.conn c { r.conn c with
          sockfd_ := -1
          channel_ := { (r.conn c).channel_ with removed_ := true, index_ := -1 } }
        server := erased r c
        interest := Function.update r.interest fd none
        calls := Function.update r.calls c
          (r.calls c ++ [.epollCtl .del fd 0] ++ [.removeConnection, .close fd])
      } := by
  have hsockfd : ¬fd < 0 := not_lt.mpr h.nonneg
  simp [TcpConnection.handleClose, Channel.remove, removeChannel, epollCtl, modifyChannel,
    Reactor.modify, Reactor.call, TcpServer.removeConnection, TcpConnection.connectDestroyed,
    erased, h.sockfd, h.index, h.channelFd, hsockfd]

theorem Open.handleClose (h : Open c fd r)
    : Closed c (TcpConnection.handleClose r c) ∧ Frame c fd r (TcpConnection.handleClose r c) ∧
        (TcpConnection.handleClose r c).server = erased r c := by
  rw [handleClose_of_open h]
  refine ⟨?_, ?_, rfl⟩
  . constructor
    . simp
    . simp
    . simp
    . refine ⟨_, fd, Function.update_self _ _ _, ?_⟩
      intro x hx
      rw [List.mem_append, List.mem_singleton] at hx
      cases hx with
      | inl hold => exact h.calls x hold
      | inr heq => simp [heq, KeepsOpen]
  . constructor <;> simp_all [tasksOf]

theorem handleClose_of_closed (h : Closed c r) : TcpConnection.handleClose r c = r := by
  simp [TcpConnection.handleClose, h.sockfd]

theorem handleRead_of_closed (h : Closed c r) (result : ReadResult) (replies : List Bytes)
    : TcpConnection.handleRead r c result replies = r := by
  simp [TcpConnection.handleRead, h.sockfd]

theorem handleWrite_of_closed (h : Closed c r) (result : WriteResult)
    : TcpConnection.handleWrite r c result = r := by
  simp [TcpConnection.handleWrite, h.sockfd]

section Tasks

variable (r : Reactor) (c : Nat)

@[simp]
theorem modifyChannel_tasks (f : Channel → Channel) : (r.modifyChannel c f).tasks = r.tasks := rfl

@[simp]
theorem epollCtl_tasks (op : EpollOp) (events : Events) : (r.epollCtl c op events).tasks = r.tasks := rfl

@[simp]
theorem updateChannel_tasks : (r.updateChannel c).tasks = r.tasks := by
  unfold updateChannel
  dsimp only
  split <;> simp

@[simp]
theorem removeChannel_tasks : (r.removeChannel c).tasks = r.tasks := by
  unfold removeChannel
  split <;> simp

@[simp]
theorem setEvents_tasks (f : Events → Events) : (Channel.setEvents r c f).tasks = r.tasks := by
  unfold Channel.setEvents Channel.update
  split
  . rfl
  . split <;> simp

@[simp]
theorem connectDestroyed_tasks : (TcpConnection.connectDestroyed r c).tasks = r.tasks := by
  unfold TcpConnection.connectDestroyed Channel.markAsRemoved Channel.disableAll
  split <;> simp

@[simp]
theorem handleClose_tasks : (TcpConnection.handleClose r c).tasks = r.tasks := by
  unfold TcpConnection.handleClose TcpServer.removeConnection Channel.remove
  split <;> simp

@[simp]
theorem sendInLoop_tasks (message : Bytes)
    : (TcpConnection.sendInLoop r c message).tasks = r.tasks := by
  unfold TcpConnection.sendInLoop Channel.enableWriting
  dsimp only
  split
  . rfl
  . split <;> simp

@[simp]
theorem newConnection_tasks (s : ServerId) (fd : Int)
    : (TcpServer.newConnection r s fd).tasks = r.tasks := by
  unfold TcpServer.newConnection TcpConnection.connectEstablished Channel.enableReading
  simp

@[simp]
theorem handleWrite_tasks (result : WriteResult)
    : (TcpConnection.handleWrite r c result).tasks = r.tasks := by
  unfold TcpConnection.handleWrite Channel.disableWriting
  dsimp only
  repeat' split
  all_goals simp

theorem replies_tasks (replies : List Bytes)
    : (replies.foldl (TcpConnection.sendInLoop · c ·) r).tasks = r.tasks := by
  induction replies generalizing r with
  | nil => rfl
  | cons reply replies ih => rw [List.foldl_cons, ih, sendInLoop_tasks]

theorem messageCallback_tasks (replies : List Bytes)
    : r.tasks <+: (TcpConnection.messageCallback r c replies).tasks := by
  unfold TcpConnection.messageCallback
  split
  . exact List.prefix_append _ _
  . rw [replies_tasks]

theorem handleRead_tasks (result : ReadResult) (replies : List Bytes)
    : r.tasks <+: (TcpConnection.handleRead r c result replies).tasks := by
  unfold TcpConnection.handleRead
  split
  . exact List.prefix_refl _
  . dsimp only
    split
    . split
      . rw [modify_tasks]
        apply List.IsPrefix.trans _ (messageCallback_tasks _ c replies)
        simp
      . simp
    . simp
    . simp

theorem handleEvent_tasks (revents : Events) (read : ReadResult) (write : WriteResult)
    (replies : List Bytes) : r.tasks <+: (Channel.handleEvent r c revents read write replies).tasks := by
  have hclose : ∀ (p : Prop) [Decidable p] (r : Reactor),
      (if p then TcpConnection.handleClose r c else r).tasks = r.tasks := by
    intro p _ r
    split <;> simp
  have hread : ∀ (p : Prop) [Decidable p] (r : Reactor),
      r.tasks <+: (if p then TcpConnection.handleRead r c read replies else r).tasks := by
    intro p _ r
    split
    . exact handleRead_tasks r c read replies
    . exact List.prefix_refl _
  have hwrite : ∀ (p : Prop) [Decidable p] (r : Reactor),
      (if p then TcpConnection.handleWrite r c write else r).tasks = r.tasks := by
    intro p _ r
    split <;> simp
  unfold Channel.handleEvent
  dsimp only
  split
  . simp
  . rw [hwrite]
    apply List.IsPrefix.trans _ (hread _ _)
    rw [hclose, hclose, modifyChannel_tasks]

end Tasks

theorem tasks_step {l : Label} (h : step r l = some r') : r.tasks <+: r'.tasks := by
  cases l with
  | event c revents read write replies =>
    simp only [step] at h
    split at h
    . rw [Option.some.injEq] at h
      rw [← h]
      exact handleEvent_tasks r c revents read write replies
    . contradiction
  | accept s connfd =>
    simp only [step] at h
    split at h
    . rw [Option.some.injEq] at h
      rw [h]
    . split at h
      . rw [Option.some.injEq] at h
        rw [← h, newConnection_tasks]
      . contradiction
  | functor c message =>
    simp only [step] at h
    split at h
    . rw [Option.some.injEq] at h
      rw [← h, sendInLoop_tasks]
    . contradiction

end Reactor
end LFGateway
