import LFGateway.Foundation.Descriptors
import LFGateway.Net.Impl.TcpConnection

/-!
This module contains the objects of the network side with their lifetimes: the `EventLoop` with its
wakeup channel, the two servers with their `Acceptor`s, and the connections with everything that
holds a `shared_ptr` to one. The system calls that concern descriptors are recorded in one log, in
the order in which the loop thread makes them.
-/

namespace LFGateway

open Foundation

namespace Channel

/-!
The operations of a channel by itself: what becomes of it and the `epoll_ctl` it issues.
-/

def updateSelf (channel : Channel) (taken : Bool) : Channel × List (Ctl Int) :=
  if channel.removed_ then
    (channel, [])
  else if channel.index_ < 0 then
    -- whether the kernel took it or not
    ({ channel with index_ := 1 }, [.add channel.fd_ taken])
  else
    (channel, [.mod channel.fd_])

def setEventsSelf (channel : Channel) (events : Events → Events) (taken : Bool)
    : Channel × List (Ctl Int) :=
  if channel.removed_ then
    (channel, [])
  else
    updateSelf { channel with events_ := events channel.events_ } taken

def enableReadingSelf (channel : Channel) (taken : Bool) : Channel × List (Ctl Int) :=
  channel.setEventsSelf (fun events_ => events_ ||| (EPOLLIN ||| EPOLLPRI)) taken

def disableAllSelf (channel : Channel) (taken : Bool) : Channel × List (Ctl Int) :=
  channel.setEventsSelf (fun _ => 0) taken

/--
`Channel::~Channel`
-/
def destroy (channel : Channel) (taken : Bool) : List (Ctl Int) := (channel.disableAllSelf taken).2

theorem setEventsSelf_fd (channel : Channel) (events : Events → Events) (taken : Bool)
    : (channel.setEventsSelf events taken).1.fd_ = channel.fd_ := by
  unfold setEventsSelf updateSelf
  repeat' split
  all_goals rfl

theorem setEventsSelf_removed (channel : Channel) (events : Events → Events) (taken : Bool)
    : (channel.setEventsSelf events taken).1.removed_ = channel.removed_ := by
  unfold setEventsSelf updateSelf
  repeat' split
  all_goals rfl

end Channel

/--
A channel of the descriptor `fd` that its owner never removes.
-/
structure KeptChannel (fd : Int) where
  channel : Channel
  fd_eq : channel.fd_ = fd
  kept : channel.removed_ = false

namespace KeptChannel

def new (fd : Int) : KeptChannel fd := ⟨.new fd, rfl, rfl⟩

def enableReading {fd : Int} (channel : KeptChannel fd) (taken : Bool)
    : KeptChannel fd × List (Ctl Int) :=
  let ret := channel.channel.enableReadingSelf taken
  (⟨ret.1, (Channel.setEventsSelf_fd _ _ _).trans channel.fd_eq,
    (Channel.setEventsSelf_removed _ _ _).trans channel.kept⟩, ret.2)

end KeptChannel

/--
What `EventLoop` opens and closes.
-/
structure LoopDescriptors where
  epollfd_ : Int
  wakeupFd_ : Int
  wakeupChannel_ : KeptChannel wakeupFd_

namespace LoopDescriptors

/--
`EventLoop::EventLoop`
-/
def create (epollfd wakeupFd : Int) (taken : Bool) : LoopDescriptors × List (Ctl Int) :=
  let (wakeupChannel_, calls) := (KeptChannel.new wakeupFd).enableReading taken
  (⟨epollfd, wakeupFd, wakeupChannel_⟩, [.opened epollfd, .opened wakeupFd] ++ calls)

/--
`EventLoop::~EventLoop`, then the destructor of its member `wakeupChannel_`.
-/
def destroy (loop : LoopDescriptors) (taken : Bool) : List (Ctl Int) :=
  let (wakeupChannel_, calls) := loop.wakeupChannel_.channel.disableAllSelf taken
  calls ++ [.closed loop.wakeupFd_, .closed loop.epollfd_] ++ wakeupChannel_.destroy taken

end LoopDescriptors

structure Acceptor where
  listenfd_ : Int
  acceptChannel_ : KeptChannel listenfd_

namespace Acceptor

def create (listenfd : Int) : Acceptor × List (Ctl Int) :=
  (⟨listenfd, .new listenfd⟩, [.opened listenfd])

def listen (acceptor : Acceptor) (taken : Bool) : Acceptor × List (Ctl Int) :=
  let (acceptChannel_, calls) := acceptor.acceptChannel_.enableReading taken
  (⟨acceptor.listenfd_, acceptChannel_⟩, calls)

/--
`Acceptor::~Acceptor`, then the destructor of its member `acceptChannel_`.
-/
def destroy (acceptor : Acceptor) (taken : Bool) : List (Ctl Int) :=
  let (acceptChannel_, calls) := acceptor.acceptChannel_.channel.disableAllSelf taken
  calls ++ [.closed acceptor.listenfd_] ++ acceptChannel_.destroy taken

end Acceptor

/--
What a call through a connection is to the kernel.
-/
def Call.ctl (taken : Bool) : Call → Option (Ctl Int)
  | .epollCtl .add fd _ => some (.add fd taken)
  | .epollCtl .mod fd _ => some (.mod fd)
  | .epollCtl .del fd _ => some (.del fd)
  | .close fd => some (.closed fd)
  | .read _ _ | .write _ _ | .removeConnection => none

/--
The calls that were made through connection `c` between `r` and `r'`.
-/
def Reactor.issued (taken : Bool) (c : Nat) (r r' : Reactor) : List (Ctl Int) :=
  ((r'.calls c).drop (r.calls c).length).filterMap (Call.ctl taken)

/--
`TcpConnection::~TcpConnection`, then the destructor of its member `channel_`.
-/
def TcpConnection.destroy (r : Reactor) (c : Nat) : Reactor :=
  let r :=
    if 0 ≤ (r.conn c).sockfd_ then
      (r.call c (.close (r.conn c).sockfd_)).modify c ({ · with sockfd_ := -1 })
    else
      r
  Channel.disableAll r c

namespace TcpServer

/--
The functor that `~TcpServer` hands to `runInLoop` for an entry. On the loop thread it runs at once.
-/
def destroyEntry (taken : Bool) (acc : Reactor × List (Ctl Int)) (entry : Bytes × Nat)
    : Reactor × List (Ctl Int) :=
  let r := TcpConnection.connectDestroyed acc.1 entry.2
  (r, acc.2 ++ Reactor.issued taken entry.2 acc.1 r)

/--
`TcpServer::~TcpServer`, then the destructor of its member `connections_`.
-/
def destroy (r : Reactor) (s : ServerId) (taken : Bool) : Reactor × List (Ctl Int) :=
  let (r, calls) := (r.server s).connections_.foldl (destroyEntry taken) (r, [])
  ({ r with server := Function.update r.server s { r.server s with connections_ := [] } }, calls)

end TcpServer

/--
The callbacks of a channel: which connection the lambda captured, if one is set.
-/
structure Callbacks where
  readCallback_ : Option Nat
  writeCallback_ : Option Nat
  closeCallback_ : Option Nat
  deriving DecidableEq, Repr

namespace Callbacks

def unset : Callbacks := ⟨none, none, none⟩

/--
What `connectEstablished` of connection `c` sets: every lambda captures `self`.
-/
def ofSelf (c : Nat) : Callbacks := ⟨some c, some c, some c⟩

/--
How many of the callbacks hold a reference to connection `c`.
-/
def captures (callbacks : Callbacks) (c : Nat) : Nat :=
  [callbacks.readCallback_, callbacks.writeCallback_, callbacks.closeCallback_].count (some c)

end Callbacks

inductive Stage (α : Type u) where
  | unborn
  | alive (a : α)
  | destroyed

namespace Stage

def isAlive {α : Type u} : Stage α → Bool
  | alive _ => true
  | unborn | destroyed => false

def isDestroyed {α : Type u} : Stage α → Bool
  | destroyed => true
  | unborn | alive _ => false

end Stage

/--
The closures that capture a connection hold, beside it, the bytes of a request or of an answer.
`popped` of the tasks that were enqueued have left the queue of the pool, `running` are those of them
that a worker has not finished. `functors` is the vector that `doPendingFunctors` swapped out, of
which `called` have been called. `watched` says for which connections the kernel took the entry in
the interest list: it reports events of no others.
-/
structure Ownership where
  reactor : Reactor
  callbacks : Nat → Callbacks
  watched : Nat → Bool
  popped : Nat
  running : List (Nat × Bytes)
  pendingFunctors_ : List (Nat × Bytes)
  functors : List (Nat × Bytes)
  called : Nat
  loop : Stage LoopDescriptors
  acceptor : ServerId → Stage Acceptor
  gone : List Nat
  log : List (Ctl Int)

namespace Ownership

def init : Ownership where
  reactor := .init
  callbacks := fun _ => .unset
  watched := fun _ => false
  popped := 0
  running := []
  pendingFunctors_ := []
  functors := []
  called := 0
  loop := .unborn
  acceptor := fun _ => .unborn
  gone := []
  log := []

def descriptors (st : Ownership) : Descriptors Int := Descriptors.empty.afterAll st.log

def tasks_ (st : Ownership) : List (Nat × Bytes) := st.reactor.tasks.drop st.popped

/--
How many tasks of the pool and functors of the loop hold a reference to connection `c`.
-/
def inFlight (st : Ownership) (c : Nat) : Nat :=
  (st.tasks_ ++ st.running ++ st.pendingFunctors_ ++ st.functors).countP fun closure => closure.1 = c

def entries (st : Ownership) (c : Nat) : Nat :=
  ((st.reactor.server .api).connections_ ++ (st.reactor.server .mgmt).connections_).countP
    fun entry => entry.2 = c

/--
The `use_count` of connection `c` between callbacks.
-/
def refcount (st : Ownership) (c : Nat) : Nat :=
  st.entries c + (st.callbacks c).captures c + st.inFlight c

inductive Label where
  | constructLoop (epollfd wakeupFd : Int) (taken : Bool)
  | constructServer (s : ServerId) (listenfd : Int)
  /-- `TcpServer::start` -/
  | start (s : ServerId) (taken : Bool)
  /-- an event of the current batch whose `data.ptr` is the channel of connection `c` -/
  | event (c : Nat) (revents : Events) (read : ReadResult) (write : WriteResult)
      (replies : List Bytes)
  /-- an event of the listening socket, with the result of `::accept4` -/
  | accept (s : ServerId) (connfd : Int) (taken : Bool)
  /-- a worker takes the next task off the queue of the pool -/
  | takeTask
  /-- the task at index `i` of those that run calls `send` -/
  | send (i : Nat) (message : Bytes)
  /-- the task at index `i` of those that run returns and its closure is destroyed -/
  | finishTask (i : Nat)
  /-- `doPendingFunctors` swaps, calls and at its end destroys the functors -/
  | swap
  | callFunctor
  | clearFunctors
  /-- the last reference to connection `c` is gone -/
  | destroyConnection (c : Nat)
  | destroyServer (s : ServerId) (taken : Bool)
  | destroyLoop (taken : Bool)
  deriving DecidableEq, Repr

/--
`loop()` has returned, and the servers are being destroyed.
-/
def tornDown (st : Ownership) : Bool :=
  (st.acceptor .api).isDestroyed || (st.acceptor .mgmt).isDestroyed

def looping (st : Ownership) : Bool := st.loop.isAlive && !st.tornDown

def advance (st : Ownership) (c : Nat) (taken : Bool) (l : Reactor.Label) : Option Ownership :=
  (st.reactor.step l).map fun r =>
    { st with reactor := r, log := st.log ++ Reactor.issued taken c st.reactor r }

def constructLoop (st : Ownership) (epollfd wakeupFd : Int) (taken : Bool) : Option Ownership :=
  match st.loop with
  | .unborn =>
    if st.descriptors.isOpen epollfd ∨ st.descriptors.isOpen wakeupFd ∨ epollfd = wakeupFd then
      none
    else
      let (loop, calls) := LoopDescriptors.create epollfd wakeupFd taken
      some { st with loop := .alive loop, log := st.log ++ calls }
  | .alive _ | .destroyed => none

def constructServer (st : Ownership) (s : ServerId) (listenfd : Int) : Option Ownership :=
  match st.acceptor s with
  | .unborn =>
    if st.loop.isAlive ∧ ¬st.descriptors.isOpen listenfd then
      let (acceptor, calls) := Acceptor.create listenfd
      some { st with
        acceptor := Function.update st.acceptor s (.alive acceptor)
        log := st.log ++ calls }
    else
      none
  | .alive _ | .destroyed => none

/--
`Gateway::start` starts each server once.
-/
def start (st : Ownership) (s : ServerId) (taken : Bool) : Option Ownership :=
  match st.acceptor s with
  | .alive acceptor =>
    if acceptor.acceptChannel_.channel.index_ < 0 then
      let (acceptor, calls) := acceptor.listen taken
      some { st with
        acceptor := Function.update st.acceptor s (.alive acceptor)
        log := st.log ++ calls }
    else
      none
  | .unborn | .destroyed => none

/--
`Acceptor::handleRead`. The kernel does not hand out a descriptor that is open.
-/
def accept (st : Ownership) (s : ServerId) (connfd : Int) (taken : Bool) : Option Ownership :=
  match st.acceptor s with
  | .alive acceptor =>
    if st.looping ∧ st.descriptors.registered acceptor.listenfd_ then
      if connfd < 0 then
        some st
      else if st.descriptors.isOpen connfd then
        none
      else
        let c := st.reactor.created
        advance { st with
            callbacks := Function.update st.callbacks c (.ofSelf c)
            watched := Function.update st.watched c taken
            log := st.log ++ [.opened connfd] }
          c taken (.accept s connfd)
    else
      none
  | .unborn | .destroyed => none

def callFunctor (st : Ownership) : Option Ownership :=
  match st.functors[st.called]? with
  | some (c, message) =>
    if st.looping then
      advance { st with called := st.called + 1 } c true (.functor c message)
    else
      none
  | none => none

def destroyConnection (st : Ownership) (c : Nat) : Option Ownership :=
  if c < st.reactor.created ∧ c ∉ st.gone ∧ st.refcount c = 0 then
    let r := TcpConnection.destroy st.reactor c
    some { st with
      reactor := r
      callbacks := Function.update st.callbacks c .unset
      gone := c :: st.gone
      log := st.log ++ Reactor.issued true c st.reactor r }
  else
    none

/--
`TcpServer::~TcpServer`, then the destructors of its members `connections_` and `acceptor_`.
-/
def destroyServer (st : Ownership) (s : ServerId) (taken : Bool) : Option Ownership :=
  match st.acceptor s with
  | .alive acceptor =>
    let (r, calls) := TcpServer.destroy st.reactor s taken
    some { st with
      reactor := r
      acceptor := Function.update st.acceptor s .destroyed
      log := st.log ++ calls ++ acceptor.destroy taken }
  | .unborn | .destroyed => none

def destroyLoop (st : Ownership) (taken : Bool) : Option Ownership :=
  match st.loop with
  | .alive loop =>
    if (st.acceptor .api).isAlive ∨ (st.acceptor .mgmt).isAlive then
      none
    else
      some { st with
        loop := .destroyed
        pendingFunctors_ := []
        log := st.log ++ loop.destroy taken }
  | .unborn | .destroyed => none

def step (st : Ownership) : Label → Option Ownership
  | .constructLoop epollfd wakeupFd taken => st.constructLoop epollfd wakeupFd taken
  | .constructServer s listenfd => st.constructServer s listenfd
  | .start s taken => st.start s taken
  | .event c revents read write replies =>
    if st.looping ∧ st.watched c then
      st.advance c true (.event c revents read write replies)
    else
      none
  | .accept s connfd taken => st.accept s connfd taken
  | .takeTask =>
    match st.tasks_ with
    | task :: _ =>
      if st.looping then
        some { st with popped := st.popped + 1, running := st.running ++ [task] }
      else
        none
    | [] => none
  | .send i message =>
    match st.running[i]? with
    | some (c, _) =>
      if st.looping then
        some { st with pendingFunctors_ := st.pendingFunctors_ ++ [(c, message)] }
      else
        none
    | none => none
  | .finishTask i =>
    if i < st.running.length then some { st with running := st.running.eraseIdx i } else none
  | .swap =>
    if st.looping ∧ st.functors = [] then
      some { st with functors := st.pendingFunctors_, pendingFunctors_ := [], called := 0 }
    else
      none
  | .callFunctor => st.callFunctor
  | .clearFunctors =>
    if st.called = st.functors.length then some { st with functors := [], called := 0 } else none
  | .destroyConnection c => st.destroyConnection c
  | .destroyServer s taken => st.destroyServer s taken
  | .destroyLoop taken => st.destroyLoop taken

end Ownership
end LFGateway
