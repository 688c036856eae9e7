import LFGateway.Net.Lemmas.TcpConnection

/-!
This module contains the invariant of the loop thread: every connection is open or closed, and the
map of each server holds exactly the open ones.
-/

namespace LFGateway

open Foundation

namespace Reactor

variable {r r' : Reactor} {c : Nat} {fd : Int} {nonempty : Prop} {s : ServerId}

structure Same (c : Nat) (r r' : Reactor) : Prop where
  conn : r'.conn c = r.conn c
  calls : r'.calls c = r.calls c
  tasks : r'.tasksOf c = r.tasksOf c
  sent : r'.sent c = r.sent c
  written : r'.written c = r.written c

theorem Frame.same (h : Frame c fd r r') {c' : Nat} (hne : c' ≠ c) : Same c' r r' :=
  ⟨h.conn c' hne, h.calls c' hne, h.tasks c' hne, h.sent c' hne, h.written c' hne⟩

theorem Open.same (h : Open c fd r) (hsame : Same c r r') (hinterest : r'.interest fd = r.interest fd)
    : Open c fd r' where
  nonneg := h.nonneg
  sockfd := by rw [hsame.conn, h.sockfd]
  channelFd := by rw [hsame.conn, h.channelFd]
  index := by rw [hsame.conn, h.index]
  removed := by rw [hsame.conn, h.removed]
  interest := by rw [hinterest, hsame.conn, h.interest]
  calls := by
    rw [hsame.calls]
    exact h.calls

theorem Closed.same (h : Closed c r) (hsame : Same c r r') : Closed c r' where
  sockfd := by rw [hsame.conn, h.sockfd]
  index := by rw [hsame.conn, h.index]
  removed := by rw [hsame.conn, h.removed]
  calls := by
    rw [hsame.calls]
    exact h.calls

theorem Flow.same (h : Flow c r) (hsame : Same c r r') : Flow c r' where
  stream := by rw [hsame.written, hsame.conn, hsame.sent, h.stream]
  armed := by rw [hsame.conn, h.armed]

theorem Delivered.same (h : Delivered c r) (hsame : Same c r r') : Delivered c r' := by
  unfold Delivered readsOf
  rw [hsame.conn, hsame.tasks, hsame.calls]
  exact h

theorem Open.unique (h : Open c fd r) {c' : Nat} (h' : Open c' fd r) : c = c' := by
  have heq := h.interest
  rw [h'.interest, Option.some.injEq, Interest.mk.injEq] at heq
  exact heq.1.symm

theorem Open.not_closed (h : Open c fd r) : ¬Closed c r := by
  intro hclosed
  have hnonneg := h.nonneg
  rw [← h.sockfd, hclosed.sockfd] at hnonneg
  contradiction

/--
What a callback of a closed connection does: it may store `revents_` and record a message that came
too late.
-/
structure Late (c : Nat) (r r' : Reactor) : Prop where
  created : r'.created = r.created
  conn : ∀ c', c' ≠ c → r'.conn c' = r.conn c'
  self : ∃ revents, r'.conn c
    = { r.conn c with channel_ := { (r.conn c).channel_ with revents_ := revents } }
  server : r'.server = r.server
  interest : r'.interest = r.interest
  tasks : r'.tasks = r.tasks
  calls : r'.calls = r.calls
  sent : ∀ c', c' ≠ c → r'.sent c' = r.sent c'
  written : r'.written = r.written

theorem Late.same (h : Late c r r') {c' : Nat} (hne : c' ≠ c) : Same c' r r' where
  conn := h.conn c' hne
  calls := by rw [h.calls]
  tasks := by
    unfold tasksOf
    rw [h.tasks]
  sent := h.sent c' hne
  written := by rw [h.written]

theorem Late.closed (h : Late c r r') (hclosed : Closed c r) : Closed c r' := by
  obtain ⟨revents, hself⟩ := h.self
  constructor
  . rw [hself, hclosed.sockfd]
  . rw [hself, hclosed.index]
  . rw [hself, hclosed.removed]
  . rw [h.calls]
    exact hclosed.calls

theorem Late.delivered (h : Late c r r') (hd : Delivered c r) : Delivered c r' := by
  obtain ⟨revents, hself⟩ := h.self
  apply hd.congr
  . rw [hself]
  . rw [hself]
  . exact h.tasks
  . unfold readsOf
    rw [h.calls]

theorem late_handleEvent (h : Closed c r) (revents : Events) (read : ReadResult)
    (write : WriteResult) (replies : List Bytes)
    : Late c r (Channel.handleEvent r c revents read write replies) := by
  have hremoved : ((r.modifyChannel c ({ · with revents_ := revents })).conn c).channel_.removed_
      = true := by
    simp [modifyChannel, h.removed]
  simp only [Channel.handleEvent]
  rw [if_pos hremoved]
  constructor <;> simp_all [modifyChannel]

theorem late_sendInLoop (h : Closed c r) (message : Bytes)
    : Late c r (TcpConnection.sendInLoop r c message) := by
  rw [sendInLoop_of_closed h]
  constructor <;> simp_all
  exact ⟨_, rfl⟩

structure Unborn (c : Nat) (r : Reactor) : Prop where
  calls : r.calls c = []
  tasks : r.tasksOf c = []
  sent : r.sent c = []
  written : r.written c = []

theorem Unborn.same (h : Unborn c r) (hsame : Same c r r') : Unborn c r' :=
  ⟨by rw [hsame.calls, h.calls], by rw [hsame.tasks, h.tasks], by rw [hsame.sent, h.sent],
    by rw [hsame.written, h.written]⟩

section NewConnection

def entered (r : Reactor) (s : ServerId) : TcpServer :=
  let server := r.server s
  let name := TcpServer.connName server.name_ server.nextConnId_
  { server with
    nextConnId_ := TcpServer.incrInt server.nextConnId_
    connections_ := server.connections_.filter (fun entry => entry.1 ≠ name) ++ [(name, r.created)] }

theorem newConnection_eq (r : Reactor) (s : ServerId) (fd : Int)
    : TcpServer.newConnection r s fd
        =
      { r with
        created := r.created + 1
        conn := Function.update r.conn r.created {
          sockfd_ := fd
          name_ := TcpServer.connName (r.server s).name_ (r.server s).nextConnId_
          server := s
          channel_ := ⟨fd, EPOLLIN ||| EPOLLPRI, 0, 1, false⟩
          inputBuffer_ := []
          outputBuffer_ := [] }
        server := Function.update r.server s (entered r s)
        interest := Function.update r.interest fd (some ⟨r.created, EPOLLIN ||| EPOLLPRI⟩)
        calls := Function.update r.calls r.created
          (r.calls r.created ++ [.epollCtl .add fd (EPOLLIN ||| EPOLLPRI)])
      } := by
  simp [TcpServer.newConnection, TcpConnection.connectEstablished, Channel.enableReading,
    Channel.setEvents, Channel.update, updateChannel, epollCtl, modifyChannel, Reactor.modify,
    Reactor.call, Channel.new, entered]

theorem newConnection_same {c : Nat} (hne : c ≠ r.created)
    : Same c r (TcpServer.newConnection r s fd) := by
  rw [newConnection_eq]
  constructor <;> simp [hne, tasksOf]

theorem newConnection_open (hfd : 0 ≤ fd) (h : Unborn r.created r)
    : Open r.created fd (TcpServer.newConnection r s fd) := by
  rw [newConnection_eq]
  constructor <;> simp [hfd, h.calls, KeepsOpen]

theorem newConnection_flow (h : Unborn r.created r)
    : Flow r.created (TcpServer.newConnection r s fd) := by
  rw [newConnection_eq]
  constructor
  . simp [h.written, h.sent]
  . simp

theorem newConnection_delivered (h : Unborn r.created r)
    : Delivered r.created (TcpServer.newConnection r s fd) := by
  have htasks := h.tasks
  unfold tasksOf at htasks
  intro _
  rw [newConnection_eq]
  simp [readsOf, tasksOf, h.calls, htasks]

end NewConnection

def Label.Nonempty : Label → Prop
  | .event _ _ _ _ replies => ∀ reply ∈ replies, reply ≠ []
  | .accept _ _ => True
  | .functor _ message => message ≠ []

instance (l : Label) : Decidable l.Nonempty :=
  match l with
  | .event _ _ _ _ replies => inferInstanceAs (Decidable (∀ reply ∈ replies, reply ≠ []))
  | .accept _ _ => inferInstanceAs (Decidable True)
  | .functor _ message => inferInstanceAs (Decidable (message ≠ []))

inductive Outcome (nonempty : Prop) (r r' : Reactor) : Prop where
  | callback (c : Nat) (fd : Int) (hc : c < r.created) (hopen : Open c fd r)
      (heffect : Effect nonempty c fd r r')
  | late (c : Nat) (hc : c < r.created) (hclosed : Closed c r) (hlate : Late c r r')
  | accepted (s : ServerId) (fd : Int) (hfd : 0 ≤ fd) (hunused : r.Unused fd)
      (heq : r' = TcpServer.newConnection r s fd)
  | refused (heq : r' = r)

structure Inv (r : Reactor) : Prop where
  conns : ∀ c < r.created, (∃ fd, Open c fd r) ∨ Closed c r
  delivered : ∀ c < r.created, Delivered c r
  unborn : ∀ c, r.created ≤ c → Unborn c r

theorem Inv.outcome (hinv : Inv r) {l : Label} (h : step r l = some r') : Outcome l.Nonempty r r' := by
  cases l with
  | event c revents read write replies =>
    simp only [step] at h
    split at h
    . next hc =>
      rw [Option.some.injEq] at h
      subst h
      cases hinv.conns c hc with
      | inl hopen =>
        obtain ⟨fd, hopen⟩ := hopen
        exact .callback c fd hc hopen
          (hopen.effect_handleEvent revents read write replies (fun hne => hne))
      | inr hclosed => exact .late c hc hclosed (late_handleEvent hclosed revents read write replies)
    . contradiction
  | accept s connfd =>
    simp only [step] at h
    split at h
    . rw [Option.some.injEq] at h
      exact .refused h.symm
    . next hfd =>
      split at h
      . next hunused =>
        rw [Option.some.injEq] at h
        exact .accepted s connfd (not_lt.mp hfd) hunused h.symm
      . contradiction
  | functor c message =>
    simp only [step] at h
    split at h
    . next hc =>
      rw [Option.some.injEq] at h
      subst h
      cases hinv.conns c hc with
      | inl hopen =>
        obtain ⟨fd, hopen⟩ := hopen
        exact .callback c fd hc hopen (hopen.effect_sendInLoop message (fun hne => hne))
      | inr hclosed => exact .late c hc hclosed (late_sendInLoop hclosed message)
    . contradiction

theorem Open.frame (h : Open c fd r) {c' : Nat} {fd' : Int} (h' : Open c' fd' r)
    (hframe : Frame c fd r r') (hne : c' ≠ c) : Open c' fd' r' := by
  apply h'.same (hframe.same hne)
  apply hframe.interest
  intro heq
  rw [heq] at h'
  exact hne (h'.unique h)

theorem Inv.callback (hinv : Inv r) (hc : c < r.created) (hopen : Open c fd r)
    (heffect : Effect nonempty c fd r r') : Inv r' := by
  constructor
  . intro c' hc'
    rw [heffect.frame.created] at hc'
    by_cases heq : c' = c
    . subst heq
      cases heffect.outcome with
      | inl hstays => exact .inl ⟨fd, hstays.1⟩
      | inr hcloses => exact .inr hcloses.1
    . cases hinv.conns c' hc' with
      | inl hother =>
        obtain ⟨fd', hother⟩ := hother
        exact .inl ⟨fd', hopen.frame hother heffect.frame heq⟩
      | inr hother => exact .inr (hother.same (heffect.frame.same heq))
  . intro c' hc'
    rw [heffect.frame.created] at hc'
    have hdelivered := hinv.delivered c' hc'
    by_cases heq : c' = c
    . subst heq
      exact heffect.delivered hdelivered
    . exact hdelivered.same (heffect.frame.same heq)
  . intro c' hc'
    rw [heffect.frame.created] at hc'
    apply (hinv.unborn c' hc').same
    apply heffect.frame.same
    omega

theorem Inv.late (hinv : Inv r) (hc : c < r.created) (hclosed : Closed c r) (hlate : Late c r r')
    : Inv r' := by
  constructor
  . intro c' hc'
    rw [hlate.created] at hc'
    by_cases heq : c' = c
    . subst heq
      exact .inr (hlate.closed hclosed)
    . cases hinv.conns c' hc' with
      | inl hother =>
        obtain ⟨fd', hother⟩ := hother
        exact .inl ⟨fd', hother.same (hlate.same heq) (by rw [hlate.interest])⟩
      | inr hother => exact .inr (hother.same (hlate.same heq))
  . intro c' hc'
    rw [hlate.created] at hc'
    have hdelivered := hinv.delivered c' hc'
    by_cases heq : c' = c
    . subst heq
      exact hlate.delivered hdelivered
    . exact hdelivered.same (hlate.same heq)
  . intro c' hc'
    rw [hlate.created] at hc'
    apply (hinv.unborn c' hc').same
    apply hlate.same
    omega

theorem Open.accepted (h : Open c fd r) (hc : c < r.created) {fd' : Int} (hunused : r.Unused fd')
    : Open c fd (TcpServer.newConnection r s fd') := by
  apply h.same (newConnection_same (Nat.ne_of_lt hc))
  have hne : fd ≠ fd' := by
    rw [← h.sockfd]
    exact hunused c hc
  rw [newConnection_eq]
  exact Function.update_of_ne hne _ _

theorem newConnection_created : (TcpServer.newConnection r s fd).created = r.created + 1 := by
  rw [newConnection_eq]

theorem Inv.accepted (hinv : Inv r) (hfd : 0 ≤ fd) (hunused : r.Unused fd)
    : Inv (TcpServer.newConnection r s fd) := by
  have hunborn := hinv.unborn r.created (Nat.le_refl _)
  constructor
  . intro c hc
    rw [newConnection_created] at hc
    by_cases heq : c = r.created
    . subst heq
      exact .inl ⟨fd, newConnection_open hfd hunborn⟩
    . have hold : c < r.created := by omega
      cases hinv.conns c hold with
      | inl hopen =>
        obtain ⟨fd', hopen⟩ := hopen
        exact .inl ⟨fd', hopen.accepted hold hunused⟩
      | inr hclosed => exact .inr (hclosed.same (newConnection_same heq))
  . intro c hc
    rw [newConnection_created] at hc
    by_cases heq : c = r.created
    . subst heq
      exact newConnection_delivered hunborn
    . exact (hinv.delivered c (by omega)).same (newConnection_same heq)
  . intro c hc
    rw [newConnection_created] at hc
    apply (hinv.unborn c (by omega)).same
    apply newConnection_same
    omega

theorem inv_init : Inv init := by
  constructor
  . intro c hc
    exact absurd hc (Nat.not_lt_zero c)
  . intro c hc
    exact absurd hc (Nat.not_lt_zero c)
  . intro c _
    exact ⟨rfl, rfl, rfl, rfl⟩

theorem Inv.step (hinv : Inv r) {l : Label} (h : step r l = some r') : Inv r' := by
  cases hinv.outcome h with
  | callback c fd hc hopen heffect => exact hinv.callback hc hopen heffect
  | late c hc hclosed hlate => exact hinv.late hc hclosed hlate
  | accepted s fd hfd hunused heq =>
    rw [heq]
    exact hinv.accepted hfd hunused
  | refused heq =>
    rw [heq]
    exact hinv

theorem inv_exec {ls : List Label} (h : exec step init ls = some r) : Inv r :=
  exec_invariant step (fun _ _ _ hinv hl => hinv.step hl) inv_init h

end Reactor
end LFGateway
