import LFGateway.Net.Lemmas.References

/-!
This module contains when `epoll_ctl` is used as the kernel allows: as long as neither a server nor
the loop is destroyed. Both close the descriptor of a channel that they never removed, and the
destructor of the channel then changes the entry of a descriptor that is closed.
-/

namespace LFGateway

open Foundation

namespace Channel

theorem destroy_disableAllSelf {channel : Channel} (hkept : channel.removed_ = false)
    (taken taken' : Bool)
    : (channel.disableAllSelf taken).1.destroy taken' = [.mod channel.fd_] := by
  simp only [destroy, disableAllSelf, setEventsSelf, updateSelf, hkept, Bool.false_eq_true,
    ↓reduceIte]
  split
  . rfl
  . simp only [Bool.false_eq_true, ↓reduceIte]

end Channel

theorem Acceptor.not_legal_destroy (acceptor : Acceptor) (taken : Bool) (d : Descriptors Int)
    : ¬d.Legal (acceptor.destroy taken) := by
  unfold destroy
  dsimp only
  rw [Channel.destroy_disableAllSelf acceptor.acceptChannel_.kept, acceptor.acceptChannel_.fd_eq]
  rw [List.append_assoc, Descriptors.legal_append]
  intro hlegal
  exact Descriptors.not_legal_mod_of_closed hlegal.2.2

theorem LoopDescriptors.not_legal_destroy (loop : LoopDescriptors) (taken : Bool)
    (d : Descriptors Int) : ¬d.Legal (loop.destroy taken) := by
  unfold destroy
  dsimp only
  rw [Channel.destroy_disableAllSelf loop.wakeupChannel_.kept, loop.wakeupChannel_.fd_eq]
  rw [List.append_assoc, Descriptors.legal_append]
  intro hlegal
  have hmod := hlegal.2.2.2.1.1
  by_cases heq : loop.wakeupFd_ = loop.epollfd_ <;> simp [Descriptors.after, heq] at hmod

namespace Ownership

variable {st st' : Ownership} {c : Nat}

def Label.destroys : Label → Bool
  | .destroyServer _ _ | .destroyLoop _ => true
  | .constructLoop _ _ _ | .constructServer _ _ | .start _ _ | .event _ _ _ _ _ | .accept _ _ _
  | .takeTask | .send _ _ | .finishTask _ | .swap | .callFunctor | .clearFunctors
  | .destroyConnection _ => false

/--
Every `epoll_ctl` made so far was allowed when it was made.
-/
def Legal (st : Ownership) : Prop := Descriptors.empty.Legal st.log

instance (st : Ownership) : Decidable st.Legal :=
  inferInstanceAs (Decidable (Descriptors.empty.Legal st.log))

theorem Legal.of_prefix (h : st'.Legal) (hlog : st.log <+: st'.log) : st.Legal := by
  obtain ⟨calls, heq⟩ := hlog
  unfold Legal at h
  rw [← heq, Descriptors.legal_append] at h
  exact h.1

theorem log_step {l : Label} (hl : step st l = some st') : st.log <+: st'.log := by
  cases change hl with
  | loopConstructed epollfd wakeupFd taken hepollfd hwakeupFd hne heq =>
    rw [heq]
    exact List.prefix_append _ _
  | serverConstructed s listenfd hunborn hlistenfd heq =>
    rw [heq]
    exact List.prefix_append _ _
  | started s taken acceptor halive hindex heq =>
    rw [heq]
    exact List.prefix_append _ _
  | accepted s connfd taken hlooping hfd hnew hr heq =>
    rw [heq]
    exact (List.prefix_append _ _).trans (List.prefix_append _ _)
  | callback c called label r hlooping hsubject hwatched hr heq =>
    rw [heq]
    exact List.prefix_append _ _
  | passes hpasses => rw [hpasses.log]
  | connectionDestroyed c hc hzero hlog => exact hlog
  | serverDestroyed s taken acceptor hl heq =>
    rw [heq]
    exact (List.prefix_append _ _).trans (List.prefix_append _ _)
  | loopDestroyed taken loop hl heq =>
    rw [heq]
    exact List.prefix_append _ _

theorem log_exec {ls : List Label} (h : exec step st ls = some st') : st.log <+: st'.log :=
  exec_invariant step (P := fun t => st.log <+: t.log) (fun _ _ _ ht hl => ht.trans (log_step hl))
    (List.prefix_refl _) h

theorem not_legal_of_destroys {l : Label} (hl : step st l = some st') (hdestroys : l.destroys = true)
    : ¬st'.Legal := by
  cases l with
  | destroyServer s taken =>
    replace hl : st.destroyServer s taken = some st' := hl
    unfold destroyServer at hl
    split at hl
    . next acceptor _ =>
      rw [← Option.some.inj hl]
      intro hlegal
      exact acceptor.not_legal_destroy taken _ (Descriptors.legal_append.mp hlegal).2
    . contradiction
    . contradiction
  | destroyLoop taken =>
    replace hl : st.destroyLoop taken = some st' := hl
    unfold destroyLoop at hl
    split at hl
    . next loop _ =>
      split at hl
      . contradiction
      . rw [← Option.some.inj hl]
        intro hlegal
        exact loop.not_legal_destroy taken _ (Descriptors.legal_append.mp hlegal).2
    . contradiction
    . contradiction
  | _ => contradiction

section Agrees

variable {d d' : Descriptors Int} {calls : List (Ctl Int)} {s : ServerId}

theorem descriptors_append (hlog : st'.log = st.log ++ calls)
    : st'.descriptors = st.descriptors.afterAll calls := by
  unfold descriptors
  rw [hlog, Descriptors.afterAll_append]

theorem legal_append (hlog : st'.log = st.log ++ calls)
    : st'.Legal ↔ st.Legal ∧ st.descriptors.Legal calls := by
  unfold Legal
  rw [hlog, Descriptors.legal_append]
  rfl

theorem registered_of_new (st : Ownership) {fd : Int} (hnew : st.descriptors.isOpen fd = false)
    : st.descriptors.registered fd = false := by
  have hconsistent := Descriptors.consistent_empty.afterAll st.log fd
  rw [← Bool.not_eq_true]
  intro hregistered
  have hopen : st.descriptors.isOpen fd = true := hconsistent hregistered
  rw [hnew] at hopen
  contradiction

def Listening (d : Descriptors Int) (acceptor : Acceptor) : Prop :=
  d.isOpen acceptor.listenfd_ = true ∧
    (acceptor.acceptChannel_.channel.index_ < 0 → d.registered acceptor.listenfd_ = false)

def Connected (d : Descriptors Int) (watched : Bool) (fd : Int) : Prop :=
  d.isOpen fd = true ∧ d.registered fd = watched

theorem Listening.sameAt {acceptor : Acceptor} (h : Listening d acceptor)
    (hsame : Descriptors.SameAt acceptor.listenfd_ d d') : Listening d' acceptor := by
  unfold Listening
  rw [hsame.1, hsame.2]
  exact h

theorem Connected.sameAt {watched : Bool} {fd : Int} (h : Connected d watched fd)
    (hsame : Descriptors.SameAt fd d d') : Connected d' watched fd := by
  unfold Connected
  rw [hsame.1, hsame.2]
  exact h

/--
The sockets of the servers and of the connections that are not closed: every object has its own.
-/
structure Sockets (r : Reactor) (watched : Nat → Bool) (acceptor : ServerId → Stage Acceptor)
    (d : Descriptors Int) : Prop where
  listening : ∀ s a, acceptor s = .alive a → Listening d a
  apart : ∀ s s' a a', acceptor s = .alive a → acceptor s' = .alive a' → s ≠ s' →
    a.listenfd_ ≠ a'.listenfd_
  connected : ∀ c < r.created, 0 ≤ (r.conn c).sockfd_ → Connected d (watched c) (r.conn c).sockfd_
  unshared : ∀ c < r.created, 0 ≤ (r.conn c).sockfd_ → ∀ s a, acceptor s = .alive a →
    a.listenfd_ ≠ (r.conn c).sockfd_

variable {r r' : Reactor} {watched : Nat → Bool} {acceptor : ServerId → Stage Acceptor}

theorem Sockets.sameAt (h : Sockets r watched acceptor d)
    (hsame : ∀ fd, d.isOpen fd = true → Descriptors.SameAt fd d d')
    : Sockets r watched acceptor d' where
  listening s a halive := (h.listening s a halive).sameAt (hsame _ (h.listening s a halive).1)
  apart := h.apart
  connected c hc hopen :=
    (h.connected c hc hopen).sameAt (hsame _ (h.connected c hc hopen).1)
  unshared := h.unshared

theorem Sockets.update (h : Sockets r watched acceptor d) {a : Acceptor} (hlistening : Listening d' a)
    (hsame : ∀ fd, d.isOpen fd = true → fd ≠ a.listenfd_ → Descriptors.SameAt fd d d')
    (happart : ∀ s' a', s' ≠ s → acceptor s' = .alive a' → a'.listenfd_ ≠ a.listenfd_)
    (hunshared : ∀ c < r.created, 0 ≤ (r.conn c).sockfd_ → a.listenfd_ ≠ (r.conn c).sockfd_)
    : Sockets r watched (Function.update acceptor s (.alive a)) d' := by
  have hother : ∀ s' a', s' ≠ s → Function.update acceptor s (.alive a) s' = .alive a' →
      acceptor s' = .alive a' := by
    intro s' a' hne halive
    rw [Function.update_of_ne hne] at halive
    exact halive
  have hself : ∀ a', Function.update acceptor s (.alive a) s = .alive a' → a' = a := by
    intro a' halive
    rw [Function.update_self, Stage.alive.injEq] at halive
    exact halive.symm
  constructor
  . intro s' a' halive
    by_cases hs : s' = s
    . subst hs
      rw [hself a' halive]
      exact hlistening
    . have hbefore := h.listening s' a' (hother s' a' hs halive)
      exact hbefore.sameAt (hsame _ hbefore.1 (happart s' a' hs (hother s' a' hs halive)))
  . intro s₁ s₂ a₁ a₂ h₁ h₂ hne
    by_cases hs₁ : s₁ = s
    . subst hs₁
      rw [hself a₁ h₁]
      exact (happart s₂ a₂ hne.symm (hother s₂ a₂ hne.symm h₂)).symm
    . by_cases hs₂ : s₂ = s
      . subst hs₂
        rw [hself a₂ h₂]
        exact happart s₁ a₁ hs₁ (hother s₁ a₁ hs₁ h₁)
      . exact h.apart s₁ s₂ a₁ a₂ (hother s₁ a₁ hs₁ h₁) (hother s₂ a₂ hs₂ h₂) hne
  . intro c hc hopen
    have hconnected := h.connected c hc hopen
    exact hconnected.sameAt (hsame _ hconnected.1 (hunshared c hc hopen).symm)
  . intro c hc hopen s' a' halive
    by_cases hs : s' = s
    . subst hs
      rw [hself a' halive]
      exact hunshared c hc hopen
    . exact h.unshared c hc hopen s' a' (hother s' a' hs halive)

theorem Sockets.accepted (h : Sockets r watched acceptor d) {fd : Int} {taken : Bool}
    (hconnected : Connected d' taken fd) (hnew : ∀ fd', d.isOpen fd' = true → fd' ≠ fd)
    (hsame : ∀ fd', d.isOpen fd' = true → Descriptors.SameAt fd' d d')
    : Sockets (TcpServer.newConnection r s fd) (Function.update watched r.created taken) acceptor
        d' := by
  have henters := Reactor.newConnection_enters r s fd
  have hold := h.sameAt hsame
  constructor
  . exact hold.listening
  . exact hold.apart
  . rw [henters.created]
    intro c hc hopen
    by_cases heq : c = r.created
    . rw [heq, Function.update_self, henters.sockfd]
      exact hconnected
    . rw [henters.conn c heq] at hopen ⊢
      rw [Function.update_of_ne heq]
      exact hold.connected c (by omega) hopen
  . rw [henters.created]
    intro c hc hopen s' a halive
    by_cases heq : c = r.created
    . rw [heq, henters.sockfd]
      exact hnew _ (h.listening s' a halive).1
    . rw [henters.conn c heq] at hopen ⊢
      exact h.unshared c (by omega) hopen s' a halive

theorem Sockets.callback (h : Sockets r watched acceptor d) {fd : Int} (hcreated : r'.created = r.created)
    (hconn : ∀ c', c' ≠ c → (r'.conn c').sockfd_ = (r.conn c').sockfd_)
    (hself : 0 ≤ (r'.conn c).sockfd_ → (r'.conn c).sockfd_ = (r.conn c).sockfd_ ∧ d' = d)
    (hc : c < r.created) (hopen : (r.conn c).sockfd_ = fd) (hfd : 0 ≤ fd)
    (hunique : ∀ c' < r.created, c' ≠ c → (r.conn c').sockfd_ ≠ fd)
    (hsame : ∀ fd', fd' ≠ fd → Descriptors.SameAt fd' d d')
    : Sockets r' watched acceptor d' := by
  constructor
  . intro s a halive
    apply (h.listening s a halive).sameAt (hsame _ _)
    rw [← hopen]
    exact h.unshared c hc (by rw [hopen]; exact hfd) s a halive
  . exact h.apart
  . rw [hcreated]
    intro c' hc' hnonneg
    by_cases heq : c' = c
    . subst heq
      obtain ⟨hsockfd, hd⟩ := hself hnonneg
      rw [hsockfd] at hnonneg ⊢
      rw [hd]
      exact h.connected c' hc' hnonneg
    . rw [hconn c' heq] at hnonneg ⊢
      exact (h.connected c' hc' hnonneg).sameAt (hsame _ (hunique c' hc' heq))
  . rw [hcreated]
    intro c' hc' hnonneg
    by_cases heq : c' = c
    . subst heq
      obtain ⟨hsockfd, _⟩ := hself hnonneg
      rw [hsockfd] at hnonneg ⊢
      exact h.unshared c' hc' hnonneg
    . rw [hconn c' heq] at hnonneg ⊢
      exact h.unshared c' hc' hnonneg

/--
The kernel's view of the descriptors is the one the channels have, as long as nothing has been
destroyed.
-/
structure Agrees (st : Ownership) : Prop where
  inv : Inv st
  legal : st.Legal
  watched : ∀ c, st.watched c = true → c < st.reactor.created
  captured : ∀ c ∈ st.captured, st.watched c = true
  sockets : Sockets st.reactor st.watched st.acceptor st.descriptors

theorem Agrees.passes (h : Agrees st) (hinv : Inv st') (hpasses : Passes st st') : Agrees st' := by
  constructor
  . exact hinv
  . unfold Legal
    rw [hpasses.log]
    exact h.legal
  . rw [hpasses.watched, hpasses.reactor]
    exact h.watched
  . intro c hc
    rw [hpasses.watched]
    exact h.captured c (hpasses.captured hc)
  . unfold descriptors
    rw [hpasses.reactor, hpasses.watched, hpasses.acceptor, hpasses.log]
    exact h.sockets

theorem sameAt_of_ne {fd : Int} (hlog : st'.log = st.log ++ calls)
    (hne : ∀ call ∈ calls, call.fd ≠ fd) : Descriptors.SameAt fd st.descriptors st'.descriptors := by
  rw [descriptors_append hlog]
  exact Descriptors.sameAt_afterAll hne

theorem sameAt_of_open {fd : Int} (hlog : st'.log = st.log ++ calls)
    (hnew : ∀ call ∈ calls, st.descriptors.isOpen call.fd = false)
    (hopen : st.descriptors.isOpen fd = true)
    : Descriptors.SameAt fd st.descriptors st'.descriptors := by
  apply sameAt_of_ne hlog
  intro call hcall heq
  have hfd := hnew call hcall
  rw [heq, hopen] at hfd
  contradiction

theorem create_calls (epollfd wakeupFd : Int) (taken : Bool)
    : (LoopDescriptors.create epollfd wakeupFd taken).2
        =
      [.opened epollfd, .opened wakeupFd, .add wakeupFd taken] := rfl

theorem Agrees.loopConstructed (h : Agrees st) (hinv : Inv st') {epollfd wakeupFd : Int}
    {taken : Bool} (hepollfd : st.descriptors.isOpen epollfd = false)
    (hwakeupFd : st.descriptors.isOpen wakeupFd = false)
    (heq : st' = { st with
      loop := .alive (LoopDescriptors.create epollfd wakeupFd taken).1
      log := st.log ++ (LoopDescriptors.create epollfd wakeupFd taken).2 })
    : Agrees st' := by
  have hlog : st'.log = st.log ++ [.opened epollfd, .opened wakeupFd, .add wakeupFd taken] := by
    rw [heq, create_calls]
  have hlegal : st'.Legal := by
    rw [legal_append hlog]
    refine ⟨h.legal, ?_⟩
    simp [Descriptors.Allowed, Descriptors.after, registered_of_new st hwakeupFd]
  have hsockets : Sockets st.reactor st.watched st.acceptor st'.descriptors := by
    apply h.sockets.sameAt
    intro fd hopen
    apply sameAt_of_open hlog _ hopen
    simp [Ctl.fd, hepollfd, hwakeupFd]
  subst heq
  exact ⟨hinv, hlegal, h.watched, h.captured, hsockets⟩

theorem Agrees.serverConstructed (h : Agrees st) (hinv : Inv st') {listenfd : Int}
    (hlistenfd : st.descriptors.isOpen listenfd = false)
    (heq : st' = { st with
      acceptor := Function.update st.acceptor s (.alive (Acceptor.create listenfd).1)
      log := st.log ++ [.opened listenfd] })
    : Agrees st' := by
  have hlog : st'.log = st.log ++ [.opened listenfd] := by rw [heq]
  have hlegal : st'.Legal := (legal_append hlog).mpr ⟨h.legal, trivial, trivial⟩
  have hne : ∀ fd, st.descriptors.isOpen fd = true → fd ≠ listenfd := by
    intro fd hopen heq
    rw [heq, hlistenfd] at hopen
    contradiction
  have hsockets : Sockets st.reactor st.watched
      (Function.update st.acceptor s (.alive (Acceptor.create listenfd).1)) st'.descriptors := by
    apply h.sockets.update
    . rw [descriptors_append hlog]
      refine ⟨?_, fun _ => ?_⟩
      . simp [Descriptors.afterAll, Descriptors.after, Acceptor.create]
      . exact registered_of_new st hlistenfd
    . intro fd _ hfd
      apply sameAt_of_ne hlog
      intro call hcall
      rw [List.mem_singleton.mp hcall]
      exact hfd.symm
    . intro s' a' _ halive
      exact hne _ (h.sockets.listening s' a' halive).1
    . intro c hc hopen
      exact (hne _ (h.sockets.connected c hc hopen).1).symm
  subst heq
  exact ⟨hinv, hlegal, h.watched, h.captured, hsockets⟩

theorem listen_eq (a : Acceptor) (taken : Bool) (hindex : a.acceptChannel_.channel.index_ < 0)
    : (a.listen taken).2 = [.add a.listenfd_ taken] ∧
        (a.listen taken).1.acceptChannel_.channel.index_ = 1 := by
  have hadd : a.acceptChannel_.channel.enableReadingSelf taken
      = ({ a.acceptChannel_.channel with
          events_ := a.acceptChannel_.channel.events_ ||| (EPOLLIN ||| EPOLLPRI)
          index_ := 1 }, [.add a.listenfd_ taken]) := by
    simp [Channel.enableReadingSelf, Channel.setEventsSelf, Channel.updateSelf,
      a.acceptChannel_.kept, a.acceptChannel_.fd_eq, hindex]
  unfold Acceptor.listen KeptChannel.enableReading
  dsimp only
  rw [hadd]
  exact ⟨rfl, rfl⟩

theorem Agrees.started (h : Agrees st) (hinv : Inv st') {taken : Bool} {a : Acceptor}
    (halive : st.acceptor s = .alive a) (hindex : a.acceptChannel_.channel.index_ < 0)
    (heq : st' = { st with
      acceptor := Function.update st.acceptor s (.alive (a.listen taken).1)
      log := st.log ++ (a.listen taken).2 })
    : Agrees st' := by
  obtain ⟨hcalls, hindex'⟩ := listen_eq a taken hindex
  obtain ⟨hopen, hregistered⟩ := h.sockets.listening s a halive
  have hlog : st'.log = st.log ++ [.add a.listenfd_ taken] := by rw [heq, hcalls]
  have hlegal : st'.Legal := by
    rw [legal_append hlog]
    refine ⟨h.legal, ?_⟩
    simp [Descriptors.Allowed, hopen, hregistered hindex]
  have hsockets : Sockets st.reactor st.watched
      (Function.update st.acceptor s (.alive (a.listen taken).1)) st'.descriptors := by
    apply h.sockets.update
    . rw [descriptors_append hlog]
      refine ⟨hopen, fun hneg => ?_⟩
      rw [hindex'] at hneg
      contradiction
    . intro fd _ hfd
      apply sameAt_of_ne hlog
      intro call hcall
      rw [List.mem_singleton.mp hcall]
      exact hfd.symm
    . intro s' a' hne halive'
      exact h.sockets.apart s' s a' a halive' halive hne
    . intro c hc hnonneg
      exact h.sockets.unshared c hc hnonneg s a halive
  subst heq
  exact ⟨hinv, hlegal, h.watched, h.captured, hsockets⟩

theorem issued_newConnection (r : Reactor) (s : ServerId) (fd : Int) (taken : Bool)
    : Reactor.issued taken r.created r (TcpServer.newConnection r s fd) = [.add fd taken] := by
  rw [Reactor.newConnection_eq]
  simp [Reactor.issued, Call.ctl]

theorem Agrees.accepted (h : Agrees st) {connfd : Int} {taken : Bool}
    (hinv : Inv (st.accepted s connfd taken)) (hnew : st.descriptors.isOpen connfd = false)
    : Agrees (st.accepted s connfd taken) := by
  have hlog : (st.accepted s connfd taken).log = st.log ++ [.opened connfd, .add connfd taken] := by
    unfold Ownership.accepted
    dsimp only
    rw [issued_newConnection, List.append_assoc]
    rfl
  have henters := Reactor.newConnection_enters st.reactor s connfd
  have hregistered := registered_of_new st hnew
  have hne : ∀ fd, st.descriptors.isOpen fd = true → fd ≠ connfd := by
    intro fd hopen heq
    rw [heq, hnew] at hopen
    contradiction
  have hsame : ∀ fd, st.descriptors.isOpen fd = true →
      Descriptors.SameAt fd st.descriptors (st.accepted s connfd taken).descriptors := by
    intro fd hopen
    apply sameAt_of_ne hlog
    simp [Ctl.fd, (hne fd hopen).symm]
  have hwatched : ∀ c, c ≠ st.reactor.created → (st.accepted s connfd taken).watched c = st.watched c :=
    fun c hc => Function.update_of_ne hc _ _
  constructor
  . exact hinv
  . rw [legal_append hlog]
    refine ⟨h.legal, ?_⟩
    simp [Descriptors.Allowed, Descriptors.after, hregistered]
  . intro c hc
    have hcreated : (st.accepted s connfd taken).reactor.created = st.reactor.created + 1 :=
      henters.created
    rw [hcreated]
    by_cases heq : c = st.reactor.created
    . omega
    . rw [hwatched c heq] at hc
      exact Nat.lt_succ_of_lt (h.watched c hc)
  . intro c hc
    have hcaptured : (st.accepted s connfd taken).captured = st.captured := by
      unfold Ownership.captured Ownership.accepted
      dsimp only
      rw [Reactor.newConnection_tasks]
    rw [hcaptured] at hc
    have hbefore := h.captured c hc
    rw [hwatched c (Nat.ne_of_lt (h.watched c hbefore))]
    exact hbefore
  . apply h.sockets.accepted _ hne hsame
    rw [descriptors_append hlog]
    simp [Connected, Descriptors.afterAll, Descriptors.after, hregistered]

theorem captured_calledBack {called : Nat}
    (htasks : ∀ c', c' ≠ c → r.tasksOf c' = st.reactor.tasksOf c')
    : ∀ c' ∈ (st.calledBack c called r).captured, c' = c ∨ c' ∈ st.captured := by
  intro c' hc'
  obtain ⟨closure, hclosure, hfst⟩ := List.mem_map.mp hc'
  subst hfst
  simp only [Ownership.calledBack, List.mem_append] at hclosure
  rcases hclosure with ((htask | hrunning) | hpending) | hfunctor
  . by_cases heq : closure.1 = c
    . exact .inl heq
    . have hof : closure.2 ∈ r.tasksOf closure.1 :=
        List.mem_filterMap.mpr ⟨closure, htask, if_pos rfl⟩
      rw [htasks _ heq] at hof
      obtain ⟨task, hmem, hsome⟩ := List.mem_filterMap.mp hof
      split at hsome
      . next hfst =>
        rw [← hfst]
        exact .inr (captured_of_task hmem)
      . contradiction
  . exact .inr (captured_of_running hrunning)
  . exact .inr (captured_of_pending hpending)
  . exact .inr (captured_of_functor hfunctor)

theorem Agrees.of_calledBack (h : Agrees st) {called : Nat} (hinv : Inv (st.calledBack c called r))
    (hwatched : st.watched c = true) (hcreated : r.created = st.reactor.created)
    (htasks : ∀ c', c' ≠ c → r.tasksOf c' = st.reactor.tasksOf c')
    (hlegal : (st.calledBack c called r).Legal)
    (hsockets : Sockets r st.watched st.acceptor (st.calledBack c called r).descriptors)
    : Agrees (st.calledBack c called r) := by
  constructor
  . exact hinv
  . exact hlegal
  . intro c' hc'
    have hlt : c' < st.reactor.created := h.watched c' hc'
    exact hcreated ▸ hlt
  . intro c' hc'
    cases captured_calledBack htasks c' hc' with
    | inl hself =>
      rw [hself]
      exact hwatched
    | inr hbefore => exact h.captured c' hbefore
  . exact hsockets

theorem sockfd_ne_of_open (hreactor : r.Inv) {fd : Int} (hopen : Reactor.Open c fd r)
    : ∀ c' < r.created, c' ≠ c → (r.conn c').sockfd_ ≠ fd := by
  intro c' hc' hne heq
  cases hreactor.conns c' hc' with
  | inl hother =>
    obtain ⟨fd', hother⟩ := hother
    rw [hother.sockfd] at heq
    subst heq
    exact hne (hother.unique hopen)
  | inr hclosed =>
    have hneg := hclosed.sockfd
    have hfd := hopen.nonneg
    omega

theorem Agrees.calledBack_open (h : Agrees st) {fd : Int} {new : List Call} {called : Nat}
    (hinv : Inv (st.calledBack c called r)) (hreactor : st.reactor.Inv)
    (hwatched : st.watched c = true) (hopen : Reactor.Open c fd st.reactor)
    (heffect : Reactor.Effect False c fd st.reactor r) (hissues : Reactor.Issues c fd st.reactor r new)
    : Agrees (st.calledBack c called r) := by
  have hc := h.watched c hwatched
  have hframe := heffect.frame
  have hlog : (st.calledBack c called r).log = st.log ++ Reactor.ctls new := by
    unfold Ownership.calledBack
    dsimp only
    rw [Reactor.issued_of_append hissues.calls]
  have hnonneg : 0 ≤ (st.reactor.conn c).sockfd_ := by
    rw [hopen.sockfd]
    exact hopen.nonneg
  obtain ⟨hisOpen, hregistered⟩ := h.sockets.connected c hc hnonneg
  rw [hopen.sockfd] at hisOpen hregistered
  rw [hwatched] at hregistered
  have hconn : ∀ c', c' ≠ c → (r.conn c').sockfd_ = (st.reactor.conn c').sockfd_ := by
    intro c' hne
    rw [hframe.conn c' hne]
  have hunique := sockfd_ne_of_open hreactor hopen
  cases hissues.outcome with
  | inl hstays =>
    obtain ⟨hopen', hmods⟩ := hstays
    obtain ⟨hlegal, hafter⟩ := Descriptors.legal_mods hisOpen hregistered hmods
    have hsame : (st.calledBack c called r).descriptors = st.descriptors := by
      rw [descriptors_append hlog, hafter]
    apply h.of_calledBack hinv hwatched hframe.created hframe.tasks
    . exact (legal_append hlog).mpr ⟨h.legal, hlegal⟩
    . rw [hsame]
      apply h.sockets.callback hframe.created hconn _ hc hopen.sockfd hopen.nonneg hunique
        (fun _ _ => ⟨rfl, rfl⟩)
      intro _
      exact ⟨by rw [hopen'.sockfd, hopen.sockfd], rfl⟩
  | inr hcloses =>
    obtain ⟨hclosed', mods, heq, hmods⟩ := hcloses
    obtain ⟨hlegal, hafter⟩ := Descriptors.legal_giveUp hisOpen hregistered hmods
    rw [← heq] at hlegal hafter
    have hsame : (st.calledBack c called r).descriptors = st.descriptors.after (.closed fd) := by
      rw [descriptors_append hlog, hafter]
    apply h.of_calledBack hinv hwatched hframe.created hframe.tasks
    . exact (legal_append hlog).mpr ⟨h.legal, hlegal⟩
    . rw [hsame]
      apply h.sockets.callback hframe.created hconn _ hc hopen.sockfd hopen.nonneg hunique
      . intro fd' hne
        exact Descriptors.sameAt_after hne.symm
      . intro hnonneg'
        rw [hclosed'.sockfd] at hnonneg'
        contradiction

theorem Agrees.calledBack_late (h : Agrees st) {called : Nat}
    (hinv : Inv (st.calledBack c called r)) (hwatched : st.watched c = true)
    (hlate : Reactor.Late c st.reactor r) : Agrees (st.calledBack c called r) := by
  have hlog : (st.calledBack c called r).log = st.log ++ [] := by
    unfold Ownership.calledBack Reactor.issued
    dsimp only
    rw [hlate.calls, List.drop_length]
    rfl
  have hsame : (st.calledBack c called r).descriptors = st.descriptors := descriptors_append hlog
  have hsockfd : ∀ c', (r.conn c').sockfd_ = (st.reactor.conn c').sockfd_ := by
    intro c'
    by_cases heq : c' = c
    . obtain ⟨revents, hself⟩ := hlate.self
      rw [heq, hself]
    . rw [hlate.conn c' heq]
  apply h.of_calledBack hinv hwatched hlate.created (fun c' hne => (hlate.same hne).tasks)
  . exact (legal_append hlog).mpr ⟨h.legal, Descriptors.legal_nil⟩
  . rw [hsame]
    constructor
    . exact h.sockets.listening
    . exact h.sockets.apart
    . rw [hlate.created]
      intro c' hc' hnonneg
      rw [hsockfd] at hnonneg ⊢
      exact h.sockets.connected c' hc' hnonneg
    . rw [hlate.created]
      intro c' hc' hnonneg
      rw [hsockfd] at hnonneg ⊢
      exact h.sockets.unshared c' hc' hnonneg

theorem Agrees.calledBack (h : Agrees st) {l : Reactor.Label} {called : Nat}
    (hinv : Inv (st.calledBack c called r)) (hlooping : st.looping = true)
    (hsubject : l.subject = some c) (hwatched : st.watched c = true)
    (hr : st.reactor.step l = some r) : Agrees (st.calledBack c called r) := by
  have hreactor := h.inv.reactor (tornDown_of_looping hlooping)
  cases hreactor.callback_cases hr hsubject with
  | inl hopen =>
    obtain ⟨fd, new, hopen, heffect, hissues⟩ := hopen
    exact h.calledBack_open hinv hreactor hwatched hopen heffect hissues
  | inr hlate => exact h.calledBack_late hinv hwatched hlate.2

theorem Agrees.step (h : Agrees st) {l : Label} (hkept : l.destroys = false)
    (hl : step st l = some st') : Agrees st' := by
  have hinv := h.inv.step hl
  cases change hl with
  | loopConstructed epollfd wakeupFd taken hepollfd hwakeupFd hne heq =>
    exact h.loopConstructed hinv hepollfd hwakeupFd heq
  | serverConstructed s listenfd hunborn hlistenfd heq =>
    exact h.serverConstructed hinv hlistenfd heq
  | started s taken acceptor halive hindex heq => exact h.started hinv halive hindex heq
  | accepted s connfd taken hlooping hfd hnew hr heq =>
    subst heq
    exact h.accepted hinv hnew
  | callback c called label r hlooping hsubject hwatched hr heq =>
    subst heq
    exact h.calledBack hinv hlooping hsubject (hwatched.elim id (h.captured c)) hr
  | passes hpasses => exact h.passes hinv hpasses
  | connectionDestroyed c hc hzero hlog =>
    have hthree := three_le_refcount h.inv hc
    omega
  | serverDestroyed s taken acceptor hl heq =>
    rw [hl] at hkept
    contradiction
  | loopDestroyed taken loop hl heq =>
    rw [hl] at hkept
    contradiction

theorem agrees_init : Agrees init where
  inv := inv_init
  legal := trivial
  watched := fun _ hwatched => by contradiction
  captured := fun _ hcaptured => absurd hcaptured List.not_mem_nil
  sockets := ⟨fun _ _ halive => by contradiction, fun _ _ _ _ halive => by contradiction,
    fun _ hc => absurd hc (Nat.not_lt_zero _), fun _ hc => absurd hc (Nat.not_lt_zero _)⟩

end Agrees

/--
Every `epoll_ctl` of a run is one that the kernel allows exactly if the run destroys neither a server
nor the loop.
-/
theorem legal_iff {ls : List Label} (h : exec step init ls = some st)
    : st.Legal ↔ ∀ l ∈ ls, l.destroys = false := by
  constructor
  . intro hlegal l hl
    obtain ⟨before, after, heq⟩ := List.append_of_mem hl
    rw [heq, exec_append_eq_some] at h
    obtain ⟨t, _, hrest⟩ := h
    obtain ⟨t', hstep, hafter⟩ := (exec_cons_eq_some step).mp hrest
    rw [← Bool.not_eq_true]
    intro hdestroys
    exact not_legal_of_destroys hstep hdestroys (hlegal.of_prefix (log_exec hafter))
  . intro hkept
    have hmeets : Meets step (fun _ l => l.destroys = false) init ls := meets_of_forall_mem step hkept
    have hagrees : Agrees st := exec_invariant_of_meets step _
      (fun _ _ _ hs hC hl => hs.step hC hl) agrees_init hmeets h
    exact hagrees.legal

/--
The gateway starts, serves a client on a socket and another one on the same socket.
-/
def service : List Label := [
  .constructLoop 3 4 true,
  .constructServer .api 5,
  .constructServer .mgmt 6,
  .start .api true,
  .start .mgmt true,
  .accept .mgmt 7 true,
  .event 0 EPOLLIN (.data [71]) .again [[72]],
  .event 0 EPOLLOUT .again (.accepted 1) [],
  .event 0 EPOLLRDHUP .again .again [],
  .accept .api 7 true
]

theorem legal_iff_service : ∃ st, exec step init service = some st ∧ st.Legal := by
  have hend := Option.eq_some_of_isSome (o := exec step init service) (by decide)
  exact ⟨_, hend, (legal_iff hend).mpr (by decide)⟩

/--
The gateway starts, and a signal ends it.
-/
def shutdown : List Label := [
  .constructLoop 3 4 true,
  .constructServer .api 5,
  .constructServer .mgmt 6,
  .start .api true,
  .start .mgmt true,
  .destroyServer .mgmt true,
  .destroyServer .api true,
  .destroyLoop true
]

theorem not_legal_shutdown
    : ¬∀ (ls : List Label) (st : Ownership), exec step init ls = some st → st.Legal := by
  intro hlegal
  have hend := Option.eq_some_of_isSome (o := exec step init shutdown) (by decide)
  exact absurd (hlegal shutdown _ hend) (by decide)

end Ownership
end LFGateway
