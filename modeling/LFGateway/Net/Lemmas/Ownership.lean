import LFGateway.Net.Impl.Ownership
import LFGateway.Net.Lemmas.Reactor

/-!
This module contains everything a step can do to the objects of the network side, said once.
-/

namespace LFGateway

open Foundation

namespace Reactor

variable {r r' : Reactor}

def Label.subject : Label → Option Nat
  | .event c _ _ _ _ => some c
  | .accept _ _ => none
  | .functor c _ => some c

theorem step_accept {s : ServerId} {fd : Int} (h : step r (.accept s fd) = some r') (hfd : 0 ≤ fd)
    : r' = TcpServer.newConnection r s fd := by
  simp only [step, not_lt.mpr hfd, ↓reduceIte] at h
  split at h
  . exact (Option.some.inj h).symm
  . contradiction

end Reactor

namespace Ownership

variable {st st' : Ownership} {c : Nat}

/--
The connections that some task, enqueued at any time, or some functor captured.
-/
def captured (st : Ownership) : List Nat :=
  (st.reactor.tasks ++ st.running ++ st.pendingFunctors_ ++ st.functors).map Prod.fst

def accepted (st : Ownership) (s : ServerId) (connfd : Int) (taken : Bool) : Ownership :=
  let c := st.reactor.created
  let r := TcpServer.newConnection st.reactor s connfd
  { st with
    reactor := r
    callbacks := Function.update st.callbacks c (.ofSelf c)
    watched := Function.update st.watched c taken
    log := st.log ++ [.opened connfd] ++ Reactor.issued taken c st.reactor r }

def calledBack (st : Ownership) (c called : Nat) (r : Reactor) : Ownership :=
  { st with
    reactor := r
    called
    log := st.log ++ Reactor.issued true c st.reactor r }

/--
Tasks and functors come, run and go on the way from `st` to `st'`.
-/
structure Passes (st st' : Ownership) : Prop where
  reactor : st'.reactor = st.reactor
  callbacks : st'.callbacks = st.callbacks
  watched : st'.watched = st.watched
  loop : st'.loop = st.loop
  acceptor : st'.acceptor = st.acceptor
  gone : st'.gone = st.gone
  log : st'.log = st.log
  captured : st'.captured ⊆ st.captured

theorem Passes.refl (st : Ownership) : Passes st st :=
  ⟨rfl, rfl, rfl, rfl, rfl, rfl, rfl, List.Subset.refl _⟩

section Captured

variable {closure : Nat × Bytes}

theorem captured_of_task (h : closure ∈ st.reactor.tasks) : closure.1 ∈ st.captured := by
  apply List.mem_map_of_mem
  simp [h]

theorem captured_of_running (h : closure ∈ st.running) : closure.1 ∈ st.captured := by
  apply List.mem_map_of_mem
  simp [h]

theorem captured_of_pending (h : closure ∈ st.pendingFunctors_) : closure.1 ∈ st.captured := by
  apply List.mem_map_of_mem
  simp [h]

theorem captured_of_functor (h : closure ∈ st.functors) : closure.1 ∈ st.captured := by
  apply List.mem_map_of_mem
  simp [h]

theorem passes_of_captured {popped called : Nat}
    {running pendingFunctors_ functors : List (Nat × Bytes)}
    (hrunning : ∀ closure ∈ running, closure.1 ∈ st.captured)
    (hpending : ∀ closure ∈ pendingFunctors_, closure.1 ∈ st.captured)
    (hfunctors : ∀ closure ∈ functors, closure.1 ∈ st.captured)
    : Passes st { st with popped, running, pendingFunctors_, functors, called } := by
  refine ⟨rfl, rfl, rfl, rfl, rfl, rfl, rfl, ?_⟩
  intro c hc
  obtain ⟨closure, hclosure, heq⟩ := List.mem_map.mp hc
  simp only [List.mem_append] at hclosure
  rw [← heq]
  rcases hclosure with ((htask | hrun) | hpend) | hfunctor
  . exact captured_of_task htask
  . exact hrunning closure hrun
  . exact hpending closure hpend
  . exact hfunctors closure hfunctor

end Captured

inductive Change (st st' : Ownership) (l : Label) : Prop where
  | loopConstructed (epollfd wakeupFd : Int) (taken : Bool)
      (hepollfd : st.descriptors.isOpen epollfd = false)
      (hwakeupFd : st.descriptors.isOpen wakeupFd = false) (hne : epollfd ≠ wakeupFd)
      (heq : st' = { st with
        loop := .alive (LoopDescriptors.create epollfd wakeupFd taken).1
        log := st.log ++ (LoopDescriptors.create epollfd wakeupFd taken).2 })
  | serverConstructed (s : ServerId) (listenfd : Int) (hunborn : st.acceptor s = .unborn)
      (hlistenfd : st.descriptors.isOpen listenfd = false)
      (heq : st' = { st with
        acceptor := Function.update st.acceptor s (.alive (Acceptor.create listenfd).1)
        log := st.log ++ [.opened listenfd] })
  | started (s : ServerId) (taken : Bool) (acceptor : Acceptor)
      (halive : st.acceptor s = .alive acceptor)
      (hindex : acceptor.acceptChannel_.channel.index_ < 0)
      (heq : st' = { st with
        acceptor := Function.update st.acceptor s (.alive (acceptor.listen taken).1)
        log := st.log ++ (acceptor.listen taken).2 })
  | accepted (s : ServerId) (connfd : Int) (taken : Bool) (hlooping : st.looping = true)
      (hfd : 0 ≤ connfd) (hnew : st.descriptors.isOpen connfd = false)
      (hr : st.reactor.step (.accept s connfd)
        = some (TcpServer.newConnection st.reactor s connfd))
      (heq : st' = st.accepted s connfd taken)
  | callback (c called : Nat) (label : Reactor.Label) (r : Reactor) (hlooping : st.looping = true)
      (hsubject : label.subject = some c) (hwatched : st.watched c = true ∨ c ∈ st.captured)
      (hr : st.reactor.step label = some r) (heq : st' = st.calledBack c called r)
  | passes (hpasses : Passes st st')
  | connectionDestroyed (c : Nat) (hc : c < st.reactor.created) (hzero : st.refcount c = 0)
      (hlog : st.log <+: st'.log)
  | serverDestroyed (s : ServerId) (taken : Bool) (acceptor : Acceptor)
      (hl : l = .destroyServer s taken)
      (heq : st' = { st with
        reactor := (TcpServer.destroy st.reactor s taken).1
        acceptor := Function.update st.acceptor s .destroyed
        log := st.log ++ (TcpServer.destroy st.reactor s taken).2 ++ acceptor.destroy taken })
  | loopDestroyed (taken : Bool) (loop : LoopDescriptors) (hl : l = .destroyLoop taken)
      (heq : st' = { st with
        loop := .destroyed
        pendingFunctors_ := []
        log := st.log ++ loop.destroy taken })

theorem advance_eq_some {taken : Bool} {l : Reactor.Label}
    : st.advance c taken l = some st'
        ↔
      ∃ r, st.reactor.step l = some r ∧
        st' = { st with reactor := r, log := st.log ++ Reactor.issued taken c st.reactor r } := by
  simp [advance, eq_comm]

variable {l : Label}

theorem change_constructLoop {epollfd wakeupFd : Int} {taken : Bool}
    (h : st.constructLoop epollfd wakeupFd taken = some st') : Change st st' l := by
  unfold constructLoop at h
  split at h
  . split at h
    . contradiction
    . next hfresh =>
      rw [not_or, not_or, Bool.not_eq_true, Bool.not_eq_true] at hfresh
      exact .loopConstructed epollfd wakeupFd taken hfresh.1 hfresh.2.1 hfresh.2.2
        (Option.some.inj h).symm
  . contradiction
  . contradiction

theorem change_constructServer {s : ServerId} {listenfd : Int}
    (h : st.constructServer s listenfd = some st') : Change st st' l := by
  unfold constructServer at h
  split at h
  . next hunborn =>
    split at h
    . next hfresh =>
      rw [Bool.not_eq_true] at hfresh
      exact .serverConstructed s listenfd hunborn hfresh.2 (Option.some.inj h).symm
    . contradiction
  . contradiction
  . contradiction

theorem change_start {s : ServerId} {taken : Bool} (h : st.start s taken = some st')
    : Change st st' l := by
  unfold start at h
  split at h
  . next acceptor halive =>
    split at h
    . next hindex => exact .started s taken acceptor halive hindex (Option.some.inj h).symm
    . contradiction
  . contradiction
  . contradiction

theorem change_event {revents : Events} {read : ReadResult} {write : WriteResult}
    {replies : List Bytes} (h : step st (.event c revents read write replies) = some st')
    : Change st st' l := by
  unfold step at h
  dsimp only at h
  split at h
  . next hlooping =>
    obtain ⟨r, hr, heq⟩ := advance_eq_some.mp h
    exact .callback c st.called _ r hlooping.1 rfl (.inl hlooping.2) hr heq
  . contradiction

theorem change_accept {s : ServerId} {connfd : Int} {taken : Bool}
    (h : st.accept s connfd taken = some st') : Change st st' l := by
  unfold accept at h
  split at h
  . split at h
    . next hlooping =>
      split at h
      . rw [← Option.some.inj h]
        exact .passes (Passes.refl st)
      . next hfd =>
        split at h
        . contradiction
        . next hnew =>
          obtain ⟨r, hr, heq⟩ := advance_eq_some.mp h
          have hr' := Reactor.step_accept hr (not_lt.mp hfd)
          subst hr'
          exact .accepted s connfd taken hlooping.1 (not_lt.mp hfd) (Bool.eq_false_iff.mpr hnew) hr heq
    . contradiction
  . contradiction
  . contradiction

theorem change_takeTask (h : step st .takeTask = some st') : Change st st' l := by
  unfold step at h
  dsimp only at h
  split at h
  . next task rest htasks =>
    split at h
    . rw [← Option.some.inj h]
      have htask : task ∈ st.tasks_ := by simp [htasks]
      refine .passes (passes_of_captured ?_ (fun _ => captured_of_pending) (fun _ => captured_of_functor))
      rw [List.forall_mem_append, List.forall_mem_singleton]
      exact ⟨fun _ => captured_of_running, captured_of_task (List.mem_of_mem_drop htask)⟩
    . contradiction
  . contradiction

theorem change_send {i : Nat} {message : Bytes} (h : step st (.send i message) = some st')
    : Change st st' l := by
  unfold step at h
  dsimp only at h
  split at h
  . next c raw htask =>
    split at h
    . rw [← Option.some.inj h]
      have hcaptured := captured_of_running (List.mem_of_getElem? htask)
      refine .passes (passes_of_captured (fun _ => captured_of_running) ?_ (fun _ => captured_of_functor))
      rw [List.forall_mem_append, List.forall_mem_singleton]
      exact ⟨fun _ => captured_of_pending, hcaptured⟩
    . contradiction
  . contradiction

theorem change_finishTask {i : Nat} (h : step st (.finishTask i) = some st') : Change st st' l := by
  unfold step at h
  dsimp only at h
  split at h
  . rw [← Option.some.inj h]
    refine .passes (passes_of_captured ?_ (fun _ => captured_of_pending) (fun _ => captured_of_functor))
    intro closure hclosure
    exact captured_of_running ((List.eraseIdx_sublist _ _).subset hclosure)
  . contradiction

theorem change_swap (h : step st .swap = some st') : Change st st' l := by
  unfold step at h
  dsimp only at h
  split at h
  . rw [← Option.some.inj h]
    exact .passes (passes_of_captured (fun _ => captured_of_running)
      (fun _ hnil => absurd hnil List.not_mem_nil) (fun _ => captured_of_pending))
  . contradiction

theorem change_clearFunctors (h : step st .clearFunctors = some st') : Change st st' l := by
  unfold step at h
  dsimp only at h
  split at h
  . rw [← Option.some.inj h]
    exact .passes (passes_of_captured (fun _ => captured_of_running) (fun _ => captured_of_pending)
      (fun _ hnil => absurd hnil List.not_mem_nil))
  . contradiction

theorem change_callFunctor (h : st.callFunctor = some st') : Change st st' l := by
  unfold callFunctor at h
  split at h
  . next c message hfunctor =>
    split at h
    . next hlooping =>
      obtain ⟨r, hr, heq⟩ := advance_eq_some.mp h
      have hcaptured := captured_of_functor (List.mem_of_getElem? hfunctor)
      exact .callback c (st.called + 1) _ r hlooping rfl (.inr hcaptured) hr heq
    . contradiction
  . contradiction

theorem change_destroyConnection (h : st.destroyConnection c = some st') : Change st st' l := by
  unfold destroyConnection at h
  split at h
  . next hlast =>
    rw [← Option.some.inj h]
    exact .connectionDestroyed c hlast.1 hlast.2.2 (List.prefix_append _ _)
  . contradiction

theorem change_destroyServer {s : ServerId} {taken : Bool}
    (h : st.destroyServer s taken = some st') : Change st st' (.destroyServer s taken) := by
  unfold destroyServer at h
  split at h
  . next acceptor _ => exact .serverDestroyed s taken acceptor rfl (Option.some.inj h).symm
  . contradiction
  . contradiction

theorem change_destroyLoop {taken : Bool} (h : st.destroyLoop taken = some st')
    : Change st st' (.destroyLoop taken) := by
  unfold destroyLoop at h
  split at h
  . next loop _ =>
    split at h
    . contradiction
    . exact .loopDestroyed taken loop rfl (Option.some.inj h).symm
  . contradiction
  . contradiction

theorem change (h : step st l = some st') : Change st st' l := by
  cases l with
  | constructLoop epollfd wakeupFd taken => exact change_constructLoop h
  | constructServer s listenfd => exact change_constructServer h
  | start s taken => exact change_start h
  | event c revents read write replies => exact change_event h
  | accept s connfd taken => exact change_accept h
  | takeTask => exact change_takeTask h
  | send i message => exact change_send h
  | finishTask i => exact change_finishTask h
  | swap => exact change_swap h
  | callFunctor => exact change_callFunctor h
  | clearFunctors => exact change_clearFunctors h
  | destroyConnection c => exact change_destroyConnection h
  | destroyServer s taken => exact change_destroyServer h
  | destroyLoop taken => exact change_destroyLoop h

end Ownership
end LFGateway
