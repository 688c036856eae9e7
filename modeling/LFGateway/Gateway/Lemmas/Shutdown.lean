import LFGateway.Stream.Lemmas
import LFGateway.Gateway.Impl.Lifetime

/-!
This module contains why the shutdown is not ordered: `~Gateway` comes to the destructors of the pools
without waiting for anything, and whatever the stream writer is doing, it uses them soon.
-/

namespace LFGateway

open Foundation

namespace StreamWriter

def Calls (s s' : State) (outcomes : List Outcome) : Prop :=
  exec StreamWriter.step s (outcomes.map .writer) = some s'

def Live (s : State) : Prop := s.writer.running_ = true ∧ s.writer.pc ≠ .stopped

theorem Live.exists_uses {s : State} (hlive : Live s)
    : ∃ outcomes s', Calls s s' outcomes ∧ s'.writer.pc.uses ≠ [] ∧
        (StreamWriter.step s' (.writer .ok)).isSome := by
  obtain ⟨store, ⟨pc, running_⟩⟩ := s
  obtain ⟨hrunning, hpc⟩ := hlive
  dsimp only at hrunning hpc
  subst hrunning
  cases pc with
  | stopped => contradiction
  | create | read | acquire | release => exact ⟨[], _, rfl, by simp [Pc.uses], rfl⟩
  | loop => exact ⟨[.ok], _, rfl, by simp [Pc.uses], rfl⟩
  | sleep | caught => exact ⟨[.ok, .ok], _, rfl, by simp [Pc.uses], rfl⟩
  | query messages => exact ⟨[.failed], _, rfl, by simp [Pc.uses], rfl⟩
  | ack messages rest =>
    cases rest with
    | nil => exact ⟨[.ok], _, rfl, by simp [Pc.uses], rfl⟩
    | cons msg rest => exact ⟨[], _, rfl, by simp [Pc.uses], rfl⟩

theorem uses_subset (pc : Pc Entry) : ∀ m ∈ pc.uses, m ∈ [Member.redisClient_, .redisPool_, .mysqlPool_] := by
  unfold Pc.uses
  split <;> decide

theorem Live.run {s : State} (hlive : Live s) {outcome : Outcome} {store : LogStore} {writer : Writer Entry}
    (h : StreamWriter.run s.store s.writer outcome = some (store, writer)) : Live ⟨store, writer⟩ := by
  obtain ⟨hrunning, hpc⟩ := hlive
  simp only [StreamWriter.run, Effects.run, stored, ↓reduceIte] at h
  split at h
  case h_1 => contradiction
  case h_4 =>
    rw [Option.some.injEq, Prod.mk.injEq] at h
    rw [← h.2, hrunning]
    exact ⟨rfl, by simp⟩
  case h_6 =>
    rw [Option.some.injEq, Prod.mk.injEq] at h
    rw [← h.2]
    refine ⟨hrunning, ?_⟩
    dsimp only
    split <;> simp
  all_goals
    first
    | contradiction
    | rw [Option.some.injEq, Prod.mk.injEq] at h
      rw [← h.2]
      exact ⟨hrunning, by simp⟩

end StreamWriter

namespace Lifetime

variable {s s' : Lifetime} {threadNum : Nat} {store : LogStore}

def Inv (s : Lifetime) : Prop := (∀ members, s.main ≠ .destroying members) → StreamWriter.Live s.stream

theorem Inv.stream (hinv : Inv s) {l : StreamWriter.Label} {stream : StreamWriter.State}
    (hl : (∃ outcome, l = .writer outcome) ∨ stream.writer = s.stream.writer)
    (h : StreamWriter.step s.stream l = some stream) : Inv { s with stream } := by
  intro hmain
  have hlive := hinv hmain
  cases hl with
  | inl hwriter =>
    obtain ⟨outcome, rfl⟩ := hwriter
    exact hlive.run (StreamWriter.step_writer h)
  | inr hsame =>
    unfold StreamWriter.Live
    dsimp only
    rw [hsame]
    exact hlive

theorem Inv.of_destroying {members : List Member} (hmain : s.main = .destroying members) : Inv s :=
  fun hnot => absurd hmain (hnot members)

theorem stream_of_step {l : StreamWriter.Label} (h : Lifetime.step s (.stream l) = some s')
    : ∃ stream, StreamWriter.step s.stream l = some stream ∧ s' = { s with stream } ∧
        ((∃ outcome, l = .writer outcome) ∨ stream.writer = s.stream.writer) := by
  cases l with
  | writer outcome =>
    unfold Lifetime.step at h
    dsimp only at h
    split at h
    . next stream hstream =>
      rw [Option.some.injEq] at h
      exact ⟨stream, hstream, h.symm, .inl ⟨outcome, rfl⟩⟩
    . contradiction
  | push path user_id status_code latency_ms =>
    unfold Lifetime.step StreamWriter.step at h
    dsimp only at h
    rw [Option.some.injEq] at h
    exact ⟨_, rfl, h.symm, .inr rfl⟩
  | trim n =>
    unfold Lifetime.step StreamWriter.step at h
    dsimp only at h
    rw [Option.some.injEq] at h
    exact ⟨_, rfl, h.symm, .inr rfl⟩
  | start | stop | crash => contradiction

theorem destroying_of_destroyPool {l : ThreadPool.Label Job} (h : step s (.destroyPool l) = some s')
    : ∃ members, s'.main = .destroying members := by
  unfold step at h
  dsimp only at h
  split at h
  case h_1 hmain | h_2 hmain | h_3 hmain =>
    split at h
    . rw [Option.some.injEq] at h
      rw [← h]
      exact ⟨_, hmain⟩
    . contradiction
  . contradiction

theorem destroying_of_stopWriter (h : step s .stopWriter = some s')
    : ∃ members, s'.main = .destroying members := by
  unfold step at h
  dsimp only at h
  split at h
  . next hmain =>
    split at h
    . rw [Option.some.injEq] at h
      rw [← h]
      exact ⟨_, hmain⟩
    . contradiction
  . contradiction

theorem destroying_of_destroyed (h : step s .destroyed = some s')
    : ∃ members, s'.main = .destroying members := by
  unfold step at h
  dsimp only at h
  split at h
  . split at h
    . rw [Option.some.injEq] at h
      rw [← h]
      exact ⟨_, rfl⟩
    . contradiction
  . contradiction

theorem Inv.step (hinv : Inv s) {l : Label} (h : Lifetime.step s l = some s') : Inv s' := by
  cases l with
  | process l =>
    unfold Lifetime.step at h
    dsimp only at h
    split at h
    . rw [Option.some.injEq] at h
      rw [← h]
      exact hinv
    . contradiction
  | stream l =>
    obtain ⟨stream, hstream, rfl, hl⟩ := stream_of_step h
    exact hinv.stream hl hstream
  | leave =>
    unfold Lifetime.step at h
    dsimp only at h
    split at h
    . next hmain _ =>
      rw [Option.some.injEq] at h
      rw [← h]
      intro _
      exact hinv (by simp [hmain])
    . contradiction
  | stop =>
    unfold Lifetime.step at h
    dsimp only at h
    split at h
    . rw [Option.some.injEq] at h
      rw [← h]
      exact .of_destroying rfl
    . contradiction
  | destroyPool l =>
    obtain ⟨members, hmain⟩ := destroying_of_destroyPool h
    exact .of_destroying hmain
  | stopWriter =>
    obtain ⟨members, hmain⟩ := destroying_of_stopWriter h
    exact .of_destroying hmain
  | destroyed =>
    obtain ⟨members, hmain⟩ := destroying_of_destroyed h
    exact .of_destroying hmain

theorem inv_exec {ls : List Label} (h : exec step (init threadNum store) ls = some s) : Inv s := by
  apply exec_invariant step (fun _ _ _ hinv hl => hinv.step hl) _ h
  intro _
  exact ⟨rfl, by simp [init]⟩

def destroyPools : List Label := .stop :: List.replicate 9 .destroyed

def withoutPools (s : Lifetime) : Lifetime :=
  { s with
    main := .destroying [.threadPool_, .mgmtServer_, .apiServer_, .streamWriter_]
    destroyed := s.destroyed ++ [.distributedLimiter_, .mgmtHandler_, .logConsumer_, .rateLimiter_,
      .auth_, .router_, .redisClient_, .redisPool_, .mysqlPool_] }

theorem exec_destroyPools (hmain : s.main = .stopping)
    : exec step s destroyPools = some s.withoutPools := by
  simp [destroyPools, exec, List.replicate, step, hmain, Member.declared, joined, withoutPools]

theorem exec_calls {outcomes : List StreamWriter.Outcome} {stream : StreamWriter.State}
    (h : StreamWriter.Calls s.stream stream outcomes)
    : exec step s (outcomes.map fun outcome => .stream (.writer outcome)) = some { s with stream } := by
  induction outcomes generalizing s with
  | nil =>
    simp only [StreamWriter.Calls, List.map_nil, exec_nil, Option.some.injEq] at h
    rw [← h]
    rfl
  | cons outcome outcomes ih =>
    unfold StreamWriter.Calls at h
    rw [List.map_cons] at h
    obtain ⟨next, hnext, hrest⟩ := (exec_cons_eq_some _).mp h
    rw [List.map_cons, exec_cons_eq_some]
    refine ⟨{ s with stream := next }, ?_, ih hrest⟩
    simp only [step, hnext]

theorem not_ordered_of_uses {ls : List Label} {l : Label} (h : exec step s ls = some s')
    (hl : (step s' l).isSome) (huses : UsesDestroyed s' l) : ¬OrderedShutdown s := by
  intro hordered
  obtain ⟨next, hnext⟩ := Option.isSome_iff_exists.mp hl
  have hwhole := (exec_append_eq_some step).mpr
    ⟨s', h, (exec_cons_eq_some step).mpr ⟨next, hnext, exec_nil step next⟩⟩
  have hmeets := hordered _ (Option.isSome_of_eq_some hwhole)
  rw [meets_append_iff step _ h] at hmeets
  exact hmeets.2.1 huses

/--
A worker that is about to use a member finds it gone as well: `~ThreadPool` waits for it too late.
-/
theorem task_not_ordered (hmain : s.main = .stopping) {w : Nat} {e : ApiEvent}
    (hl : (s.process.step (.perform w e)).isSome) (huses : e.op.uses ≠ []) : ¬OrderedShutdown s := by
  obtain ⟨process, hprocess⟩ := Option.isSome_iff_exists.mp hl
  apply not_ordered_of_uses (exec_destroyPools hmain) (l := .process (.perform w e))
  . simp [step, withoutPools, hprocess]
  . obtain ⟨o, r⟩ := e
    cases o with
    | routerMatch | readRule => exact ⟨.router_, by simp [ApiOp.uses], by simp [withoutPools]⟩
    | command => exact ⟨.redisClient_, by simp [ApiOp.uses], by simp [withoutPools]⟩
    | add | steadyNow | systemNow | send => exact absurd rfl huses

/--
From the start of `~Gateway` on, in whatever state it finds the other threads, there is an interleaving
in which the stream writer uses a pool that is gone.
-/
theorem never_orderedShutdown {threadNum : Nat} {store : LogStore} {ls : List Label} {s : Lifetime}
    (h : exec step (init threadNum store) ls = some s) (hmain : s.main = .stopping)
    : ¬OrderedShutdown s := by
  have hlive := inv_exec h (by simp [hmain])
  obtain ⟨outcomes, stream, hcalls, huses, henabled⟩ := hlive.exists_uses
  obtain ⟨next, hnext⟩ := Option.isSome_iff_exists.mp henabled
  have hwriter := exec_calls (s := s.withoutPools) hcalls
  have hrun := (exec_append_eq_some step).mpr ⟨_, exec_destroyPools hmain, hwriter⟩
  apply not_ordered_of_uses hrun (l := .stream (.writer .ok))
  . simp [step, hnext]
  . obtain ⟨m, hm⟩ := List.exists_mem_of_ne_nil _ huses
    refine ⟨m, hm, ?_⟩
    have hpool := StreamWriter.uses_subset _ m hm
    simp only [List.mem_cons, List.not_mem_nil, or_false] at hpool
    apply List.mem_append_right
    rcases hpool with rfl | rfl | rfl <;> simp

/--
An idle gateway gets a signal while the stream writer is about to read.
-/
def signalled : List Label := [
  .stream (.writer .ok), .stream (.writer .ok), .process (.loop .enter),
  .process (.loop .quitInLoopThread), .process (.loop .test), .leave
]

theorem never_orderedShutdown_signalled
    : ∃ s, exec step (init 16 StreamWriter.init.store) signalled = some s ∧ ¬OrderedShutdown s := by
  have hend := Option.eq_some_of_isSome
    (o := exec step (init 16 StreamWriter.init.store) signalled) (by decide)
  exact ⟨_, hend, never_orderedShutdown hend (by decide)⟩

theorem not_orderedShutdown_signalled
    : ∃ s s', exec step (init 16 StreamWriter.init.store) signalled = some s ∧
        exec step s destroyPools = some s' ∧ .redisClient_ ∈ s'.destroyed ∧
        s'.stream.writer.pc = .read ∧ ¬OrderedShutdown s := by
  have hend := Option.eq_some_of_isSome
    (o := exec step (init 16 StreamWriter.init.store) signalled) (by decide)
  have hdestroy := exec_destroyPools (s := (exec step (init 16 StreamWriter.init.store) signalled).get
    (by decide)) (by decide)
  refine ⟨_, _, hend, hdestroy, by decide, by decide, ?_⟩
  apply not_ordered_of_uses hdestroy (l := .stream (.writer .ok)) (by decide)
  exact ⟨.redisClient_, by decide, by decide⟩

end Lifetime
end LFGateway
