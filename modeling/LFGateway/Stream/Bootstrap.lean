import LFGateway.Stream.Lemmas

/-!
This module contains when the group `log_writers` exists after the one call of `xgroup_create`: the
stream has to be there first, no later `push` makes up for it.
-/

namespace LFGateway
namespace StreamWriter

open Foundation

variable {s s' : State}

def runStep (s : State) (l : Label) : Option State :=
  match l with
  | .start => none
  | .crash => none
  | l => step s l

def started (store : LogStore) : State := ⟨store, ⟨.create, true⟩⟩

/--
Once the writer is past `xgroup_create`, there is no stream without the group.
-/
def GroupReady (s : State) : Prop :=
  s.writer.pc ≠ .create → s.store.log_stream ≠ none → s.store.log_writers ≠ none

instance (s : State) : Decidable (GroupReady s) := by
  unfold GroupReady
  infer_instance

/--
`xgroup_create` is not lost where there is a stream without the group, and no `push` makes a stream
once it was called.
-/
def StreamFirst (s : State) : Label → Prop
  | .writer outcome =>
    s.writer.pc = .create → s.store.log_stream ≠ none → s.store.log_writers = none →
      outcome ≠ .failed
  | .push _ _ _ _ =>
    s.writer.pc ≠ .create → s.store.log_stream = none → s.store.log_writers ≠ none
  | _ => True

instance (s : State) (l : Label) : Decidable (StreamFirst s l) :=
  match l with
  | .writer outcome =>
    inferInstanceAs (Decidable (s.writer.pc = .create → s.store.log_stream ≠ none →
      s.store.log_writers = none → outcome ≠ .failed))
  | .push _ _ _ _ =>
    inferInstanceAs (Decidable (s.writer.pc ≠ .create → s.store.log_stream = none →
      s.store.log_writers ≠ none))
  | .start | .stop | .crash | .trim _ => isTrue trivial

theorem pc_of_run {store store' : LogStore} {writer writer' : Writer Entry} {outcome : Outcome}
    (h : run store writer outcome = some (store', writer')) : writer'.pc ≠ .create := by
  simp only [run, Effects.run, stored] at h
  split at h
  all_goals first
    | contradiction
    | rw [Option.some.injEq, Prod.mk.injEq] at h
      obtain ⟨_, rfl⟩ := h
      dsimp only
      try split
      all_goals simp

theorem xgroupCreate_log_writers {store : LogStore}
    : store.xgroupCreate.log_writers = none ↔ store.log_writers = none ∧ store.log_stream = none := by
  obtain ⟨log_stream, lastId, log_writers, api_call_logs⟩ := store
  cases log_stream <;> cases log_writers <;> simp [LogStore.xgroupCreate]

theorem xgroupCreate_log_stream {store : LogStore}
    : store.xgroupCreate.log_stream = store.log_stream := by
  obtain ⟨log_stream, lastId, log_writers, api_call_logs⟩ := store
  cases log_stream <;> cases log_writers <;> rfl

theorem Moves.stores {outcome : Outcome} {store : LogStore} {writer : Writer Entry}
    (h : Moves s outcome store writer)
    : store.log_stream = s.store.log_stream ∧
        (s.writer.pc ≠ .create → (store.log_writers = none ↔ s.store.log_writers = none)) ∧
        (s.writer.pc = .create → (store.log_writers = none
            ↔
          s.store.log_writers = none ∧ (s.store.log_stream = none ∨ outcome = .failed))) := by
  cases h with
  | create hpc houtcome =>
    refine ⟨xgroupCreate_log_stream, fun hne => absurd hpc hne, fun _ => ?_⟩
    rw [xgroupCreate_log_writers]
    simp [houtcome]
  | read hpc | readLost hpc => simp [hpc, LogStore.xreadgroup]
  | insert messages pc hpc => simp [hpc, LogStore.insert]
  | xack messages msg rest hpc => simp [hpc, LogStore.xack]
  | drop messages pc hpc =>
    cases hpc with
    | inl hpc | inr hpc => simp [hpc]
  | goto pc hunstored hmessages hstopped hcreate =>
    refine ⟨rfl, fun _ => Iff.rfl, fun hpc => ?_⟩
    simp [hcreate hpc]

theorem groupReady_writer {outcome : Outcome} (h : runStep s (.writer outcome) = some s')
    : GroupReady s' ↔ GroupReady s ∧ StreamFirst s (.writer outcome) := by
  have hrun := step_writer h
  have hpc := pc_of_run hrun
  obtain ⟨hstream, hlater, hfirst⟩ := (moves_of_run hrun).stores
  unfold GroupReady StreamFirst
  rw [hstream]
  by_cases hcreate : s.writer.pc = .create
  . rw [ne_eq s'.store.log_writers, hfirst hcreate]
    simp only [hpc, hcreate, ne_eq, not_true_eq_false, not_false_eq_true, forall_true_left,
      IsEmpty.forall_iff, true_and]
    tauto
  . rw [ne_eq s'.store.log_writers, hlater hcreate]
    simp [hpc, hcreate]

theorem groupReady_push {path user_id status_code latency_ms : Bytes}
    (h : runStep s (.push path user_id status_code latency_ms) = some s')
    : GroupReady s' ↔ GroupReady s ∧ StreamFirst s (.push path user_id status_code latency_ms) := by
  simp only [runStep, step, Option.some.injEq] at h
  rw [← h]
  simp only [GroupReady, StreamFirst, LogStore.xadd]
  cases s.store.log_stream with
  | none => simp
  | some entries => simp

theorem groupReady_step {l : Label} (h : runStep s l = some s')
    : GroupReady s' ↔ GroupReady s ∧ StreamFirst s l := by
  cases l with
  | writer outcome => exact groupReady_writer h
  | start => contradiction
  | stop =>
    simp only [runStep, step, Option.some.injEq] at h
    rw [← h]
    simp [GroupReady, StreamFirst]
  | crash => contradiction
  | push path user_id status_code latency_ms => exact groupReady_push h
  | trim n =>
    simp only [runStep, step, Option.some.injEq] at h
    rw [← h]
    simp [GroupReady, StreamFirst, LogStore.trim]

/--
Whatever Redis holds at the start, the group is ready exactly in the runs that keep the order.
-/
theorem groupReady_iff_streamFirst {store : LogStore} {ls : List Label}
    (h : exec runStep (started store) ls = some s)
    : GroupReady s ↔ Meets runStep StreamFirst (started store) ls := by
  have hstart : GroupReady (started store) := fun hpc => absurd rfl hpc
  rw [iff_meets_of_step runStep StreamFirst (fun _ _ _ hl => groupReady_step hl) h]
  exact and_iff_right hstart

def firstEntry : List Label := [.writer .ok, .push [] [] [] []]

/--
The stream of an earlier process: the group is there for whatever is pushed.
-/
theorem groupReady_iff_streamFirst_oldStream
    : ∃ s, exec runStep (started ⟨some [], 7, none, []⟩) firstEntry = some s ∧ GroupReady s := by
  have hend := Option.eq_some_of_isSome
    (o := exec runStep (started ⟨some [], 7, none, []⟩) firstEntry) (by decide)
  exact ⟨_, hend, (groupReady_iff_streamFirst hend).mpr (by decide)⟩

theorem not_groupReady_freshRedis
    : ∃ s, exec runStep (started ⟨none, 0, none, []⟩) firstEntry = some s ∧ ¬GroupReady s := by
  have hend := Option.eq_some_of_isSome
    (o := exec runStep (started ⟨none, 0, none, []⟩) firstEntry) (by decide)
  exact ⟨_, hend, by decide⟩

end StreamWriter
end LFGateway
