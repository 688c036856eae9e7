import LFGateway.Stream.Impl

/-!
This module contains what a run of the writer keeps as long as no batch is dropped: every entry is
stored, about to be stored, or new to the group, and what is new to the group will be read.
-/

namespace LFGateway

open Foundation

namespace LogStore

variable {store : LogStore} {entry : Entry} {group : Group}

def New (store : LogStore) (entry : Entry) : Prop :=
  ∀ group, store.log_writers = some group → group.lastDelivered < entry.id

theorem mem_undelivered (hgroup : store.log_writers = some group)
    : entry ∈ store.undelivered ↔ entry ∈ store.entries ∧ group.lastDelivered < entry.id := by
  simp [undelivered, hgroup]

theorem new_of_group (hgroup : store.log_writers = some group)
    : store.New entry ↔ group.lastDelivered < entry.id := by
  simp [New, hgroup]

theorem deliver_nil : group.deliver [] = group := by
  simp [Group.deliver]

theorem deliver_of_getLast? {batch : List Entry} {last : Entry} (hlast : batch.getLast? = some last)
    : (group.deliver batch).lastDelivered = last.id := by
  simp [Group.deliver, hlast]

theorem xreadgroup_of_undelivered_nil (h : store.undelivered = []) : store.xreadgroup = ([], store) := by
  unfold xreadgroup
  rw [h, List.take_nil]
  simp [deliver_nil]

theorem xreadgroup_group (hgroup : store.log_writers = some group)
    : store.xreadgroup.2.log_writers = some (group.deliver store.xreadgroup.1) := by
  simp [xreadgroup, hgroup]

theorem undelivered_sorted (hsorted : store.entries.Pairwise fun a b => a.id < b.id)
    : store.undelivered.Pairwise fun a b => a.id < b.id := by
  unfold undelivered
  split
  . exact hsorted.filter _
  . exact .nil

theorem new_xreadgroup (hsorted : store.entries.Pairwise fun a b => a.id < b.id)
    (hgroup : store.log_writers = some group) (hmem : entry ∈ store.entries)
    (hnew : store.New entry) : entry ∈ store.xreadgroup.1 ∨ store.xreadgroup.2.New entry := by
  have hundelivered : entry ∈ store.undelivered := by
    rw [mem_undelivered hgroup]
    exact ⟨hmem, (new_of_group hgroup).mp hnew⟩
  rw [new_of_group (xreadgroup_group hgroup)]
  cases hlast : store.xreadgroup.1.getLast? with
  | none =>
    right
    rw [List.getLast?_eq_none_iff] at hlast
    rw [hlast, deliver_nil]
    exact (new_of_group hgroup).mp hnew
  | some last =>
    rw [deliver_of_getLast? hlast]
    have hparts := undelivered_sorted hsorted
    rw [← List.take_append_drop 10 store.undelivered] at hundelivered hparts
    rw [List.mem_append] at hundelivered
    cases hundelivered with
    | inl htaken => exact .inl htaken
    | inr hrest =>
      right
      exact (List.pairwise_append.mp hparts).2.2 last (List.mem_of_getLast? hlast) entry hrest

theorem undelivered_xreadgroup_lt (hgroup : store.log_writers = some group)
    (hne : store.undelivered ≠ [])
    : store.xreadgroup.2.undelivered.length < store.undelivered.length := by
  cases hlast : store.xreadgroup.1.getLast? with
  | none =>
    rw [List.getLast?_eq_none_iff] at hlast
    simp [xreadgroup, hne] at hlast
  | some last =>
    have hmem : last ∈ store.undelivered := List.mem_of_mem_take (List.mem_of_getLast? hlast)
    have hafter := ((mem_undelivered hgroup).mp hmem).2
    have hleft : store.xreadgroup.2.undelivered
        = store.undelivered.filter fun entry => last.id < entry.id := by
      unfold undelivered
      rw [xreadgroup_group hgroup, hgroup]
      dsimp only
      rw [deliver_of_getLast? hlast, List.filter_filter]
      apply List.filter_congr
      intro entry _
      rw [Bool.eq_iff_iff]
      simp only [Bool.and_eq_true, decide_eq_true_eq]
      omega
    rw [hleft]
    apply List.length_filter_lt_length_iff_exists.mpr
    exact ⟨last, hmem, by simp⟩

end LogStore

namespace StreamWriter

variable {s s' s'' : State} {entry : Entry}

structure Inv (s : State) : Prop where
  sorted : s.store.entries.Pairwise fun a b => a.id < b.id
  positive : ∀ entry ∈ s.store.entries, 0 < entry.id
  bounded : ∀ entry ∈ s.store.entries, entry.id ≤ s.store.lastId
  delivered : ∀ group, s.store.log_writers = some group → group.lastDelivered ≤ s.store.lastId
  grouped : s.writer.pc ≠ .stopped → s.writer.pc ≠ .create → s.store.log_writers ≠ none
  stored : s.writer.pc.unstored = [] →
    ∀ entry ∈ s.writer.pc.messages, entry ∈ s.store.api_call_logs
  kept : ∀ entry ∈ s.store.entries,
    entry ∈ s.store.api_call_logs ∨ entry ∈ s.writer.pc.unstored ∨ s.store.New entry

theorem inv_init : Inv init := by
  constructor <;> simp [init, LogStore.entries, Pc.messages]

theorem Inv.xgroupCreate (hinv : Inv s) (hpc : s.writer.pc = .create) {pc : Pc Entry}
    (hpc' : pc.unstored = [] ∧ pc.messages = [])
    (hsafe : s.store.log_writers ≠ none ∨ s.store.log_stream ≠ none)
    : Inv ⟨s.store.xgroupCreate, { s.writer with pc }⟩ := by
  obtain ⟨store, writer⟩ := s
  obtain ⟨log_stream, lastId, log_writers, api_call_logs⟩ := store
  cases log_writers with
  | some group =>
    have hsame : LogStore.xgroupCreate ⟨log_stream, lastId, some group, api_call_logs⟩
        = ⟨log_stream, lastId, some group, api_call_logs⟩ := by
      cases log_stream <;> rfl
    dsimp only
    rw [hsame]
    constructor
    . exact hinv.sorted
    . exact hinv.positive
    . exact hinv.bounded
    . exact hinv.delivered
    . simp
    . simp [hpc'.2]
    . have hkept := hinv.kept
      rw [hpc] at hkept
      rw [hpc'.1]
      exact hkept
  | none =>
    cases log_stream with
    | none => simp at hsafe
    | some entries =>
      constructor
      . exact hinv.sorted
      . exact hinv.positive
      . exact hinv.bounded
      . simp [LogStore.xgroupCreate]
      . simp [LogStore.xgroupCreate]
      . simp [hpc'.2]
      . intro entry hentry
        right
        right
        intro group hgroup
        simp only [LogStore.xgroupCreate, Option.some.injEq] at hgroup
        rw [← hgroup]
        exact hinv.positive entry hentry

theorem Inv.goto (hinv : Inv s) {writer : Writer Entry} (hunstored : writer.pc.unstored = s.writer.pc.unstored)
    (hmessages : ∀ entry ∈ writer.pc.messages, entry ∈ s.writer.pc.messages)
    (hgrouped : writer.pc ≠ .stopped → writer.pc ≠ .create → s.store.log_writers ≠ none)
    : Inv ⟨s.store, writer⟩ where
  sorted := hinv.sorted
  positive := hinv.positive
  bounded := hinv.bounded
  delivered := hinv.delivered
  grouped := hgrouped
  stored := by
    intro hnil entry hentry
    dsimp only at hnil hentry
    rw [hunstored] at hnil
    exact hinv.stored hnil entry (hmessages entry hentry)
  kept := by
    dsimp only
    rw [hunstored]
    exact hinv.kept

theorem Inv.read (hinv : Inv s) (hpc : s.writer.pc = .read)
    : Inv ⟨s.store.xreadgroup.2, { s.writer with
      pc := if s.store.xreadgroup.1 = [] then .sleep else .acquire s.store.xreadgroup.1 }⟩ := by
  have hgrouped := hinv.grouped (by simp [hpc]) (by simp [hpc])
  obtain ⟨group, hgroup⟩ := Option.ne_none_iff_exists'.mp hgrouped
  have hunstored : (if s.store.xreadgroup.1 = [] then Pc.sleep else .acquire s.store.xreadgroup.1).unstored
      = s.store.xreadgroup.1 := by
    split
    . next hnil =>
      rw [hnil]
      rfl
    . rfl
  constructor
  . exact hinv.sorted
  . exact hinv.positive
  . exact hinv.bounded
  . intro group' hgroup'
    dsimp only at hgroup' ⊢
    rw [LogStore.xreadgroup_group hgroup, Option.some.injEq] at hgroup'
    rw [← hgroup']
    cases hlast : s.store.xreadgroup.1.getLast? with
    | none =>
      rw [List.getLast?_eq_none_iff] at hlast
      rw [hlast, LogStore.deliver_nil]
      exact hinv.delivered group hgroup
    | some last =>
      rw [LogStore.deliver_of_getLast? hlast]
      have hmem := List.mem_of_mem_take (List.mem_of_getLast? hlast)
      exact hinv.bounded last ((LogStore.mem_undelivered hgroup).mp hmem).1
  . intro _ _
    rw [LogStore.xreadgroup_group hgroup]
    simp
  . intro hnil entry hentry
    dsimp only at hnil hentry
    rw [hunstored] at hnil
    rw [if_pos hnil] at hentry
    simp [Pc.messages] at hentry
  . intro entry hentry
    dsimp only
    rw [hunstored]
    rcases hinv.kept entry hentry with hlogs | hmessages | hnew
    . exact .inl hlogs
    . rw [hpc] at hmessages
      simp [Pc.unstored] at hmessages
    . exact .inr (LogStore.new_xreadgroup hinv.sorted hgroup hentry hnew)

theorem Inv.insert (hinv : Inv s) {messages : List Entry} (hpc : s.writer.pc = .query messages) {pc : Pc Entry}
    (hunstored : pc.unstored = []) (hmessages : pc.messages = messages)
    : Inv ⟨s.store.insert messages, { s.writer with pc }⟩ where
  sorted := hinv.sorted
  positive := hinv.positive
  bounded := hinv.bounded
  delivered := hinv.delivered
  grouped := by
    intro _ _
    exact hinv.grouped (by simp [hpc]) (by simp [hpc])
  stored := by
    intro _ entry hentry
    dsimp only at hentry
    rw [hmessages] at hentry
    exact List.mem_append_right _ hentry
  kept := by
    intro entry hentry
    dsimp only
    rw [hunstored]
    rcases hinv.kept entry hentry with hlogs | hheld | hnew
    . exact .inl (List.mem_append_left _ hlogs)
    . rw [hpc] at hheld
      exact .inl (List.mem_append_right _ hheld)
    . exact .inr (.inr hnew)

theorem Inv.xack (hinv : Inv s) {id : Nat} {writer : Writer Entry}
    (hunstored : writer.pc.unstored = s.writer.pc.unstored)
    (hmessages : ∀ entry ∈ writer.pc.messages, entry ∈ s.writer.pc.messages)
    (hrunning : s.writer.pc ≠ .stopped ∧ s.writer.pc ≠ .create)
    : Inv ⟨s.store.xack id, writer⟩ := by
  have hgrouped := hinv.grouped hrunning.1 hrunning.2
  obtain ⟨group, hgroup⟩ := Option.ne_none_iff_exists'.mp hgrouped
  have hgoto := hinv.goto hunstored hmessages (fun _ _ => hgrouped)
  constructor
  . exact hgoto.sorted
  . exact hgoto.positive
  . exact hgoto.bounded
  . intro group' hgroup'
    simp only [LogStore.xack, hgroup, Option.map_some, Option.some.injEq] at hgroup'
    rw [← hgroup']
    exact hinv.delivered group hgroup
  . simp [LogStore.xack, hgroup]
  . exact hgoto.stored
  . intro entry hentry
    rcases hgoto.kept entry hentry with hlogs | hheld | hnew
    . exact .inl hlogs
    . exact .inr (.inl hheld)
    . right
      right
      intro group' hgroup'
      simp only [LogStore.xack, hgroup, Option.map_some, Option.some.injEq] at hgroup'
      rw [← hgroup']
      exact hnew group hgroup

inductive Moves (s : State) (outcome : Outcome) : LogStore → Writer Entry → Prop where
  | create (hpc : s.writer.pc = .create) (houtcome : outcome ≠ .failed)
    : Moves s outcome s.store.xgroupCreate ⟨.loop, s.writer.running_⟩
  | read (hpc : s.writer.pc = .read) (houtcome : outcome = .ok)
    : Moves s outcome s.store.xreadgroup.2
        ⟨if s.store.xreadgroup.1 = [] then .sleep else .acquire s.store.xreadgroup.1,
          s.writer.running_⟩
  | readLost (hpc : s.writer.pc = .read) (houtcome : outcome = .lost)
    : Moves s outcome s.store.xreadgroup.2 ⟨.sleep, s.writer.running_⟩
  | insert (messages : List Entry) (pc : Pc Entry) (hpc : s.writer.pc = .query messages)
      (hunstored : pc.unstored = []) (hmessages : pc.messages = messages)
    : Moves s outcome (s.store.insert messages) ⟨pc, s.writer.running_⟩
  | xack (messages : List Entry) (msg : Entry) (rest : List Entry)
      (hpc : s.writer.pc = .ack messages (msg :: rest))
    : Moves s outcome (s.store.xack msg.id) ⟨.ack messages rest, s.writer.running_⟩
  /-- the batch is dropped before it was inserted -/
  | drop (messages : List Entry) (pc : Pc Entry)
      (hpc : s.writer.pc = .acquire messages ∨ s.writer.pc = .query messages)
      (houtcome : outcome = .failed) (hmessages : ∀ entry ∈ pc.messages, entry ∈ messages)
    : Moves s outcome s.store ⟨pc, s.writer.running_⟩
  | goto (pc : Pc Entry) (hunstored : pc.unstored = s.writer.pc.unstored)
      (hmessages : ∀ entry ∈ pc.messages, entry ∈ s.writer.pc.messages)
      (hstopped : s.writer.pc ≠ .stopped) (hcreate : s.writer.pc = .create → outcome = .failed)
    : Moves s outcome s.store ⟨pc, s.writer.running_⟩

theorem step_writer {outcome : Outcome} (h : StreamWriter.step s (.writer outcome) = some s')
    : StreamWriter.run s.store s.writer outcome = some (s'.store, s'.writer) := by
  simp only [StreamWriter.step] at h
  split at h
  . next store writer hrun =>
    rw [Option.some.injEq] at h
    rw [← h]
    exact hrun
  . contradiction

theorem moves_of_run {outcome : Outcome} {store : LogStore} {writer : Writer Entry}
    (h : StreamWriter.run s.store s.writer outcome = some (store, writer))
    : Moves s outcome store writer := by
  cases hpc : s.writer.pc with
  | stopped => simp [StreamWriter.run, Effects.run, hpc] at h
  | create =>
    cases outcome with
    | ok | lost =>
      simp only [StreamWriter.run, Effects.run, stored, hpc, Option.some.injEq, Prod.mk.injEq] at h
      obtain ⟨rfl, rfl⟩ := h
      exact .create hpc (by simp)
    | failed =>
      simp only [StreamWriter.run, Effects.run, hpc, Option.some.injEq, Prod.mk.injEq] at h
      obtain ⟨rfl, rfl⟩ := h
      apply Moves.goto <;> simp [hpc, Pc.unstored, Pc.messages]
  | loop =>
    cases outcome with
    | failed | lost => simp [StreamWriter.run, Effects.run, hpc] at h
    | ok =>
      simp only [StreamWriter.run, Effects.run, hpc, Option.some.injEq, Prod.mk.injEq] at h
      obtain ⟨rfl, rfl⟩ := h
      split <;> apply Moves.goto <;> simp [hpc, Pc.unstored, Pc.messages]
  | read =>
    cases outcome with
    | ok =>
      simp only [StreamWriter.run, Effects.run, stored, hpc, Option.some.injEq, Prod.mk.injEq] at h
      obtain ⟨rfl, rfl⟩ := h
      exact .read hpc rfl
    | failed =>
      simp only [StreamWriter.run, Effects.run, hpc, Option.some.injEq, Prod.mk.injEq] at h
      obtain ⟨rfl, rfl⟩ := h
      apply Moves.goto <;> simp [hpc, Pc.unstored, Pc.messages]
    | lost =>
      simp only [StreamWriter.run, Effects.run, stored, hpc, Option.some.injEq, Prod.mk.injEq] at h
      obtain ⟨rfl, rfl⟩ := h
      exact .readLost hpc rfl
  | sleep | caught | release messages =>
    cases outcome with
    | failed | lost => simp [StreamWriter.run, Effects.run, hpc] at h
    | ok =>
      simp only [StreamWriter.run, Effects.run, hpc, Option.some.injEq, Prod.mk.injEq] at h
      obtain ⟨rfl, rfl⟩ := h
      apply Moves.goto <;> simp [hpc, Pc.unstored, Pc.messages]
  | acquire messages =>
    cases outcome with
    | failed =>
      simp only [StreamWriter.run, Effects.run, hpc, Option.some.injEq, Prod.mk.injEq] at h
      obtain ⟨rfl, rfl⟩ := h
      exact .drop messages _ (.inl hpc) rfl (by simp [Pc.messages])
    | lost => simp [StreamWriter.run, Effects.run, hpc] at h
    | ok =>
      simp only [StreamWriter.run, Effects.run, hpc, Option.some.injEq, Prod.mk.injEq] at h
      obtain ⟨rfl, rfl⟩ := h
      apply Moves.goto <;> simp [hpc, Pc.unstored, Pc.messages]
  | query messages =>
    cases outcome with
    | failed =>
      simp only [StreamWriter.run, Effects.run, hpc, Option.some.injEq, Prod.mk.injEq] at h
      obtain ⟨rfl, rfl⟩ := h
      exact .drop messages _ (.inr hpc) rfl (by simp [Pc.messages])
    | ok | lost =>
      simp only [StreamWriter.run, Effects.run, stored, hpc, Option.some.injEq, Prod.mk.injEq] at h
      obtain ⟨rfl, rfl⟩ := h
      exact .insert messages _ hpc rfl rfl
  | ack messages rest =>
    cases rest with
    | nil =>
      cases outcome with
      | failed | lost => simp [StreamWriter.run, Effects.run, hpc] at h
      | ok =>
        simp only [StreamWriter.run, Effects.run, hpc, Option.some.injEq, Prod.mk.injEq] at h
        obtain ⟨rfl, rfl⟩ := h
        apply Moves.goto <;> simp [hpc, Pc.unstored, Pc.messages]
    | cons msg rest =>
      cases outcome with
      | failed =>
        simp only [StreamWriter.run, Effects.run, hpc, Option.some.injEq, Prod.mk.injEq] at h
        obtain ⟨rfl, rfl⟩ := h
        apply Moves.goto <;> simp [hpc, Pc.unstored, Pc.messages]
      | ok | lost =>
        simp only [StreamWriter.run, Effects.run, stored, hpc, Option.some.injEq, Prod.mk.injEq] at h
        obtain ⟨rfl, rfl⟩ := h
        exact .xack messages msg rest hpc

theorem Inv.run (hinv : Inv s) {outcome : Outcome} (hsafe : Safe s (.writer outcome))
    {store : LogStore} {writer : Writer Entry} (h : Moves s outcome store writer) : Inv ⟨store, writer⟩ := by
  unfold Safe at hsafe
  cases h with
  | create hpc houtcome =>
    rw [hpc] at hsafe
    exact hinv.xgroupCreate hpc ⟨rfl, rfl⟩ (hsafe.imp_right And.left)
  | read hpc => exact hinv.read hpc
  | readLost hpc houtcome =>
    rw [hpc] at hsafe
    rw [LogStore.xreadgroup_of_undelivered_nil (hsafe houtcome)]
    apply hinv.goto
    . simp [hpc, Pc.unstored]
    . simp [Pc.messages]
    . intro _ _
      exact hinv.grouped (by simp [hpc]) (by simp [hpc])
  | insert messages pc hpc hunstored hmessages => exact hinv.insert hpc hunstored hmessages
  | xack messages msg rest hpc =>
    apply hinv.xack
    . simp [hpc, Pc.unstored]
    . simp [hpc, Pc.messages]
    . simp [hpc]
  | drop messages pc hpc houtcome =>
    cases hpc with
    | inl hpc | inr hpc =>
      rw [hpc] at hsafe
      exact absurd houtcome hsafe
  | goto pc hunstored hmessages hstopped hcreate =>
    apply hinv.goto hunstored hmessages
    intro _ _
    by_cases hpc : s.writer.pc = .create
    . rw [hpc] at hsafe
      cases hsafe with
      | inl hgroup => exact hgroup
      | inr hstream => exact absurd (hcreate hpc) hstream.2
    . exact hinv.grouped hstopped hpc

theorem entries_xadd {store : LogStore} {path user_id status_code latency_ms : Bytes}
    : (store.xadd path user_id status_code latency_ms).entries
        =
      store.entries ++ [⟨store.lastId + 1, path, user_id, status_code, latency_ms⟩] := rfl

theorem sorted_xadd {store : LogStore} (path user_id status_code latency_ms : Bytes)
    (hsorted : store.entries.Pairwise fun a b => a.id < b.id)
    (hbounded : ∀ entry ∈ store.entries, entry.id ≤ store.lastId)
    : (store.xadd path user_id status_code latency_ms).entries.Pairwise fun a b => a.id < b.id := by
  rw [entries_xadd, List.pairwise_append]
  refine ⟨hsorted, List.pairwise_singleton _ _, ?_⟩
  intro a ha b hb
  have hle := hbounded a ha
  rw [List.mem_singleton] at hb
  rw [hb]
  dsimp only
  omega

theorem forall_mem_xadd {store : LogStore} {path user_id status_code latency_ms : Bytes} {P : Entry → Prop}
    : (∀ entry ∈ (store.xadd path user_id status_code latency_ms).entries, P entry)
        ↔
      (∀ entry ∈ store.entries, P entry) ∧
        P ⟨store.lastId + 1, path, user_id, status_code, latency_ms⟩ := by
  rw [entries_xadd, List.forall_mem_append, List.forall_mem_singleton]

theorem bounded_xadd {store : LogStore} (path user_id status_code latency_ms : Bytes)
    (hbounded : ∀ entry ∈ store.entries, entry.id ≤ store.lastId)
    : ∀ entry ∈ (store.xadd path user_id status_code latency_ms).entries,
        entry.id ≤ (store.xadd path user_id status_code latency_ms).lastId := by
  rw [forall_mem_xadd]
  exact ⟨fun entry hentry => Nat.le_succ_of_le (hbounded entry hentry), Nat.le_refl _⟩

theorem Inv.push (hinv : Inv s) (path user_id status_code latency_ms : Bytes)
    : Inv { s with store := s.store.xadd path user_id status_code latency_ms } := by
  constructor
  . exact sorted_xadd _ _ _ _ hinv.sorted hinv.bounded
  . dsimp only
    rw [forall_mem_xadd]
    exact ⟨hinv.positive, Nat.succ_pos _⟩
  . exact bounded_xadd _ _ _ _ hinv.bounded
  . intro group hgroup
    exact Nat.le_succ_of_le (hinv.delivered group hgroup)
  . exact hinv.grouped
  . exact hinv.stored
  . dsimp only
    rw [forall_mem_xadd]
    refine ⟨hinv.kept, ?_⟩
    right
    right
    intro group hgroup
    exact Nat.lt_succ_of_le (hinv.delivered group hgroup)

theorem entries_trim {store : LogStore} {n : Nat} : (store.trim n).entries = store.entries.drop n := by
  unfold LogStore.trim LogStore.entries
  cases store.log_stream <;> simp

theorem Inv.trim (hinv : Inv s) (n : Nat) : Inv { s with store := s.store.trim n } := by
  have hsub : ∀ entry ∈ (s.store.trim n).entries, entry ∈ s.store.entries := by
    intro entry hentry
    rw [entries_trim] at hentry
    exact List.mem_of_mem_drop hentry
  constructor
  . dsimp only
    rw [entries_trim]
    exact hinv.sorted.sublist (List.drop_sublist _ _)
  . exact fun entry hentry => hinv.positive entry (hsub entry hentry)
  . exact fun entry hentry => hinv.bounded entry (hsub entry hentry)
  . exact hinv.delivered
  . exact hinv.grouped
  . exact hinv.stored
  . exact fun entry hentry => hinv.kept entry (hsub entry hentry)

theorem Inv.step (hinv : Inv s) {l : Label} (hsafe : Safe s l) (h : StreamWriter.step s l = some s')
    : Inv s' := by
  cases l with
  | writer outcome => exact hinv.run hsafe (moves_of_run (step_writer h))
  | start =>
    simp only [StreamWriter.step] at h
    split at h
    . next hpc =>
      rw [Option.some.injEq] at h
      rw [← h]
      apply hinv.goto
      . simp [hpc, Pc.unstored]
      . simp [Pc.messages]
      . simp
    . contradiction
  | stop =>
    simp only [StreamWriter.step, Option.some.injEq] at h
    rw [← h]
    exact hinv.goto rfl (fun _ hentry => hentry) hinv.grouped
  | crash =>
    simp only [StreamWriter.step, Option.some.injEq] at h
    rw [← h]
    apply hinv.goto
    . exact Eq.symm hsafe
    . simp [Pc.messages]
    . simp
  | push path user_id status_code latency_ms =>
    simp only [StreamWriter.step, Option.some.injEq] at h
    rw [← h]
    exact hinv.push path user_id status_code latency_ms
  | trim n =>
    simp only [StreamWriter.step, Option.some.injEq] at h
    rw [← h]
    exact hinv.trim n

theorem inv_exec {ls : List Label} (h : exec StreamWriter.step init ls = some s)
    (hsafe : Meets StreamWriter.step Safe init ls) : Inv s :=
  exec_invariant_of_meets StreamWriter.step Safe
    (fun _ _ _ hinv hsafe hl => hinv.step hsafe hl) inv_init hsafe h

end StreamWriter
end LFGateway
