import LFGateway.Foundation.ListSet
import LFGateway.Stream.Delivery

/-!
This module contains what any number of writers that share the group and its one consumer name keep:
an entry is in at most one batch or row, whatever fails between the calls.
-/

namespace LFGateway
namespace StreamWriter

open Foundation

def Delivered (store : LogStore) (entry : Entry) : Prop :=
  ∃ group, store.log_writers = some group ∧ entry.id ≤ group.lastDelivered

section Run

variable {store store' : LogStore} {writer writer' : Writer Entry} {outcome : Outcome} {entry : Entry}

theorem Delivered.not_undelivered (h : Delivered store entry) : ∀ e ∈ store.undelivered, entry.id < e.id := by
  obtain ⟨group, hgroup, hdelivered⟩ := h
  intro e he
  have hlater := ((LogStore.mem_undelivered hgroup).mp he).2
  omega

theorem Delivered.run (h : Delivered store entry)
    (hrun : run store writer outcome = some (store', writer')) : Delivered store' entry := by
  have hmoves := moves_of_run (s := ⟨store, writer⟩) hrun
  obtain ⟨group, hgroup, hdelivered⟩ := h
  cases hmoves with
  | create =>
    rw [LogStore.xgroupCreate_of_group (by simp [hgroup])]
    exact ⟨group, hgroup, hdelivered⟩
  | read | readLost => exact (delivered_xreadgroup hgroup hdelivered).1
  | insert => exact ⟨group, hgroup, hdelivered⟩
  | xack messages msg rest =>
    exact ⟨{ group with pending := group.pending.filter fun id => id ≠ msg.id },
      by simp [LogStore.xack, hgroup], hdelivered⟩
  | drop => exact ⟨group, hgroup, hdelivered⟩
  | goto => exact ⟨group, hgroup, hdelivered⟩

theorem stream_of_run (hrun : run store writer outcome = some (store', writer'))
    : store'.log_stream = store.log_stream ∧ store'.lastId = store.lastId := by
  have hmoves := moves_of_run (s := ⟨store, writer⟩) hrun
  cases hmoves with
  | create =>
    unfold LogStore.xgroupCreate
    split <;> exact ⟨rfl, rfl⟩
  | read | readLost | insert | xack | drop | goto => exact ⟨rfl, rfl⟩

theorem delivered_of_mem_xreadgroup (hsorted : store.entries.Pairwise fun a b => a.id < b.id)
    (h : entry ∈ store.xreadgroup.1) : Delivered store.xreadgroup.2 entry := by
  have hundelivered : entry ∈ store.undelivered := List.mem_of_mem_take h
  cases hgroup : store.log_writers with
  | none => simp [LogStore.undelivered, hgroup] at hundelivered
  | some group =>
    refine ⟨_, LogStore.xreadgroup_group hgroup, ?_⟩
    have hbatch : store.xreadgroup.1.Pairwise fun a b => a.id ≤ b.id :=
      ((LogStore.undelivered_sorted hsorted).imp Nat.le_of_lt).sublist (List.take_sublist _ _)
    cases hlast : store.xreadgroup.1.getLast? with
    | none =>
      rw [List.getLast?_eq_none_iff] at hlast
      simp [hlast] at h
    | some last =>
      rw [LogStore.deliver_of_getLast? hlast]
      obtain ⟨before, hbefore⟩ := List.getLast?_eq_some_iff.mp hlast
      rw [hbefore, List.mem_append, List.mem_singleton] at h
      rw [hbefore, List.pairwise_append] at hbatch
      cases h with
      | inl hmem => exact hbatch.2.2 entry hmem last List.mem_cons_self
      | inr heq => rw [heq]

theorem held_of_run (hrun : run store writer outcome = some (store', writer'))
    (hread : writer.pc ≠ .read)
    : (writer'.pc.unstored ++ store'.api_call_logs).Subperm
        (writer.pc.unstored ++ store.api_call_logs) := by
  have hmoves := moves_of_run (s := ⟨store, writer⟩) hrun
  cases hmoves with
  | create hpc =>
    dsimp only at hpc ⊢
    have hlogs : store.xgroupCreate.api_call_logs = store.api_call_logs := by
      unfold LogStore.xgroupCreate
      split <;> rfl
    rw [hpc, hlogs]
    exact List.Subperm.refl _
  | read hpc => exact absurd hpc hread
  | readLost hpc => exact absurd hpc hread
  | insert messages pc hpc hunstored =>
    dsimp only at hpc ⊢
    rw [hpc, hunstored, List.nil_append]
    have hperm : (store.api_call_logs ++ messages).Perm (messages ++ store.api_call_logs) :=
      List.perm_append_comm
    exact hperm.subperm
  | xack messages msg rest hpc =>
    dsimp only at hpc ⊢
    rw [hpc]
    exact List.Subperm.refl _
  | drop messages pc hpc houtcome =>
    subst houtcome
    have hnil : pc.unstored = [] := by
      cases hpc with
      | inl hpc | inr hpc =>
        dsimp only at hpc
        simp only [run, Effects.run, hpc, Option.some.injEq, Prod.mk.injEq, Writer.mk.injEq] at hrun
        rw [← hrun.2.1]
        rfl
    rw [hnil]
    exact (List.sublist_append_right _ _).subperm
  | goto pc hunstored =>
    dsimp only at hunstored ⊢
    rw [hunstored]

theorem held_of_read (hrun : run store writer outcome = some (store', writer'))
    (hread : writer.pc = .read)
    : store'.api_call_logs = store.api_call_logs ∧
        (writer'.pc.unstored = [] ∨
          writer'.pc.unstored = store.xreadgroup.1 ∧ store' = store.xreadgroup.2) := by
  simp only [run, Effects.run, stored, hread] at hrun
  split at hrun
  all_goals
    first
      | contradiction
      | simp only [Option.some.injEq, Prod.mk.injEq] at hrun
        obtain ⟨rfl, rfl⟩ := hrun
  . refine ⟨rfl, ?_⟩
    dsimp only
    split
    . exact .inl rfl
    . exact .inr ⟨rfl, rfl⟩
  . exact ⟨rfl, .inl rfl⟩
  . exact ⟨rfl, .inl rfl⟩

theorem ack_of_run (hrun : run store writer outcome = some (store', writer'))
    {messages rest : List Entry} (hpc : writer'.pc = .ack messages rest)
    : Cluster.reports writer outcome = rest ∨
        ∃ msg, writer.pc = .ack messages (msg :: rest) := by
  simp only [run, Effects.run, stored, ↓reduceIte] at hrun
  split at hrun
  all_goals
    first
      | contradiction
      | simp only [Option.some.injEq, Prod.mk.injEq] at hrun
        obtain ⟨_, rfl⟩ := hrun
        simp only at hpc
  all_goals try contradiction
  . split at hpc <;> contradiction
  . split at hpc <;> contradiction
  . next hquery _ =>
    left
    rw [Pc.ack.injEq] at hpc
    simp [Cluster.reports, hquery, hpc.2]
  . next msg rest' hack _ =>
    right
    rw [Pc.ack.injEq] at hpc
    exact ⟨msg, by rw [hack, hpc.1, hpc.2]⟩
  . next msg rest' hack _ _ =>
    right
    rw [Pc.ack.injEq] at hpc
    exact ⟨msg, by rw [hack, hpc.1, hpc.2]⟩

end Run

namespace Cluster

variable {s s' : Cluster}

def held (s : Cluster) : List Entry :=
  (s.writers.flatMap fun writer => writer.pc.unstored) ++ s.store.api_call_logs

structure Inv (s : Cluster) : Prop where
  sorted : s.store.entries.Pairwise fun a b => a.id < b.id
  bounded : ∀ entry ∈ s.store.entries, entry.id ≤ s.store.lastId
  once : (s.held.map fun entry => entry.id).Nodup
  delivered : ∀ entry ∈ s.held, Delivered s.store entry
  reported : ∀ writer ∈ s.writers, ∀ messages rest, writer.pc = .ack messages rest →
    ∀ msg ∈ rest, msg ∈ s.reported

theorem inv_init : Inv init := by
  constructor <;> simp [init, StreamWriter.init, held, LogStore.entries]

theorem Inv.of_held (hinv : Inv s) {store : LogStore} {writers : List (Writer Entry)} {reported : List Entry}
    (hentries : store.entries.Sublist s.store.entries) (hlast : store.lastId = s.store.lastId)
    (hdelivered : ∀ entry, Delivered s.store entry → Delivered store entry)
    (hheld : (held ⟨store, writers, reported⟩).Subperm s.held)
    (hreported : ∀ writer ∈ writers, ∀ messages rest, writer.pc = .ack messages rest →
      ∀ msg ∈ rest, msg ∈ reported) : Inv ⟨store, writers, reported⟩ where
  sorted := hinv.sorted.sublist hentries
  bounded := by
    intro entry hentry
    dsimp only
    rw [hlast]
    exact hinv.bounded entry (hentries.subset hentry)
  once := by
    obtain ⟨l, hperm, hsub⟩ := hheld
    rw [← (hperm.map _).nodup_iff]
    exact hinv.once.sublist (hsub.map _)
  delivered := fun entry hentry => hdelivered entry (hinv.delivered entry (hheld.subset hentry))
  reported := hreported

theorem Inv.of_writers (hinv : Inv s) {writers : List (Writer Entry)}
    (hheld : (held { s with writers }).Subperm s.held)
    (hwriters : ∀ writer ∈ writers, writer.pc = .create ∨ writer.pc = .stopped ∨
      ∃ writer' ∈ s.writers, writer.pc = writer'.pc) : Inv { s with writers } := by
  apply hinv.of_held (List.Sublist.refl _) rfl (fun _ hdelivered => hdelivered) hheld
  intro writer hwriter messages rest hpc
  rcases hwriters writer hwriter with h | h | ⟨writer', hmem, h⟩
  . rw [h] at hpc
    contradiction
  . rw [h] at hpc
    contradiction
  . rw [h] at hpc
    exact hinv.reported writer' hmem messages rest hpc

theorem Inv.read (hinv : Inv s) {i : Nat} {writer writer' : Writer Entry} {reported : List Entry}
    (hi : s.writers[i]? = some writer) (hpc : writer.pc = .read)
    (hbatch : writer'.pc.unstored = s.store.xreadgroup.1)
    (hreported : ∀ writer'' ∈ s.writers.set i writer', ∀ messages rest,
      writer''.pc = .ack messages rest → ∀ msg ∈ rest, msg ∈ reported)
    : Inv ⟨s.store.xreadgroup.2, s.writers.set i writer', reported⟩ := by
  have hheld : (held ⟨s.store.xreadgroup.2, s.writers.set i writer', reported⟩).Perm
      (s.store.xreadgroup.1 ++ s.held) := by
    have hperm := flatMap_set_perm (fun writer => writer.pc.unstored) (b := writer') hi
    rw [hbatch, hpc] at hperm
    simp only [Pc.unstored, List.append_nil] at hperm
    unfold held
    rw [← List.append_assoc]
    exact (hperm.trans List.perm_append_comm).append_right _
  have hnew : s.store.xreadgroup.1.Pairwise fun a b => a.id < b.id :=
    (LogStore.undelivered_sorted hinv.sorted).sublist (List.take_sublist _ _)
  constructor
  . exact hinv.sorted
  . exact hinv.bounded
  . rw [(hheld.map _).nodup_iff, List.map_append, List.nodup_append]
    refine ⟨?_, hinv.once, ?_⟩
    . exact List.pairwise_map.mpr (hnew.imp Nat.ne_of_lt)
    . intro id hid id' hid' heq
      obtain ⟨entry, hentry, rfl⟩ := List.mem_map.mp hid
      obtain ⟨entry', hentry', rfl⟩ := List.mem_map.mp hid'
      have hlt := (hinv.delivered entry' hentry').not_undelivered entry (List.mem_of_mem_take hentry)
      omega
  . intro entry hentry
    rw [hheld.mem_iff, List.mem_append] at hentry
    cases hentry with
    | inl hread => exact delivered_of_mem_xreadgroup hinv.sorted hread
    | inr hold =>
      obtain ⟨group, hgroup, hdelivered⟩ := hinv.delivered entry hold
      exact (delivered_xreadgroup hgroup hdelivered).1
  . exact hreported

theorem Inv.reported_of_run (hinv : Inv s) {i : Nat} {outcome : Outcome} {writer writer' : Writer Entry}
    {store : LogStore} (hi : s.writers[i]? = some writer)
    (hrun : run s.store writer outcome = some (store, writer'))
    : ∀ writer'' ∈ s.writers.set i writer', ∀ messages rest, writer''.pc = .ack messages rest →
        ∀ msg ∈ rest, msg ∈ s.reported ++ reports writer outcome := by
  intro writer'' hmem messages rest hpc msg hmsg
  rw [List.mem_append]
  cases List.mem_or_eq_of_mem_set hmem with
  | inl hold => exact .inl (hinv.reported writer'' hold messages rest hpc msg hmsg)
  | inr heq =>
    subst heq
    cases ack_of_run hrun hpc with
    | inl hinsert =>
      rw [hinsert]
      exact .inr hmsg
    | inr hack =>
      obtain ⟨first, hfirst⟩ := hack
      left
      exact hinv.reported writer (List.mem_of_getElem? hi) messages (first :: rest) hfirst msg
        (List.mem_cons_of_mem first hmsg)

theorem Inv.writer (hinv : Inv s) {i : Nat} {outcome : Outcome} {writer writer' : Writer Entry}
    {store : LogStore} (hi : s.writers[i]? = some writer)
    (hrun : run s.store writer outcome = some (store, writer'))
    : Inv ⟨store, s.writers.set i writer', s.reported ++ reports writer outcome⟩ := by
  have hreported := hinv.reported_of_run hi hrun
  obtain ⟨hstream, hlast⟩ := stream_of_run hrun
  have hentries : store.entries.Sublist s.store.entries := by
    unfold LogStore.entries
    rw [hstream]
  have hkept : (writer'.pc.unstored ++ store.api_call_logs).Subperm
        (writer.pc.unstored ++ s.store.api_call_logs)
      → Inv ⟨store, s.writers.set i writer', s.reported ++ reports writer outcome⟩ := by
    intro hsub
    exact hinv.of_held hentries hlast (fun _ hdelivered => hdelivered.run hrun)
      (flatMap_set_subperm _ hi hsub) hreported
  by_cases hread : writer.pc = .read
  . obtain ⟨hlogs, hempty | ⟨hbatch, rfl⟩⟩ := held_of_read hrun hread
    . apply hkept
      rw [hempty, hlogs]
      exact (List.sublist_append_right _ _).subperm
    . exact hinv.read hi hread hbatch hreported
  . exact hkept (held_of_run hrun hread)

theorem Inv.push (hinv : Inv s) (path user_id status_code latency_ms : Bytes)
    : Inv { s with store := s.store.xadd path user_id status_code latency_ms } where
  sorted := sorted_xadd _ _ _ _ hinv.sorted hinv.bounded
  bounded := bounded_xadd _ _ _ _ hinv.bounded
  once := hinv.once
  delivered := hinv.delivered
  reported := hinv.reported

theorem Inv.step (hinv : Inv s) {l : Label} (h : step s l = some s') : Inv s' := by
  cases l with
  | writer i outcome =>
    simp only [Cluster.step] at h
    split at h
    . contradiction
    . next writer hi =>
      split at h
      . next store writer' hrun =>
        rw [Option.some.injEq] at h
        rw [← h]
        exact hinv.writer hi hrun
      . contradiction
  | start =>
    simp only [Cluster.step, Option.some.injEq] at h
    rw [← h]
    apply hinv.of_writers
    . simp [held, Pc.unstored, List.Subperm.refl]
    . intro writer hwriter
      rw [List.mem_append, List.mem_singleton] at hwriter
      cases hwriter with
      | inl hold => exact .inr (.inr ⟨writer, hold, rfl⟩)
      | inr heq => exact .inl (by rw [heq])
  | stop i =>
    simp only [Cluster.step] at h
    split at h
    . contradiction
    . next writer hi =>
      rw [Option.some.injEq] at h
      rw [← h]
      apply hinv.of_writers
      . exact flatMap_set_subperm _ hi (List.Subperm.refl _)
      . intro writer' hwriter'
        right
        right
        cases List.mem_or_eq_of_mem_set hwriter' with
        | inl hold => exact ⟨writer', hold, rfl⟩
        | inr heq => exact ⟨writer, List.mem_of_getElem? hi, by rw [heq]⟩
  | crash i =>
    simp only [Cluster.step] at h
    split at h
    . contradiction
    . next writer hi =>
      rw [Option.some.injEq] at h
      rw [← h]
      apply hinv.of_writers
      . exact flatMap_set_subperm _ hi (List.sublist_append_right _ _).subperm
      . intro writer' hwriter'
        right
        cases List.mem_or_eq_of_mem_set hwriter' with
        | inl hold => exact .inr ⟨writer', hold, rfl⟩
        | inr heq => exact .inl (by rw [heq])
  | push path user_id status_code latency_ms =>
    simp only [Cluster.step, Option.some.injEq] at h
    rw [← h]
    exact hinv.push path user_id status_code latency_ms
  | trim n =>
    simp only [Cluster.step, Option.some.injEq] at h
    rw [← h]
    have hentries : (s.store.trim n).entries.Sublist s.store.entries := by
      rw [entries_trim]
      exact List.drop_sublist _ _
    exact hinv.of_held hentries rfl (fun _ hdelivered => hdelivered) (List.Subperm.refl _)
      hinv.reported

/--
However the steps of the writers come between each other and wherever they fail, an entry gets at
most one row, and it is acknowledged only after an `INSERT` with it reported success.
-/
theorem stored_once_and_acked_after {ls : List Label} (h : exec Cluster.step init ls = some s)
    : StoredOnce s ∧ AckedAfterStored s := by
  have hinv : Inv s := exec_invariant Cluster.step (fun _ _ _ hinv hl => hinv.step hl) inv_init h
  constructor
  . have hrows : s.store.api_call_logs.Sublist s.held := List.sublist_append_right _ _
    exact hinv.once.sublist (hrows.map _)
  . intro writer hwriter msg hmsg
    unfold acknowledges at hmsg
    split at hmsg
    . next messages first rest hpc =>
      rw [Option.some.injEq] at hmsg
      rw [← hmsg]
      exact hinv.reported writer hwriter messages (first :: rest) hpc first List.mem_cons_self
    . contradiction

/--
Two processes read one entry each. The first one's `INSERT` is committed but reported as failed, and
the process starts again; the second one inserts and acknowledges.
-/
def lostInsert : List Label := [
  .push [] [] [] [], .start, .writer 0 .ok, .writer 0 .ok, .writer 0 .ok, .push [] [] [] [], .start,
  .writer 1 .ok, .writer 1 .ok, .writer 1 .ok, .writer 0 .ok, .writer 0 .lost, .crash 0, .start,
  .writer 1 .ok, .writer 1 .ok, .writer 2 .ok, .writer 2 .ok, .writer 2 .ok
]

theorem stored_once_and_acked_after_lostInsert
    : ∃ s, exec Cluster.step init lostInsert = some s ∧ s.store.api_call_logs.length = 2 ∧
        s.reported.length = 1 ∧ StoredOnce s ∧ AckedAfterStored s := by
  have hend := Option.eq_some_of_isSome (o := exec Cluster.step init lostInsert) (by decide)
  exact ⟨_, hend, by decide, by decide, stored_once_and_acked_after hend⟩

end Cluster
end StreamWriter
end LFGateway
