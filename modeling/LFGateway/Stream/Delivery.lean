import LFGateway.Stream.Lemmas

/-!
This module contains what becomes of an entry: one that is new to the group is read if nothing fails
from then on, and one that was delivered is never read again, whatever happens.
-/

namespace LFGateway

open Foundation

namespace LogStore

variable {a b c : LogStore} {entry : Entry}

structure SameReads (a b : LogStore) : Prop where
  entries : b.entries = a.entries
  last : b.log_writers.map Group.lastDelivered = a.log_writers.map Group.lastDelivered

theorem SameReads.refl (a : LogStore) : SameReads a a := ⟨rfl, rfl⟩

theorem SameReads.trans (h : SameReads a b) (h' : SameReads b c) : SameReads a c :=
  ⟨by rw [h'.entries, h.entries], by rw [h'.last, h.last]⟩

theorem SameReads.insert (messages : List Entry) : SameReads a (a.insert messages) := ⟨rfl, rfl⟩

theorem SameReads.xack (id : Nat) : SameReads a (a.xack id) := by
  constructor
  . rfl
  . unfold LogStore.xack
    cases a.log_writers <;> rfl

theorem SameReads.group (h : SameReads a b) (hgroup : a.log_writers ≠ none)
    : b.log_writers ≠ none := by
  intro hnone
  have hlast := h.last
  rw [hnone, Option.map_none, eq_comm, Option.map_eq_none_iff] at hlast
  exact hgroup hlast

theorem SameReads.undelivered (h : SameReads a b) : b.undelivered = a.undelivered := by
  have hlast := h.last
  unfold LogStore.undelivered
  rw [h.entries]
  cases ha : a.log_writers with
  | none =>
    rw [ha, Option.map_none, Option.map_eq_none_iff] at hlast
    rw [hlast]
  | some group =>
    rw [ha, Option.map_some, Option.map_eq_some_iff] at hlast
    obtain ⟨group', hgroup', hsame⟩ := hlast
    rw [hgroup']
    dsimp only
    rw [hsame]

structure Due (store : LogStore) (entry : Entry) : Prop where
  sorted : store.entries.Pairwise fun a b => a.id < b.id
  positive : 0 < entry.id
  mem : entry ∈ store.entries
  new : store.New entry

theorem Due.congr (h : a.Due entry) (hsame : SameReads a b) : b.Due entry where
  sorted := by
    rw [hsame.entries]
    exact h.sorted
  positive := h.positive
  mem := by
    rw [hsame.entries]
    exact h.mem
  new := by
    intro group hgroup
    have hlast := hsame.last
    rw [hgroup, Option.map_some, eq_comm, Option.map_eq_some_iff] at hlast
    obtain ⟨group', hgroup', hsame'⟩ := hlast
    rw [← hsame']
    exact h.new group' hgroup'

theorem xgroupCreate_of_group (h : a.log_writers ≠ none) : a.xgroupCreate = a := by
  unfold xgroupCreate
  split
  . next hnone => exact absurd hnone h
  . rfl

theorem Due.xgroupCreate (h : a.Due entry)
    : a.xgroupCreate.Due entry ∧ a.xgroupCreate.log_writers ≠ none := by
  by_cases hgroup : a.log_writers = none
  . cases hstream : a.log_stream with
    | none =>
      have hmem := h.mem
      simp [entries, hstream] at hmem
    | some entries =>
      have hcreate : a.xgroupCreate = { a with log_writers := some ⟨0, []⟩ } := by
        simp [LogStore.xgroupCreate, hstream, hgroup]
      rw [hcreate]
      refine ⟨⟨h.sorted, h.positive, h.mem, ?_⟩, by simp⟩
      intro group hsome
      rw [Option.some.injEq] at hsome
      rw [← hsome]
      exact h.positive
  . rw [xgroupCreate_of_group hgroup]
    exact ⟨h, hgroup⟩

end LogStore

namespace StreamWriter

variable {s s' s'' : State} {entry : Entry}

def Leads (s s' : State) : Prop :=
  ∃ ls, (∀ l ∈ ls, Label.Smooth l) ∧ exec StreamWriter.step s ls = some s'

theorem Leads.refl (s : State) : Leads s s := ⟨[], by simp, rfl⟩

theorem Leads.trans (h : Leads s s') (h' : Leads s' s'') : Leads s s'' := by
  obtain ⟨ls, hls, hexec⟩ := h
  obtain ⟨ls', hls', hexec'⟩ := h'
  refine ⟨ls ++ ls', ?_, (exec_append_eq_some _).mpr ⟨s', hexec, hexec'⟩⟩
  intro l hl
  rw [List.mem_append] at hl
  cases hl with
  | inl hfirst => exact hls l hfirst
  | inr hsecond => exact hls' l hsecond

theorem Leads.writer (h : StreamWriter.run s.store s.writer .ok = some (s'.store, s'.writer))
    : Leads s s' := by
  refine ⟨[.writer .ok], by simp [Label.Smooth], ?_⟩
  simp [exec, StreamWriter.step, h]

theorem Leads.start (h : s.writer.pc = .stopped) : Leads s { s with writer := ⟨.create, true⟩ } := by
  refine ⟨[.start], by simp [Label.Smooth], ?_⟩
  simp [exec, StreamWriter.step, h]

theorem WillBeRead.of_leads (hleads : Leads s s') (h : WillBeRead s' entry) : WillBeRead s entry := by
  obtain ⟨ls, s'', hls, hexec, hread⟩ := h
  obtain ⟨ls', hls', hexec'⟩ := hleads.trans ⟨ls, hls, hexec⟩
  exact ⟨ls', s'', hls', hexec', hread⟩

section Iteration

variable {store : LogStore} {running_ : Bool} {messages : List Entry}

def ToLoop (s : State) : Prop :=
  ∃ store', Leads s ⟨store', ⟨.loop, s.writer.running_⟩⟩ ∧ s.store.SameReads store'

theorem ToLoop.of_leads {store' : LogStore} {pc : Pc Entry}
    (hleads : Leads s ⟨store', ⟨pc, s.writer.running_⟩⟩) (hsame : s.store.SameReads store')
    (h : ToLoop ⟨store', ⟨pc, s.writer.running_⟩⟩) : ToLoop s := by
  obtain ⟨store'', hloop, hsame'⟩ := h
  exact ⟨store'', hleads.trans hloop, hsame.trans hsame'⟩

theorem toLoop_release : ToLoop ⟨store, ⟨.release messages, running_⟩⟩ :=
  ⟨store, Leads.writer rfl, .refl _⟩

theorem toLoop_ack {rest : List Entry} : ToLoop ⟨store, ⟨.ack messages rest, running_⟩⟩ := by
  induction rest generalizing store with
  | nil => exact toLoop_release.of_leads (Leads.writer rfl) (.refl _)
  | cons msg rest ih => exact ih.of_leads (Leads.writer rfl) (.xack msg.id)

theorem toLoop_query : ToLoop ⟨store, ⟨.query messages, running_⟩⟩ :=
  toLoop_ack.of_leads (Leads.writer rfl) (.insert messages)

theorem toLoop_acquire : ToLoop ⟨store, ⟨.acquire messages, running_⟩⟩ :=
  toLoop_query.of_leads (Leads.writer rfl) (.refl _)

theorem toLoop_sleep : ToLoop ⟨store, ⟨.sleep, running_⟩⟩ := ⟨store, Leads.writer rfl, .refl _⟩

theorem toLoop_caught : ToLoop ⟨store, ⟨.caught, running_⟩⟩ := ⟨store, Leads.writer rfl, .refl _⟩

theorem leads_read (running_ : Bool) (hgroup : store.log_writers ≠ none)
    : ∃ running', Leads ⟨store, ⟨.loop, running_⟩⟩ ⟨store, ⟨.read, running'⟩⟩ := by
  have hread : Leads ⟨store, ⟨.loop, true⟩⟩ ⟨store, ⟨.read, true⟩⟩ := Leads.writer rfl
  refine ⟨true, ?_⟩
  cases running_ with
  | true => exact hread
  | false =>
    have hstop : Leads ⟨store, ⟨.loop, false⟩⟩ ⟨store, ⟨.stopped, false⟩⟩ := Leads.writer rfl
    have hcreate : Leads ⟨store, ⟨.create, true⟩⟩ ⟨store.xgroupCreate, ⟨.loop, true⟩⟩ :=
      Leads.writer rfl
    rw [LogStore.xgroupCreate_of_group hgroup] at hcreate
    exact ((hstop.trans (Leads.start rfl)).trans hcreate).trans hread

theorem willBeRead_read (hgroup : store.log_writers ≠ none) (hdue : store.Due entry)
    : WillBeRead ⟨store, ⟨.read, running_⟩⟩ entry := by
  induction hn : store.undelivered.length using Nat.strongRecOn generalizing store running_ with
  | ind n ih =>
    subst hn
    obtain ⟨group, hsome⟩ := Option.ne_none_iff_exists'.mp hgroup
    have hmem : entry ∈ store.undelivered :=
      (LogStore.mem_undelivered hsome).mpr ⟨hdue.mem, hdue.new group hsome⟩
    have hne : store.undelivered ≠ [] := List.ne_nil_of_mem hmem
    have hbatch : store.xreadgroup.1 ≠ [] := by simpa [LogStore.xreadgroup] using hne
    have hread : Leads ⟨store, ⟨.read, running_⟩⟩
        ⟨store.xreadgroup.2, ⟨.acquire store.xreadgroup.1, running_⟩⟩ := by
      apply Leads.writer
      simp [StreamWriter.run, Effects.run, stored, hbatch]
    apply WillBeRead.of_leads hread
    cases LogStore.new_xreadgroup hdue.sorted hsome hdue.mem hdue.new with
    | inl htaken => exact ⟨[], _, by simp, rfl, _, rfl, htaken⟩
    | inr hnew =>
      have hto : ToLoop ⟨store.xreadgroup.2, ⟨.acquire store.xreadgroup.1, running_⟩⟩ :=
        toLoop_acquire
      obtain ⟨store', hloop, hsame⟩ := hto
      apply WillBeRead.of_leads hloop
      have hgroup' : store'.log_writers ≠ none := by
        apply hsame.group
        dsimp only
        rw [LogStore.xreadgroup_group hsome]
        simp
      obtain ⟨running', hnext⟩ := leads_read running_ hgroup'
      apply WillBeRead.of_leads hnext
      apply ih store'.undelivered.length _ hgroup' _ rfl
      . rw [hsame.undelivered]
        exact LogStore.undelivered_xreadgroup_lt hsome hne
      . have hdue' : store.xreadgroup.2.Due entry :=
          ⟨hdue.sorted, hdue.positive, hdue.mem, hnew⟩
        exact hdue'.congr hsame

theorem willBeRead_loop (hgroup : store.log_writers ≠ none) (hdue : store.Due entry)
    : WillBeRead ⟨store, ⟨.loop, running_⟩⟩ entry := by
  obtain ⟨running', hread⟩ := leads_read running_ hgroup
  exact WillBeRead.of_leads hread (willBeRead_read hgroup hdue)

theorem willBeRead_create (hdue : store.Due entry)
    : WillBeRead ⟨store, ⟨.create, running_⟩⟩ entry := by
  obtain ⟨hdue', hgroup⟩ := hdue.xgroupCreate
  have hcreate : Leads ⟨store, ⟨.create, running_⟩⟩ ⟨store.xgroupCreate, ⟨.loop, running_⟩⟩ :=
    Leads.writer rfl
  exact WillBeRead.of_leads hcreate (willBeRead_loop hgroup hdue')

end Iteration

theorem willBeRead_of_due (hgrouped : s.writer.pc ≠ .stopped → s.writer.pc ≠ .create →
      s.store.log_writers ≠ none) (hdue : s.store.Due entry) : WillBeRead s entry := by
  have hthen : ToLoop s → s.writer.pc ≠ .stopped → s.writer.pc ≠ .create → WillBeRead s entry := by
    rintro ⟨store', hleads, hsame⟩ hstopped hcreate
    exact WillBeRead.of_leads hleads
      (willBeRead_loop (hsame.group (hgrouped hstopped hcreate)) (hdue.congr hsame))
  obtain ⟨store, ⟨pc, running_⟩⟩ := s
  cases pc with
  | stopped => exact WillBeRead.of_leads (Leads.start rfl) (willBeRead_create hdue)
  | create => exact willBeRead_create hdue
  | loop => exact willBeRead_loop (hgrouped (by simp) (by simp)) hdue
  | read => exact willBeRead_read (hgrouped (by simp) (by simp)) hdue
  | sleep => exact hthen toLoop_sleep (by simp) (by simp)
  | acquire messages => exact hthen toLoop_acquire (by simp) (by simp)
  | query messages => exact hthen toLoop_query (by simp) (by simp)
  | ack messages rest => exact hthen toLoop_ack (by simp) (by simp)
  | release messages => exact hthen toLoop_release (by simp) (by simp)
  | caught => exact hthen toLoop_caught (by simp) (by simp)

theorem unstored_subset_messages (pc : Pc Entry) : ∀ entry ∈ pc.unstored, entry ∈ pc.messages := by
  intro entry hentry
  cases pc with
  | acquire | query => exact hentry
  | stopped | create | loop | read | sleep | ack | release | caught => simp [Pc.unstored] at hentry

/--
As long as no batch is dropped between reading and inserting it, no entry is lost.
-/
theorem noneLost_of_safe {ls : List Label} (h : exec StreamWriter.step init ls = some s)
    (hsafe : Meets StreamWriter.step Safe init ls) : NoneLost s := by
  have hinv := inv_exec h hsafe
  intro entry hentry
  rcases hinv.kept entry hentry with hlogs | hheld | hnew
  . exact .inl hlogs
  . exact .inr (.inl (unstored_subset_messages _ entry hheld))
  . right
    right
    exact willBeRead_of_due hinv.grouped
      ⟨hinv.sorted, hinv.positive entry hentry, hentry, hnew⟩

section Witness

def pushOne : Label :=
  .push (Bytes.ofAscii "/") (Bytes.ofAscii "0") (Bytes.ofAscii "200") (Bytes.ofAscii "0.000001")

/--
One entry on its way through the loop, and a stop in the middle.
-/
def gracefulStop : List Label := [
  pushOne, .start, .writer .ok, .writer .ok, .writer .ok, .writer .ok, .stop, .writer .ok,
  .writer .ok, .writer .ok, .writer .ok, .writer .ok
]

theorem noneLost_of_safe_gracefulStop
    : ∃ s, exec StreamWriter.step init gracefulStop = some s ∧ s.writer.pc = .stopped ∧ NoneLost s := by
  have hend := Option.eq_some_of_isSome (o := exec StreamWriter.step init gracefulStop) (by decide)
  exact ⟨_, hend, by decide, noneLost_of_safe hend (by decide)⟩

end Witness

section Lost

/--
The entry was delivered, and the writer does not hold it.
-/
def Gone (entry : Entry) (s : State) : Prop :=
  (∃ group, s.store.log_writers = some group ∧ entry.id ≤ group.lastDelivered) ∧
    entry ∉ s.writer.pc.messages

theorem delivered_xreadgroup {store : LogStore} {group : Group}
    (hgroup : store.log_writers = some group) (hdelivered : entry.id ≤ group.lastDelivered)
    : (∃ group', store.xreadgroup.2.log_writers = some group' ∧
        entry.id ≤ group'.lastDelivered) ∧ entry ∉ store.xreadgroup.1 := by
  have hlater : ∀ e ∈ store.xreadgroup.1, group.lastDelivered < e.id := fun e he =>
    ((LogStore.mem_undelivered hgroup).mp (List.mem_of_mem_take he)).2
  constructor
  . refine ⟨_, LogStore.xreadgroup_group hgroup, ?_⟩
    cases hlast : store.xreadgroup.1.getLast? with
    | none =>
      rw [List.getLast?_eq_none_iff] at hlast
      rw [hlast, LogStore.deliver_nil]
      exact hdelivered
    | some last =>
      have hlt := hlater last (List.mem_of_getLast? hlast)
      rw [LogStore.deliver_of_getLast? hlast]
      omega
  . intro hmem
    have hlt := hlater entry hmem
    omega

theorem Gone.run (hgone : Gone entry s) {outcome : Outcome} {store : LogStore} {writer : Writer Entry}
    (h : Moves s outcome store writer) : Gone entry ⟨store, writer⟩ := by
  obtain ⟨⟨group, hgroup, hdelivered⟩, hmessages⟩ := hgone
  obtain ⟨hread, hbatch⟩ := delivered_xreadgroup hgroup hdelivered
  cases h with
  | create =>
    rw [LogStore.xgroupCreate_of_group (by simp [hgroup])]
    exact ⟨⟨group, hgroup, hdelivered⟩, by simp [Pc.messages]⟩
  | read =>
    refine ⟨hread, ?_⟩
    dsimp only
    split
    . simp [Pc.messages]
    . exact hbatch
  | readLost => exact ⟨hread, by simp [Pc.messages]⟩
  | insert messages pc hpc _ hpc' =>
    refine ⟨⟨group, hgroup, hdelivered⟩, ?_⟩
    rw [hpc] at hmessages
    dsimp only
    rw [hpc']
    exact hmessages
  | xack messages msg rest hpc =>
    rw [hpc] at hmessages
    refine ⟨⟨{ group with pending := group.pending.filter fun id => id ≠ msg.id }, ?_, hdelivered⟩,
      hmessages⟩
    simp [LogStore.xack, hgroup]
  | drop messages pc hpc _ hsub =>
    refine ⟨⟨group, hgroup, hdelivered⟩, fun hmem => hmessages ?_⟩
    cases hpc with
    | inl hpc | inr hpc =>
      rw [hpc]
      exact hsub entry hmem
  | goto pc _ hsub => exact ⟨⟨group, hgroup, hdelivered⟩, fun hmem => hmessages (hsub entry hmem)⟩

theorem Gone.step (hgone : Gone entry s) {l : Label} (h : StreamWriter.step s l = some s')
    : Gone entry s' := by
  cases l with
  | writer outcome => exact hgone.run (moves_of_run (step_writer h))
  | start =>
    simp only [StreamWriter.step] at h
    split at h
    . rw [Option.some.injEq] at h
      rw [← h]
      exact ⟨hgone.1, by simp [Pc.messages]⟩
    . contradiction
  | crash =>
    simp only [StreamWriter.step, Option.some.injEq] at h
    rw [← h]
    exact ⟨hgone.1, by simp [Pc.messages]⟩
  | stop | push | trim =>
    simp only [StreamWriter.step, Option.some.injEq] at h
    rw [← h]
    exact hgone

/--
The loop asks for new entries only: what was delivered and dropped is never read again, whatever
happens later.
-/
theorem Gone.not_willBeRead (hgone : Gone entry s) : ¬WillBeRead s entry := by
  rintro ⟨ls, s', _, hexec, messages, hpc, hmem⟩
  have hend := exec_invariant StreamWriter.step (P := Gone entry)
    (fun _ _ _ hs hl => hs.step hl) hgone hexec
  apply hend.2
  rw [hpc]
  exact hmem

def failedInsert : List Label := [
  pushOne, .start, .writer .ok, .writer .ok, .writer .ok, .writer .ok, .writer .failed, .writer .ok
]

theorem not_noneLost_failedInsert
    : ∃ s, exec StreamWriter.step init failedInsert = some s ∧ ¬NoneLost s := by
  have hend := Option.eq_some_of_isSome (o := exec StreamWriter.step init failedInsert) (by decide)
  refine ⟨_, hend, ?_⟩
  intro hnone
  have hentry := hnone ⟨1, Bytes.ofAscii "/", Bytes.ofAscii "0", Bytes.ofAscii "200",
    Bytes.ofAscii "0.000001"⟩ (by decide)
  rcases hentry with hlogs | hmessages | hread
  . exact absurd hlogs (by decide)
  . exact absurd hmessages (by decide)
  . apply Gone.not_willBeRead _ hread
    exact ⟨⟨⟨1, [1]⟩, by decide, by decide⟩, by decide⟩

end Lost

end StreamWriter
end LFGateway
