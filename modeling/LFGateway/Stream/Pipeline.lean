import LFGateway.Redis.Replies
import LFGateway.Stream.Bootstrap
import LFGateway.Stream.Cluster
import LFGateway.Stream.Statement

/-!
This module contains the way of a log entry from Redis to MySQL with everything that is between them:
the reply of `XREADGROUP`, the maps that `RedisClient::xreadgroup` makes of it, and the statement that
`StreamWriter::run` makes of the maps. No entry gets to its end.
-/

namespace LFGateway

open Foundation

namespace StreamWriter

/--
Any number of gateway processes with one Redis and one MySQL. `delivered` lists the entries that
`XREADGROUP` returned, `executed` the statements that MySQL executed and `acked` the ids that `XACK`
was given.
-/
structure Pipeline where
  store : LogStore
  delivered : List Entry
  executed : List Bytes
  acked : List Bytes
  writers : List (Writer FieldMap)

namespace Pipeline

def init : Pipeline := ⟨StreamWriter.init.store, [], [], [], []⟩

section Decoding

variable (idText : Nat → Bytes)

/--
An entry as `LogConsumer::push` added it; Redis returns its fields in the order in which they came.
-/
def streamEntry (entry : Entry) : StreamEntry where
  id := idText entry.id
  fields := [
    (Bytes.ofAscii "latency_ms", entry.latency_ms),
    (Bytes.ofAscii "path", entry.path),
    (Bytes.ofAscii "status_code", entry.status_code),
    (Bytes.ofAscii "user_id", entry.user_id)
  ]
  distinct := by
    simp only [List.map_cons, List.map_nil]
    decide
  noId := by
    simp only [List.map_cons, List.map_nil]
    decide

def reply (batch : List Entry) : ReplyTree :=
  if batch = [] then
    .leaf .nil []
  else
    .array [StreamReply.tree ⟨Bytes.ofAscii "log_stream", batch.map (streamEntry idText)⟩]

end Decoding

def field (msg : FieldMap) (name : String) : Bytes := (msg (Bytes.ofAscii name)).getD []

/--
What the loop over the messages appends of a map. The id does not get into the statement.
-/
def toEntry (msg : FieldMap) : Entry :=
  ⟨0, field msg "path", field msg "user_id", field msg "status_code", field msg "latency_ms"⟩

def queryText (messages : List FieldMap) : Bytes := (sql (messages.map toEntry)).cStr

section Machine

variable (idText : Nat → Bytes) (accepts : Bytes → Bool)

def readGroup (s : Pipeline) : Pipeline :=
  { s with
    store := s.store.xreadgroup.2
    delivered := s.delivered ++ s.store.xreadgroup.1
  }

/--
`mysql_query`, where `accepts` says which statements MySQL executes.
-/
def query (s : Pipeline) (text : Bytes) : Pipeline :=
  if accepts text then { s with executed := s.executed ++ [text] } else s

/--
`XACK log_stream log_writers id`
-/
def ack (s : Pipeline) (id : Bytes) : Pipeline :=
  { s with
    store := { s.store with
      log_writers := s.store.log_writers.map fun group =>
        { group with pending := group.pending.filter fun id' => idText id' ≠ id } }
    acked := s.acked ++ [id]
  }

def effects : Effects Pipeline FieldMap where
  xgroupCreate s := { s with store := s.store.xgroupCreate }
  xreadgroup s := (RedisClient.xreadgroup (some (reply idText s.store.xreadgroup.1)), s.readGroup)
  insert s messages := (accepts (queryText messages), s.query accepts (queryText messages))
  xack s msg := s.ack idText (field msg "id")

def run (s : Pipeline) (writer : Writer FieldMap) (outcome : Outcome) : Option (Pipeline × Writer FieldMap) :=
  (effects idText accepts).run s writer outcome

def step (s : Pipeline) : Cluster.Label → Option Pipeline
  | .writer i outcome =>
    match s.writers[i]? with
    | none => none
    | some writer =>
      match run idText accepts s writer outcome with
      | some (s', writer') => some { s' with writers := s.writers.set i writer' }
      | none => none
  | .start => some { s with writers := s.writers ++ [⟨.create, true⟩] }
  | .stop i =>
    match s.writers[i]? with
    | none => none
    | some writer => some { s with writers := s.writers.set i { writer with running_ := false } }
  | .crash i =>
    match s.writers[i]? with
    | none => none
    | some _ => some { s with writers := s.writers.set i ⟨.stopped, false⟩ }
  | .push path user_id status_code latency_ms =>
    some { s with store := s.store.xadd path user_id status_code latency_ms }
  | .trim n => some { s with store := s.store.trim n }

end Machine

/--
A comma behind a comma, outside of literals: between them a value is missing.
-/
def gap : List Sql.Piece → Bool
  | [] => false
  | .byte b :: ps => (b = 44 ∧ (ps.dropWhile (· = .byte 32)).head? = some (.byte 44)) || gap ps
  | .text _ :: ps => gap ps

/--
MySQL takes this for a syntax error.
-/
def MissingValue (text : Bytes) : Prop := (Sql.pieces text).any gap = true

instance (text : Bytes) : Decidable (MissingValue text) := inferInstanceAs (Decidable (_ = true))

/--
MySQL executes no statement of a writer that has a value missing.
-/
def Refuses (accepts : Bytes → Bool) : Prop :=
  ∀ messages, MissingValue (queryText messages) → accepts (queryText messages) = false

section Text

variable {idText : Nat → Bytes} {batch : List Entry} {messages : List FieldMap}

theorem messages_of_reply (h : RedisClient.xreadgroup (some (reply idText batch)) = some messages)
    : messages = [] ∨ ∃ msg, messages = [msg] ∧ ∀ name, field msg name = [] := by
  unfold reply at h
  split at h
  . rw [RedisClient.xreadgroup, Option.some.injEq] at h
    exact .inl h.symm
  . have hread := RedisClient.readStreams_eq [⟨Bytes.ofAscii "log_stream", batch.map (streamEntry idText)⟩]
    rw [List.map_singleton] at hread
    rw [RedisClient.xreadgroup, hread, List.flatMap_singleton, Option.some.injEq] at h
    subst h
    unfold StreamReply.misread
    split
    . right
      refine ⟨_, rfl, ?_⟩
      intro name
      unfold field FieldMap.insert
      rw [Function.update_apply, Function.update_apply]
      split
      . rfl
      . split <;> rfl
    . exact .inl rfl
    . exact .inl rfl

theorem reply_defined (idText : Nat → Bytes) (batch : List Entry)
    : ∃ messages, RedisClient.xreadgroup (some (reply idText batch)) = some messages := by
  unfold reply
  split
  . exact ⟨[], rfl⟩
  . have hread := RedisClient.readStreams_eq [⟨Bytes.ofAscii "log_stream", batch.map (streamEntry idText)⟩]
    exact ⟨_, hread⟩

theorem queryText_of_blank {msg : FieldMap} (h : ∀ name, field msg name = [])
    : queryText [msg] = insertInto ++ Bytes.ofAscii "('', , , )" := by
  have hentry : toEntry msg = ⟨0, [], [], [], []⟩ := by
    simp only [toEntry, h]
  rw [queryText, List.map_singleton, hentry]
  decide

theorem missingValue_of_blank {msg : FieldMap} (h : ∀ name, field msg name = [])
    : MissingValue (queryText [msg]) := by
  rw [queryText_of_blank h]
  decide +kernel

end Text

section Runs

variable {idText : Nat → Bytes} {accepts : Bytes → Bool} {s s' : Pipeline}

def Stuck : Pc FieldMap → Prop
  | .acquire messages | .query messages => MissingValue (queryText messages)
  | .ack _ _ => False
  | .stopped | .create | .loop | .read | .sleep | .release _ | .caught => True

structure Inv (s : Pipeline) : Prop where
  sorted : s.store.entries.Pairwise fun a b => a.id < b.id
  bounded : ∀ entry ∈ s.store.entries, entry.id ≤ s.store.lastId
  pending : ∀ group, s.store.log_writers = some group → group.pending = s.delivered.map Entry.id
  delivered : ∀ entry ∈ s.delivered, Delivered s.store entry
  executed : s.executed = []
  acked : s.acked = []
  writers : ∀ writer ∈ s.writers, Stuck writer.pc

theorem inv_init : Inv init := by
  constructor <;> simp [init, StreamWriter.init, LogStore.entries]

theorem Inv.xgroupCreate (h : Inv s) : Inv { s with store := s.store.xgroupCreate } := by
  by_cases hgroup : s.store.log_writers = none
  . have hnone : s.delivered = [] := by
      rw [List.eq_nil_iff_forall_not_mem]
      intro entry hentry
      obtain ⟨group, hsome, _⟩ := h.delivered entry hentry
      rw [hgroup] at hsome
      contradiction
    have hentries : s.store.xgroupCreate.entries = s.store.entries := by
      unfold LogStore.entries
      rw [xgroupCreate_log_stream]
    have hlast : s.store.xgroupCreate.lastId = s.store.lastId := by
      unfold LogStore.xgroupCreate
      split <;> rfl
    constructor
    . dsimp only
      rw [hentries]
      exact h.sorted
    . dsimp only
      rw [hentries, hlast]
      exact h.bounded
    . intro group hcreated
      dsimp only at hcreated ⊢
      unfold LogStore.xgroupCreate at hcreated
      rw [hnone]
      split at hcreated
      . rw [Option.some.injEq] at hcreated
        rw [← hcreated]
        rfl
      . rw [hgroup] at hcreated
        contradiction
    . dsimp only
      rw [hnone]
      intro entry hentry
      contradiction
    . exact h.executed
    . exact h.acked
    . exact h.writers
  . rw [LogStore.xgroupCreate_of_group hgroup]
    exact h

theorem Inv.readGroup (h : Inv s) : Inv s.readGroup where
  sorted := h.sorted
  bounded := h.bounded
  pending := by
    intro group hgroup
    unfold Pipeline.readGroup at hgroup ⊢
    dsimp only at hgroup ⊢
    cases hold : s.store.log_writers with
    | none => simp [LogStore.xreadgroup, hold] at hgroup
    | some group' =>
      rw [LogStore.xreadgroup_group hold, Option.some.injEq] at hgroup
      rw [← hgroup, Group.deliver, h.pending group' hold, List.map_append]
  delivered := by
    intro entry hentry
    unfold Pipeline.readGroup at hentry ⊢
    rw [List.mem_append] at hentry
    cases hentry with
    | inl hold =>
      obtain ⟨group, hgroup, hle⟩ := h.delivered entry hold
      exact (delivered_xreadgroup hgroup hle).1
    | inr hnew => exact delivered_of_mem_xreadgroup h.sorted hnew
  executed := h.executed
  acked := h.acked
  writers := h.writers

theorem Inv.query (h : Inv s) {messages : List FieldMap}
    (hrefused : accepts (queryText messages) = false) : Inv (s.query accepts (queryText messages)) := by
  unfold Pipeline.query
  rw [hrefused]
  exact h

theorem Inv.run (h : Inv s) (hgaps : Refuses accepts)
    {writer writer' : Writer FieldMap} (hstuck : Stuck writer.pc) {outcome : Outcome}
    (hrun : Pipeline.run idText accepts s writer outcome = some (s', writer')) : Inv s' ∧ Stuck writer'.pc := by
  obtain ⟨pc, running_⟩ := writer
  unfold Pipeline.run at hrun
  cases pc with
  | stopped => simp [Effects.run] at hrun
  | create =>
    cases outcome <;> simp only [Effects.run, effects, Option.some.injEq, Prod.mk.injEq] at hrun <;>
      obtain ⟨rfl, rfl⟩ := hrun
    . exact ⟨h.xgroupCreate, trivial⟩
    . exact ⟨h, trivial⟩
    . exact ⟨h.xgroupCreate, trivial⟩
  | loop =>
    cases outcome <;> simp only [Effects.run, Option.some.injEq, Prod.mk.injEq, reduceCtorEq] at hrun
    obtain ⟨rfl, rfl⟩ := hrun
    exact ⟨h, by split <;> trivial⟩
  | read =>
    cases outcome with
    | ok =>
      obtain ⟨messages, hmessages⟩ := reply_defined idText s.store.xreadgroup.1
      simp only [Effects.run, effects, hmessages, Option.some.injEq, Prod.mk.injEq] at hrun
      obtain ⟨rfl, rfl⟩ := hrun
      refine ⟨h.readGroup, ?_⟩
      rcases messages_of_reply hmessages with rfl | ⟨msg, rfl, hblank⟩
      . trivial
      . exact missingValue_of_blank hblank
    | failed =>
      simp only [Effects.run, Option.some.injEq, Prod.mk.injEq] at hrun
      obtain ⟨rfl, rfl⟩ := hrun
      exact ⟨h, trivial⟩
    | lost =>
      simp only [Effects.run, effects, Option.some.injEq, Prod.mk.injEq] at hrun
      obtain ⟨rfl, rfl⟩ := hrun
      exact ⟨h.readGroup, trivial⟩
  | acquire messages =>
    cases outcome <;> simp only [Effects.run, Option.some.injEq, Prod.mk.injEq, reduceCtorEq] at hrun <;>
      obtain ⟨rfl, rfl⟩ := hrun
    . exact ⟨h, hstuck⟩
    . exact ⟨h, trivial⟩
  | query messages =>
    have hrefused := hgaps messages hstuck
    cases outcome <;>
      simp only [Effects.run, effects, hrefused, Bool.false_eq_true, ↓reduceIte, Option.some.injEq,
        Prod.mk.injEq] at hrun <;>
      obtain ⟨rfl, rfl⟩ := hrun
    . exact ⟨h.query hrefused, trivial⟩
    . exact ⟨h, trivial⟩
    . exact ⟨h.query hrefused, trivial⟩
  | ack messages rest => exact hstuck.elim
  | sleep | release messages | caught =>
    cases outcome <;> simp only [Effects.run, Option.some.injEq, Prod.mk.injEq, reduceCtorEq] at hrun
    obtain ⟨rfl, rfl⟩ := hrun
    exact ⟨h, trivial⟩

theorem Inv.of_writers (h : Inv s) {writers : List (Writer FieldMap)}
    (hwriters : ∀ writer ∈ writers, Stuck writer.pc) : Inv { s with writers } :=
  ⟨h.sorted, h.bounded, h.pending, h.delivered, h.executed, h.acked, hwriters⟩

theorem Inv.set (h : Inv s) {writers : List (Writer FieldMap)} (hwriters : ∀ writer ∈ writers, Stuck writer.pc)
    (i : Nat) {writer : Writer FieldMap} (hstuck : Stuck writer.pc)
    : Inv { s with writers := writers.set i writer } := by
  apply h.of_writers
  intro writer' hwriter'
  cases List.mem_or_eq_of_mem_set hwriter' with
  | inl hold => exact hwriters writer' hold
  | inr heq =>
    rw [heq]
    exact hstuck

theorem Inv.push (h : Inv s) (path user_id status_code latency_ms : Bytes)
    : Inv { s with store := s.store.xadd path user_id status_code latency_ms } :=
  ⟨sorted_xadd _ _ _ _ h.sorted h.bounded, bounded_xadd _ _ _ _ h.bounded, h.pending, h.delivered,
    h.executed, h.acked, h.writers⟩

theorem Inv.trim (h : Inv s) (n : Nat) : Inv { s with store := s.store.trim n } := by
  constructor
  . dsimp only
    rw [entries_trim]
    exact h.sorted.sublist (List.drop_sublist _ _)
  . dsimp only
    rw [entries_trim]
    exact fun entry hentry => h.bounded entry (List.mem_of_mem_drop hentry)
  . exact h.pending
  . exact h.delivered
  . exact h.executed
  . exact h.acked
  . exact h.writers

theorem Inv.step (h : Inv s) (hgaps : Refuses accepts)
    {l : Cluster.Label} (hstep : Pipeline.step idText accepts s l = some s') : Inv s' := by
  cases l with
  | writer i outcome =>
    simp only [Pipeline.step] at hstep
    split at hstep
    . contradiction
    . next writer hwriter =>
      split at hstep
      . next t writer' hrun =>
        rw [Option.some.injEq] at hstep
        subst hstep
        have hstuck := h.writers writer (List.mem_of_getElem? hwriter)
        obtain ⟨hinv, hstuck'⟩ := h.run hgaps hstuck hrun
        exact hinv.set h.writers i hstuck'
      . contradiction
  | start =>
    simp only [Pipeline.step, Option.some.injEq] at hstep
    subst hstep
    apply h.of_writers
    intro writer hwriter
    rw [List.mem_append, List.mem_singleton] at hwriter
    cases hwriter with
    | inl hold => exact h.writers writer hold
    | inr heq =>
      rw [heq]
      trivial
  | stop i =>
    simp only [Pipeline.step] at hstep
    split at hstep
    . contradiction
    . next writer hwriter =>
      rw [Option.some.injEq] at hstep
      subst hstep
      have hstuck : Stuck ({ writer with running_ := false } : Writer FieldMap).pc :=
        h.writers writer (List.mem_of_getElem? hwriter)
      exact h.set h.writers i hstuck
  | crash i =>
    simp only [Pipeline.step] at hstep
    split at hstep
    . contradiction
    . rw [Option.some.injEq] at hstep
      subst hstep
      have hstuck : Stuck (⟨.stopped, false⟩ : Writer FieldMap).pc := trivial
      exact h.set h.writers i hstuck
  | push path user_id status_code latency_ms =>
    simp only [Pipeline.step, Option.some.injEq] at hstep
    subst hstep
    exact h.push path user_id status_code latency_ms
  | trim n =>
    simp only [Pipeline.step, Option.some.injEq] at hstep
    subst hstep
    exact h.trim n

/--
Whatever the gateways push and however their calls end, MySQL executes no statement and no `XACK` is
sent: every entry that was read stays pending, and no writer reads it again.
-/
theorem nothing_stored (hgaps : Refuses accepts)
    {ls : List Cluster.Label} {s : Pipeline} (h : exec (step idText accepts) init ls = some s)
    : s.executed = [] ∧ s.acked = [] ∧
        ∀ group, s.store.log_writers = some group →
          group.pending = s.delivered.map Entry.id ∧
            ∀ entry ∈ s.delivered, entry ∉ s.store.undelivered := by
  have hinv : Inv s :=
    exec_invariant (step idText accepts) (fun _ _ _ hinv hl => hinv.step hgaps hl) inv_init h
  refine ⟨hinv.executed, hinv.acked, ?_⟩
  intro group hgroup
  refine ⟨hinv.pending group hgroup, ?_⟩
  intro entry hentry hundelivered
  exact Nat.lt_irrefl _ ((hinv.delivered entry hentry).not_undelivered entry hundelivered)

def threeEntries : List Cluster.Label := [
  .push (Bytes.ofAscii "/a") (Bytes.ofNat 0) (Bytes.ofNat 200) (Bytes.ofAscii "1.000000"),
  .push (Bytes.ofAscii "/b") (Bytes.ofNat 0) (Bytes.ofNat 200) (Bytes.ofAscii "2.000000"),
  .push (Bytes.ofAscii "/c") (Bytes.ofNat 0) (Bytes.ofNat 200) (Bytes.ofAscii "3.000000"),
  .start, .writer 0 .ok, .writer 0 .ok, .writer 0 .ok, .writer 0 .ok, .writer 0 .ok, .writer 0 .ok
]

def refusesGaps (text : Bytes) : Bool := !decide (MissingValue text)

theorem nothing_stored_threeEntries
    : ∃ s, exec (step Bytes.ofNat refusesGaps) init threeEntries = some s ∧
        s.delivered.length = 3 ∧ s.executed = [] ∧ s.acked = [] ∧
        ∀ group, s.store.log_writers = some group →
          group.pending = s.delivered.map Entry.id ∧
            ∀ entry ∈ s.delivered, entry ∉ s.store.undelivered := by
  have hrun : (exec (step Bytes.ofNat refusesGaps) init threeEntries).any (fun s =>
      s.delivered.length = 3) = true := by
    decide +kernel
  obtain ⟨s, hs, hend⟩ := (Option.any_eq_true _ _).mp hrun
  have hgaps : Refuses refusesGaps := by
    intro messages hmissing
    simp [refusesGaps, hmissing]
  exact ⟨s, hs, of_decide_eq_true hend, nothing_stored hgaps hs⟩

end Runs

end Pipeline
end StreamWriter
end LFGateway
