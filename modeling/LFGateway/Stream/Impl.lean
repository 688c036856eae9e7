import LFGateway.Foundation.Bytes
import LFGateway.Foundation.Machine

/-!
This module contains `StreamWriter` with the stream it reads and the table it writes. A step of the
writer is a call it makes; how the call ends is part of the label.
-/

namespace LFGateway

open Foundation

/--
An entry of `log_stream`. Ids grow, so numbers stand for them.
-/
structure Entry where
  id : Nat
  path : Bytes
  user_id : Bytes
  status_code : Bytes
  latency_ms : Bytes
  deriving DecidableEq, Repr

/--
A consumer group: the id up to which entries were delivered, and the ids that were not acknowledged.
-/
structure Group where
  lastDelivered : Nat
  pending : List Nat
  deriving DecidableEq, Repr

def Group.deliver (group : Group) (batch : List Entry) : Group where
  lastDelivered :=
    match batch.getLast? with
    | some last => last.id
    | none => group.lastDelivered
  pending := group.pending ++ batch.map fun entry => entry.id

/--
What outlives the process. `log_stream` is `none` until the first entry, `lastId` is the last id that
was given out, and a row of `api_call_logs` is the entry it was made from.
-/
structure LogStore where
  log_stream : Option (List Entry)
  lastId : Nat
  log_writers : Option Group
  api_call_logs : List Entry
  deriving DecidableEq, Repr

namespace LogStore

def entries (store : LogStore) : List Entry := store.log_stream.getD []

/--
`XADD log_stream *`
-/
def xadd (store : LogStore) (path user_id status_code latency_ms : Bytes) : LogStore :=
  let id := store.lastId + 1
  { store with
    log_stream := some (store.entries ++ [⟨id, path, user_id, status_code, latency_ms⟩])
    lastId := id
  }

/--
`MAXLEN` drops the oldest entries.
-/
def trim (store : LogStore) (n : Nat) : LogStore :=
  { store with log_stream := store.log_stream.map fun entries => entries.drop n }

/--
`XGROUP CREATE log_stream log_writers 0`. Without `MKSTREAM` it fails on a missing stream, and it
leaves an existing group alone.
-/
def xgroupCreate (store : LogStore) : LogStore :=
  match store.log_stream, store.log_writers with
  | some _, none => { store with log_writers := some ⟨0, []⟩ }
  | _, _ => store

def undelivered (store : LogStore) : List Entry :=
  match store.log_writers with
  | some group => store.entries.filter fun entry => group.lastDelivered < entry.id
  | none => []

/--
`XREADGROUP GROUP log_writers writer_1 COUNT 10 STREAMS log_stream >` delivers what it returns.
-/
def xreadgroup (store : LogStore) : List Entry × LogStore :=
  let batch := store.undelivered.take 10
  (batch, { store with log_writers := store.log_writers.map fun group => group.deliver batch })

/--
`XACK log_stream log_writers id`
-/
def xack (store : LogStore) (id : Nat) : LogStore :=
  { store with
    log_writers := store.log_writers.map fun group =>
      { group with pending := group.pending.filter fun id' => id' ≠ id } }

/--
The statement that inserts a row for each message.
-/
def insert (store : LogStore) (messages : List Entry) : LogStore :=
  { store with api_call_logs := store.api_call_logs ++ messages }

end LogStore

namespace StreamWriter

inductive Pc (Msg : Type) where
  | stopped
  | create
  /-- at the condition of the loop -/
  | loop
  | read
  | sleep
  /-- about to call `mysql_->acquire()` with the messages of this iteration -/
  | acquire (messages : List Msg)
  | query (messages : List Msg)
  | ack (messages : List Msg) (rest : List Msg)
  /-- about to call `mysql_->release(conn)` -/
  | release (messages : List Msg)
  | caught
  deriving DecidableEq, Repr

structure Writer (Msg : Type) where
  pc : Pc Msg
  running_ : Bool
  deriving DecidableEq, Repr

/--
How a call ends: as it should, without effect, or with its effect but reported as failed.
-/
inductive Outcome where
  | ok
  | failed
  | lost
  deriving DecidableEq, Repr

/--
What the calls of the thread do where they have an effect. `xreadgroup` has no messages where its decoder
reads behind the end of an array, and `insert` says whether MySQL executes the statement.
-/
structure Effects (σ Msg : Type) where
  xgroupCreate : σ → σ
  xreadgroup : σ → Option (List Msg) × σ
  insert : σ → List Msg → Bool × σ
  xack : σ → Msg → σ

def Effects.run {σ Msg : Type} (effects : Effects σ Msg) (s : σ) (writer : Writer Msg) (outcome : Outcome)
    : Option (σ × Writer Msg) :=
  let goto (s : σ) (pc : Pc Msg) := some (s, { writer with pc })
  match writer.pc, outcome with
  | .stopped, _ => none
  -- the result of `xgroup_create` is not looked at
  | .create, .failed => goto s .loop
  | .create, _ => goto (effects.xgroupCreate s) .loop
  | .loop, .ok => goto s (if writer.running_ then .read else .stopped)
  | .loop, _ => none
  | .read, .ok =>
    match effects.xreadgroup s with
    | (some messages, s) => goto s (if messages = [] then .sleep else .acquire messages)
    | (none, _) => none
  | .read, .failed => goto s .sleep
  | .read, .lost => goto (effects.xreadgroup s).2 .sleep
  | .sleep, .ok => goto s .loop
  | .sleep, _ => none
  | .acquire messages, .ok => goto s (.query messages)
  -- the exception drops the messages
  | .acquire _, .failed => goto s .caught
  | .acquire _, .lost => none
  | .query messages, .ok =>
    let (executed, s) := effects.insert s messages
    goto s (if executed then .ack messages messages else .release messages)
  | .query messages, .failed => goto s (.release messages)
  | .query messages, .lost => goto (effects.insert s messages).2 (.release messages)
  | .ack messages [], .ok => goto s (.release messages)
  | .ack _ [], _ => none
  | .ack messages (_ :: rest), .failed => goto s (.ack messages rest)
  | .ack messages (msg :: rest), _ => goto (effects.xack s msg) (.ack messages rest)
  | .release _, .ok => goto s .loop
  | .release _, _ => none
  | .caught, .ok => goto s .loop
  | .caught, _ => none

/--
Messages are decoded as they were pushed, and every statement is executed.
-/
def stored : Effects LogStore Entry where
  xgroupCreate := LogStore.xgroupCreate
  xreadgroup store := (some store.xreadgroup.1, store.xreadgroup.2)
  insert store messages := (true, store.insert messages)
  xack store msg := store.xack msg.id

def run (store : LogStore) (writer : Writer Entry) (outcome : Outcome)
    : Option (LogStore × Writer Entry) :=
  stored.run store writer outcome

structure State where
  store : LogStore
  writer : Writer Entry
  deriving DecidableEq, Repr

def init : State := ⟨⟨none, 0, none, []⟩, ⟨.stopped, false⟩⟩

inductive Label where
  | writer (outcome : Outcome)
  /-- the process starts: `StreamWriter::start` -/
  | start
  | stop
  | crash
  | push (path user_id status_code latency_ms : Bytes)
  | trim (n : Nat)
  deriving DecidableEq, Repr

def step (s : State) : Label → Option State
  | .writer outcome =>
    match run s.store s.writer outcome with
    | some (store, writer) => some ⟨store, writer⟩
    | none => none
  | .start => if s.writer.pc = .stopped then some { s with writer := ⟨.create, true⟩ } else none
  | .stop => some { s with writer := { s.writer with running_ := false } }
  | .crash => some { s with writer := ⟨.stopped, false⟩ }
  | .push path user_id status_code latency_ms =>
    some { s with store := s.store.xadd path user_id status_code latency_ms }
  | .trim n => some { s with store := s.store.trim n }

def Pc.messages : Pc Entry → List Entry
  | .acquire messages | .query messages | .ack messages _ | .release messages => messages
  | _ => []

def Pc.unstored : Pc Entry → List Entry
  | .acquire messages | .query messages => messages
  | _ => []

/--
The step loses no messages between reading and inserting them, and once `xgroup_create` was called
the group exists.
-/
def Safe (s : State) : Label → Prop
  | .writer outcome =>
    match s.writer.pc with
    | .create => s.store.log_writers ≠ none ∨ (s.store.log_stream ≠ none ∧ outcome ≠ .failed)
    | .read => outcome = .lost → s.store.undelivered = []
    | .acquire _ | .query _ => outcome ≠ .failed
    | _ => True
  | .crash => s.writer.pc.unstored = []
  | _ => True

instance (s : State) (l : Label) : Decidable (Safe s l) := by
  unfold Safe
  split
  . split <;> infer_instance
  . infer_instance
  . infer_instance

def Label.Smooth (l : Label) : Prop := l = .writer .ok ∨ l = .start

/--
If nothing fails any more, an `xreadgroup` of the loop returns `entry`.
-/
def WillBeRead (s : State) (entry : Entry) : Prop :=
  ∃ ls s', (∀ l ∈ ls, Label.Smooth l) ∧ exec step s ls = some s' ∧
    ∃ messages, s'.writer.pc = .acquire messages ∧ entry ∈ messages

/--
Every entry that is not trimmed is in the table, in the batch that is processed, or still to be read.
-/
def NoneLost (s : State) : Prop :=
  ∀ entry ∈ s.store.entries,
    entry ∈ s.store.api_call_logs ∨ entry ∈ s.writer.pc.messages ∨ WillBeRead s entry

/--
Any number of gateway processes that run the writer against one Redis and one MySQL. What `reported`
lists are the messages of the `mysql_query` calls that returned 0.
-/
structure Cluster where
  store : LogStore
  writers : List (Writer Entry)
  reported : List Entry
  deriving DecidableEq, Repr

namespace Cluster

def init : Cluster := ⟨StreamWriter.init.store, [], []⟩

inductive Label where
  | writer (i : Nat) (outcome : Outcome)
  /-- one more process starts, perhaps in place of one that has stopped -/
  | start
  | stop (i : Nat)
  | crash (i : Nat)
  | push (path user_id status_code latency_ms : Bytes)
  | trim (n : Nat)
  deriving DecidableEq, Repr

/--
The messages of which `mysql_query` reports that they are inserted, if the next call ends like this.
-/
def reports (writer : Writer Entry) (outcome : Outcome) : List Entry :=
  match writer.pc, outcome with
  | .query messages, .ok => messages
  | _, _ => []

def acknowledges (writer : Writer Entry) : Option Entry :=
  match writer.pc with
  | .ack _ (msg :: _) => some msg
  | _ => none

def step (s : Cluster) : Label → Option Cluster
  | .writer i outcome =>
    match s.writers[i]? with
    | none => none
    | some writer =>
      match run s.store writer outcome with
      | some (store, writer') =>
        some ⟨store, s.writers.set i writer', s.reported ++ reports writer outcome⟩
      | none => none
  | .start => some { s with writers := s.writers ++ [⟨.create, true⟩] }
  | .stop i =>
    match s.writers[i]? with
    | none => none
    | some writer => some { s with writers := s.writers.set i { writer with running_ := false } }
  | .crash i =>
    match s.writers[i]? with
    | none => none
    | some _ => some { s with writers := s.writers.set i ⟨.stopped, false⟩ }
  | .push path user_id status_code latency_ms =>
    some { s with store := s.store.xadd path user_id status_code latency_ms }
  | .trim n => some { s with store := s.store.trim n }

/--
No entry has two rows in `api_call_logs`.
-/
def StoredOnce (s : Cluster) : Prop := (s.store.api_call_logs.map fun entry => entry.id).Nodup

/--
`XACK` is issued for no entry before an `INSERT` with it reported success.
-/
def AckedAfterStored (s : Cluster) : Prop :=
  ∀ writer ∈ s.writers, ∀ msg, acknowledges writer = some msg → msg ∈ s.reported

end Cluster
end StreamWriter
end LFGateway
