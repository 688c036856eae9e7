import LFGateway.Pools.Lemmas.Conservation

/-!
This module contains which calls end with a connection of MySQL in their hands: an exception of `stoi` and
a null pointer for the rows keep the code from the `release` it comes to otherwise.
-/

namespace LFGateway
namespace Pools

open Foundation

/--
What `mysql_store_result` returns to a call that never releases the connection it asked.
-/
def Call.Drops : Call → Option (List Row) → Prop
  -- `mysql_fetch_row` does not come back
  | .routeList, none => True
  | .logQuery _, none => True
  | .routeAdd _, some rows => ∃ e, Router.rulesOfRows rows = .error e
  | .routeDelete _, some rows => ∃ e, Router.rulesOfRows rows = .error e
  | _, _ => False

def Dropped (t : Running) (c : Conn) : Prop :=
  ∃ reply, ⟨.mysqlStoreResult c, reply⟩ ∈ t.history ∧ t.input.Drops reply

def usesMySQL : PoolOp → Bool
  | .mysqlAcquire | .mysqlQuery _ _ | .mysqlStoreResult _ | .mysqlRelease _ => true
  | .redisAcquire | .redisCommand _ _ | .redisRelease _ | .swapRules _ | .api _ => false

section Quiet

variable {α : Type} {conn : Conn}

abbrev Quiet (p : PoolProg α) : Prop := Prog.Counts usesMySQL 0 p

theorem quiet_perform {o : PoolOp} (ho : usesMySQL o = false) : Quiet (perform o) := by
  have hcounts : Prog.Counts usesMySQL (usesMySQL o).toNat (perform o) := Prog.counts_perform o
  rwa [ho] at hcounts

theorem quiet_execute (cmd : RedisCmd) : Quiet (execute cmd) := by
  unfold execute
  apply Prog.counts_perform_bind rfl
  intro ctx
  apply Prog.counts_perform_bind rfl
  intro reply
  apply Prog.counts_perform_bind rfl
  intro _
  exact Prog.counts_pure reply

theorem quiet_lowerOp (o : ApiOp) : Quiet (lowerOp o) := by
  cases o with
  | command via cmd => exact quiet_execute _
  | add | steadyNow | systemNow | routerMatch | readRule | send => exact quiet_perform rfl

theorem quiet_lower (p : ApiProg α) : Quiet (p.lower lowerOp) := by
  induction p with
  | ret a => exact Prog.counts_pure a
  | op o next ih => exact (quiet_lowerOp o).zero_bind ih

theorem quiet_acquireToken (key : Bytes) (rate capacity : Int) : Quiet (acquireToken key rate capacity) := by
  rw [← lower_acquireToken]
  exact quiet_lower _

theorem quiet_ackAll (messages : List Entry) : Quiet (StreamWriter.ackAll messages) := by
  induction messages with
  | nil => exact Prog.counts_pure ()
  | cons msg rest ih =>
    unfold StreamWriter.ackAll
    exact (quiet_execute _).zero_bind fun _ => ih

theorem quiet_report (ok : Option Bool) : Quiet (MgmtHandler.report ok) := by
  match ok with
  | some true => exact quiet_perform rfl
  | some false => exact quiet_perform rfl
  | none => exact Prog.counts_pure ()

theorem quiet_sendLine (text : Option Bytes) : Quiet (MgmtHandler.sendLine text) := by
  cases text with
  | some text => exact quiet_perform rfl
  | none => exact Prog.counts_pure ()

end Quiet

section Keeps

variable {α β : Type} {h h' h₁ h₂ : List PoolEvent} {D : Option (List Row) → Prop} {p : PoolProg α}
  {f : α → PoolProg β}

/--
The connections still held after `h` are those whose rows are as `D` says.
-/
def Kept (D : Option (List Row) → Prop) (h : List PoolEvent) : Prop :=
  ∀ c, c ∈ connsHeldBy h ↔ ∃ reply, ⟨.mysqlStoreResult c, reply⟩ ∈ h ∧ D reply

def Keeps (D : Option (List Row) → Prop) (p : PoolProg α) : Prop := ∀ h a, Prog.Returns p h a → Kept D h

theorem Keeps.mono {D' : Option (List Row) → Prop} (hp : Keeps D p) (hiff : ∀ reply, D reply ↔ D' reply)
    : Keeps D' p := by
  intro h a hreturns c
  simp only [← hiff]
  exact hp h a hreturns c

theorem connsHeldBy_filter (h : List PoolEvent)
    : connsHeldBy (h.filter fun e => usesMySQL e.op) = connsHeldBy h := by
  unfold connsHeldBy
  rw [List.foldl_filter]
  congr 1
  funext held ⟨o, r⟩
  cases o <;> rfl

theorem Kept.congr (hkept : Kept D h)
    (heq : (h'.filter fun e => usesMySQL e.op) = h.filter fun e => usesMySQL e.op) : Kept D h' := by
  intro c
  have hmem : ∀ reply, (⟨.mysqlStoreResult c, reply⟩ : PoolEvent) ∈ h' ↔ ⟨.mysqlStoreResult c, reply⟩ ∈ h := by
    intro reply
    have hfilter := congrArg ((⟨.mysqlStoreResult c, reply⟩ : PoolEvent) ∈ ·) heq
    simpa [List.mem_filter, usesMySQL] using hfilter
  rw [← connsHeldBy_filter, heq, connsHeldBy_filter]
  simp only [hmem]
  exact hkept c

theorem Quiet.filter_eq_nil {a : α} (hp : Quiet p) (hreturns : Prog.Returns p h a)
    : (h.filter fun e => usesMySQL e.op) = [] := by
  rw [← List.length_eq_zero_iff, ← List.countP_eq_length_filter]
  exact hp h a hreturns

theorem Quiet.keeps (hp : Quiet p) : Keeps D p := by
  intro h a hreturns
  apply Kept.congr (h := []) _ (hp.filter_eq_nil hreturns)
  intro c
  simp [connsHeldBy]

theorem Keeps.bind_quiet (hp : Keeps D p) (hf : ∀ a, Quiet (f a)) : Keeps D (p >>= f) := by
  intro h b hreturns
  obtain ⟨a, h₁, h₂, rfl, hfirst, hsecond⟩ := Prog.returns_bind.mp hreturns
  apply (hp h₁ a hfirst).congr
  rw [List.filter_append, (hf a).filter_eq_nil hsecond, List.append_nil]

theorem Quiet.keeps_bind (hp : Quiet p) (hf : ∀ a, Keeps D (f a)) : Keeps D (p >>= f) := by
  intro h b hreturns
  obtain ⟨a, h₁, h₂, rfl, hfirst, hsecond⟩ := Prog.returns_bind.mp hreturns
  apply (hf a h₂ b hsecond).congr
  rw [List.filter_append, hp.filter_eq_nil hfirst, List.nil_append]

theorem keeps_acquire {f : Option Conn → PoolProg α} (hnone : Keeps D (f none))
    (hsome : ∀ conn h a, Prog.Returns (f (some conn)) h a → Kept D (⟨.mysqlAcquire, some conn⟩ :: h))
    : Keeps D (perform .mysqlAcquire >>= f) := by
  intro h a hreturns
  obtain ⟨conn, h', rfl, hrest⟩ := Prog.returns_perform_bind.mp hreturns
  cases conn with
  | some conn => exact hsome conn h' a hrest
  | none =>
    intro c
    simpa [connsHeldBy] using hnone h' a hrest c

theorem kept_refused (conn : Conn) (query : Query)
    : Kept D [⟨.mysqlAcquire, some conn⟩, ⟨.mysqlQuery conn query, false⟩, ⟨.mysqlRelease conn, ()⟩] := by
  intro c
  simp [connsHeldBy]

theorem keeps_loadFromMySQL
    : Keeps (fun reply => ∃ rows e, reply = some rows ∧ Router.rulesOfRows rows = .error e)
        Router.loadFromMySQL := by
  unfold Router.loadFromMySQL
  refine keeps_acquire (Quiet.keeps (Prog.counts_pure none)) ?_
  intro conn h a hquery
  obtain ⟨ok, h₁, rfl, hstore⟩ := Prog.returns_perform_bind.mp hquery
  cases ok with
  | false =>
    obtain ⟨_, h₂, rfl, hend⟩ := Prog.returns_perform_bind.mp hstore
    obtain ⟨rfl, _⟩ := Prog.returns_pure.mp hend
    exact kept_refused conn _
  | true =>
    obtain ⟨rows, h₂, rfl, hrules⟩ := Prog.returns_perform_bind.mp hstore
    cases rows with
    | none =>
      obtain ⟨_, h₃, rfl, hend⟩ := Prog.returns_perform_bind.mp hrules
      obtain ⟨rfl, _⟩ := Prog.returns_pure.mp hend
      intro c
      simp [connsHeldBy]
    | some rows =>
      dsimp only at hrules
      split at hrules
      . next e herror =>
        obtain ⟨rfl, _⟩ := Prog.returns_pure.mp hrules
        intro c
        simp [connsHeldBy, herror]
      . next newRules hok =>
        obtain ⟨_, h₃, rfl, hswap⟩ := Prog.returns_perform_bind.mp hrules
        obtain ⟨_, h₄, rfl, hend⟩ := Prog.returns_perform_bind.mp hswap
        obtain ⟨rfl, _⟩ := Prog.returns_pure.mp hend
        intro c
        simp [connsHeldBy, hok]

theorem keeps_tableJson (query : Query) (json : Row → Bytes)
    : Keeps (fun reply => reply = none) (Gateway.tableJson query json) := by
  unfold Gateway.tableJson
  refine keeps_acquire (Quiet.keeps (Prog.counts_pure none)) ?_
  intro conn h a hquery
  obtain ⟨ok, h₁, rfl, hstore⟩ := Prog.returns_perform_bind.mp hquery
  cases ok with
  | false =>
    obtain ⟨_, h₂, rfl, hend⟩ := Prog.returns_perform_bind.mp hstore
    obtain ⟨rfl, _⟩ := Prog.returns_pure.mp hend
    exact kept_refused conn _
  | true =>
    obtain ⟨rows, h₂, rfl, hrows⟩ := Prog.returns_perform_bind.mp hstore
    cases rows with
    | none =>
      obtain ⟨rfl, _⟩ := Prog.returns_pure.mp hrows
      intro c
      simp [connsHeldBy]
    | some rows =>
      obtain ⟨_, h₃, rfl, hend⟩ := Prog.returns_perform_bind.mp hrows
      obtain ⟨rfl, _⟩ := Prog.returns_pure.mp hend
      intro c
      simp [connsHeldBy]

theorem keeps_deleteRoute (json : Bytes)
    : Keeps (fun reply => ∃ rows e, reply = some rows ∧ Router.rulesOfRows rows = .error e)
        (Gateway.deleteRoute json) := by
  unfold Gateway.deleteRoute
  split
  . exact Quiet.keeps (Prog.counts_pure _)
  . split
    . exact Quiet.keeps (Prog.counts_pure _)
    . refine keeps_acquire (Quiet.keeps (Prog.counts_pure none)) ?_
      intro conn h a hquery
      obtain ⟨ok, h₁, rfl, hrelease⟩ := Prog.returns_perform_bind.mp hquery
      obtain ⟨_, h₂, rfl, hreload⟩ := Prog.returns_perform_bind.mp hrelease
      cases ok with
      | false =>
        obtain ⟨rfl, _⟩ := Prog.returns_pure.mp hreload
        exact kept_refused conn _
      | true =>
        -- the connection of the DELETE is back before the rules are loaded
        rw [if_pos rfl] at hreload
        have hkept := keeps_loadFromMySQL.bind_quiet (fun r => by
          cases r <;> exact Prog.counts_pure _) h₂ a hreload
        intro c
        simpa [connsHeldBy] using hkept c

theorem keeps_iteration : Keeps (fun _ => False) StreamWriter.iteration := by
  unfold StreamWriter.iteration
  apply (quiet_execute _).keeps_bind
  intro reply
  dsimp only
  split
  . exact Quiet.keeps (Prog.counts_pure _)
  . next hne =>
    refine keeps_acquire (Quiet.keeps (Prog.counts_pure _)) ?_
    intro conn h a hquery
    obtain ⟨ok, h₁, rfl, hrest⟩ := Prog.returns_perform_bind.mp hquery
    cases ok with
    | false =>
      obtain rfl := Prog.returns_perform.mp hrest
      exact kept_refused conn _
    | true =>
      obtain ⟨_, h₂, h₃, rfl, hacks, hrelease⟩ := Prog.returns_bind.mp hrest
      obtain rfl := Prog.returns_perform.mp hrelease
      have hquiet := (quiet_ackAll _).filter_eq_nil hacks
      apply Kept.congr (h := [⟨.mysqlAcquire, some conn⟩, ⟨.mysqlQuery conn (.insertLogs (reply.getD [])), true⟩,
        ⟨.mysqlRelease conn, ()⟩])
      . intro c
        simp [connsHeldBy]
      . simp only [List.filter_cons, List.filter_append, hquiet]
        rfl

theorem keeps_body (call : Call) : Keeps call.Drops call.body := by
  cases call with
  | execute cmd => exact Quiet.keeps ((quiet_execute cmd).zero_bind fun _ => Prog.counts_pure ())
  | acquireToken key rate capacity =>
    exact Quiet.keeps ((quiet_acquireToken key rate capacity).zero_bind fun _ => Prog.counts_pure ())
  | request raw => exact Quiet.keeps ((quiet_lower _).zero_bind fun _ => Prog.counts_pure ())
  | beginRun => exact Quiet.keeps ((quiet_execute _).zero_bind fun _ => Prog.counts_pure ())
  | iteration =>
    apply keeps_iteration.mono
    intro reply
    cases reply <;> rfl
  | routeAdd body =>
    apply Keeps.mono (keeps_loadFromMySQL.bind_quiet quiet_report)
    intro reply
    cases reply <;> simp [Call.Drops]
  | routeDelete body =>
    apply Keeps.mono ((keeps_deleteRoute body).bind_quiet quiet_report)
    intro reply
    cases reply <;> simp [Call.Drops]
  | routeList =>
    apply Keeps.mono ((keeps_tableJson _ _).bind_quiet quiet_sendLine)
    intro reply
    cases reply <;> simp [Call.Drops]
  | logQuery body =>
    apply Keeps.mono ((keeps_tableJson _ _).bind_quiet quiet_sendLine)
    intro reply
    cases reply <;> simp [Call.Drops]

end Keeps

theorem held_of_finished {t : Running} {ok : PoolEvent → Prop} (hruns : Threads.Runs Call.body ok t)
    (hphased : Phased t) (hfinished : Threads.Finished t)
    : heldBy t.history = [] ∧ ∀ c, c ∈ connsHeldBy t.history ↔ Dropped t c := by
  obtain ⟨a, hnow⟩ := hfinished
  constructor
  . obtain ⟨φ, hreturnable, hredis, _⟩ := hphased
    rw [hnow] at hreturnable
    have hnone : φ.redis = none := hreturnable
    rw [hredis, hnone]
    rfl
  . have hreturns := hruns.does
    rw [hnow] at hreturns
    exact keeps_body t.input t.history a hreturns

end Pools
end LFGateway
