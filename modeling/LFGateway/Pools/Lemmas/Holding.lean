import LFGateway.Foundation.Phases
import LFGateway.Gateway.Lemmas.Sends
import LFGateway.Pools.Impl.Calls

/-!
This module contains which connections a call may hold where: a context of Redis only from its
`acquire` to the one command it is taken for, and at most one connection of MySQL around that.
-/

namespace LFGateway
namespace Pools

open Foundation

structure Holding where
  redis : Option Context
  mysql : Option Conn
  deriving DecidableEq, Repr

/--
With a context of Redis in its hands, a call only sends a command and gives the context back; it asks
MySQL for a connection only with empty hands.
-/
def holding : Phases PoolOp PoolOp.Reply Holding
  | ⟨none, m⟩, .redisAcquire, ctx => some ⟨some ctx, m⟩
  | ⟨some c, m⟩, .redisCommand ctx _, _ => if ctx = c then some ⟨some c, m⟩ else none
  | ⟨some c, m⟩, .redisRelease ctx, _ => if ctx = c then some ⟨none, m⟩ else none
  | ⟨none, none⟩, .mysqlAcquire, conn => some ⟨none, conn⟩
  | ⟨none, some c⟩, .mysqlQuery conn _, _ => if conn = c then some ⟨none, some c⟩ else none
  | ⟨none, some c⟩, .mysqlStoreResult conn, _ => if conn = c then some ⟨none, some c⟩ else none
  | ⟨none, some c⟩, .mysqlRelease conn, _ => if conn = c then some ⟨none, none⟩ else none
  | ⟨none, m⟩, .swapRules _, _ => some ⟨none, m⟩
  | ⟨none, m⟩, .api _, _ => some ⟨none, m⟩
  | _, _, _ => none

instance (o : PoolOp) : Nonempty o.Reply := by
  cases o with
  | redisCommand ctx cmd => cases cmd <;> exact ⟨none⟩
  | api o => exact inferInstanceAs (Nonempty o.Reply)
  | redisAcquire | redisRelease | mysqlAcquire | mysqlQuery | mysqlStoreResult | mysqlRelease
    | swapRules => exact ⟨default⟩

theorem holding_of_redis {ctx : Context} {m : Option Conn} {o : PoolOp} {r : o.Reply} {φ : Holding}
    (h : holding ⟨some ctx, m⟩ o r = some φ)
    : (o = .redisRelease ctx ∧ φ = ⟨none, m⟩) ∨
        ∃ cmd, o = .redisCommand ctx cmd ∧ φ = ⟨some ctx, m⟩ := by
  cases o with
  | redisRelease ctx' =>
    simp only [holding] at h
    split at h
    . next heq =>
      rw [Option.some.injEq] at h
      exact .inl ⟨by rw [heq], h.symm⟩
    . contradiction
  | redisCommand ctx' cmd =>
    simp only [holding] at h
    split at h
    . next heq =>
      rw [Option.some.injEq] at h
      exact .inr ⟨cmd, by rw [heq], h.symm⟩
    . contradiction
  | redisAcquire | mysqlAcquire | mysqlQuery | mysqlStoreResult | mysqlRelease | swapRules | api =>
    simp [holding] at h

theorem lower_acquireToken (key : Bytes) (rate capacity : Int)
    : (DistributedRateLimiter.acquireToken key rate capacity).lower lowerOp
        =
      acquireToken key rate capacity := by
  unfold DistributedRateLimiter.acquireToken acquireToken
  rw [Prog.lower_perform_bind]
  apply bind_congr
  intro now
  rw [Prog.lower_perform_bind]
  simp only [lowerOp, execute, bind_assoc, pure_bind]
  apply bind_congr
  intro ctx
  apply bind_congr
  intro reply
  apply bind_congr
  intro _
  cases reply <;> rfl

/--
From phase `φ` on, a program comes to an end without a context of Redis.
-/
abbrev Returnable {α : Type} (φ : Holding) (p : PoolProg α) : Prop :=
  holding.Conforms (fun _ φ' => φ'.redis = none) φ p

section Programs

variable {α : Type} {m : Option Conn} {conn : Conn}

theorem conforms_execute (cmd : RedisCmd)
    : holding.Conforms (fun _ φ => φ = ⟨none, m⟩) ⟨none, m⟩ (execute cmd) := by
  unfold execute
  apply Phases.conforms_perform_bind
  intro ctx
  refine ⟨⟨some ctx, m⟩, rfl, ?_⟩
  apply Phases.conforms_perform_bind
  intro reply
  refine ⟨⟨some ctx, m⟩, by simp [holding], ?_⟩
  apply Phases.conforms_perform_bind
  intro _
  exact ⟨⟨none, m⟩, by simp [holding], rfl⟩

theorem conforms_api (o : ApiOp)
    : holding.Conforms (fun _ φ => φ = ⟨none, m⟩) ⟨none, m⟩ (perform (.api o)) := by
  apply Phases.conforms_perform
  intro r
  exact ⟨⟨none, m⟩, by cases m <;> rfl, rfl⟩

theorem conforms_lowerOp (o : ApiOp)
    : holding.Conforms (fun _ φ => φ = ⟨none, m⟩) ⟨none, m⟩ (lowerOp o) := by
  cases o with
  | command via cmd => exact conforms_execute _
  | add | steadyNow | systemNow | routerMatch | readRule | send => exact conforms_api _

theorem conforms_lower (p : ApiProg α)
    : holding.Conforms (fun _ φ => φ = ⟨none, m⟩) ⟨none, m⟩ (p.lower lowerOp) := by
  refine Phases.conforms_lower (I := fun φ : Holding => φ = ⟨none, m⟩) ?_ p rfl
  rintro o _ rfl
  exact conforms_lowerOp o

theorem conforms_acquireToken (key : Bytes) (rate capacity : Int)
    : holding.Conforms (fun _ φ => φ = ⟨none, m⟩) ⟨none, m⟩ (acquireToken key rate capacity) := by
  rw [← lower_acquireToken]
  exact conforms_lower _

theorem returnable_mysql {o : PoolOp} {f : o.Reply → PoolProg α} {φ : Holding}
    (ho : ∀ r, holding ⟨none, some conn⟩ o r = some φ) (hf : ∀ r, Returnable φ (f r))
    : Returnable ⟨none, some conn⟩ (perform o >>= f) := by
  apply Phases.conforms_perform_bind
  intro r
  exact ⟨φ, ho r, hf r⟩

theorem returnable_query {query : Query} {f : Bool → PoolProg α}
    (hf : ∀ ok, Returnable ⟨none, some conn⟩ (f ok))
    : Returnable ⟨none, some conn⟩ (perform (.mysqlQuery conn query) >>= f) :=
  returnable_mysql (fun _ => by simp [holding]) hf

theorem returnable_storeResult {f : Option (List Row) → PoolProg α}
    (hf : ∀ rows, Returnable ⟨none, some conn⟩ (f rows))
    : Returnable ⟨none, some conn⟩ (perform (.mysqlStoreResult conn) >>= f) :=
  returnable_mysql (fun _ => by simp [holding]) hf

theorem returnable_release {f : Unit → PoolProg α} (hf : Returnable ⟨none, none⟩ (f ()))
    : Returnable ⟨none, some conn⟩ (perform (.mysqlRelease conn) >>= f) :=
  returnable_mysql (fun _ => by simp [holding]) fun _ => hf

theorem returnable_acquire {f : Option Conn → PoolProg α} (hnone : Returnable ⟨none, none⟩ (f none))
    (hsome : ∀ conn, Returnable ⟨none, some conn⟩ (f (some conn)))
    : Returnable ⟨none, none⟩ (perform .mysqlAcquire >>= f) := by
  apply Phases.conforms_perform_bind
  intro r
  refine ⟨⟨none, r⟩, rfl, ?_⟩
  cases r with
  | none => exact hnone
  | some conn => exact hsome conn

theorem returnable_loadFromMySQL : Returnable ⟨none, none⟩ Router.loadFromMySQL := by
  unfold Router.loadFromMySQL
  refine returnable_acquire (by exact rfl) ?_
  intro conn
  apply returnable_query
  intro ok
  cases ok with
  | false => exact returnable_release rfl
  | true =>
    apply returnable_storeResult
    intro rows
    cases rows with
    | none => exact returnable_release rfl
    | some rows =>
      dsimp only
      split
      . exact rfl
      . apply returnable_release
        intro _
        exact ⟨⟨none, none⟩, rfl, rfl⟩

theorem returnable_deleteRoute (json : Bytes) : Returnable ⟨none, none⟩ (Gateway.deleteRoute json) := by
  unfold Gateway.deleteRoute
  split
  . exact rfl
  . split
    . exact rfl
    . refine returnable_acquire (by exact rfl) ?_
      intro conn
      apply returnable_query
      intro ok
      apply returnable_release
      cases ok with
      | false => exact rfl
      | true =>
        apply Phases.Conforms.bind
        . exact returnable_loadFromMySQL
        . intro r φ hφ
          cases r <;> exact hφ

theorem returnable_tableJson (query : Query) (json : Row → Bytes)
    : Returnable ⟨none, none⟩ (Gateway.tableJson query json) := by
  unfold Gateway.tableJson
  refine returnable_acquire (by exact rfl) ?_
  intro conn
  apply returnable_query
  intro ok
  cases ok with
  | false => exact returnable_release rfl
  | true =>
    apply returnable_storeResult
    intro rows
    cases rows with
    | none => exact rfl
    | some rows => exact returnable_release rfl

theorem conforms_ackAll (messages : List Entry)
    : holding.Conforms (fun _ φ => φ = ⟨none, some conn⟩) ⟨none, some conn⟩
        (StreamWriter.ackAll messages) := by
  induction messages with
  | nil => exact rfl
  | cons msg rest ih =>
    unfold StreamWriter.ackAll
    apply (conforms_execute _).bind
    rintro _ _ rfl
    exact ih

theorem returnable_iteration : Returnable ⟨none, none⟩ StreamWriter.iteration := by
  unfold StreamWriter.iteration
  apply (conforms_execute _).bind
  rintro reply _ rfl
  dsimp only
  split
  . exact rfl
  . refine returnable_acquire (by exact rfl) ?_
    intro conn
    apply returnable_query
    intro ok
    cases ok with
    | false => exact (returnable_release (f := pure) rfl)
    | true =>
      apply (conforms_ackAll _).bind
      rintro _ _ rfl
      exact (returnable_release (f := pure) rfl)

theorem returnable_report {φ : Holding} (hφ : φ.redis = none) (ok : Option Bool)
    : Returnable φ (MgmtHandler.report ok) := by
  obtain ⟨redis, mysql⟩ := φ
  dsimp only at hφ
  subst hφ
  have hsend : ∀ text, Returnable ⟨none, mysql⟩ (perform (.api (.send text))) := by
    intro text
    apply (conforms_api _).mono
    rintro _ _ rfl
    rfl
  match ok with
  | some true => exact hsend _
  | some false => exact hsend _
  | none => exact rfl

theorem returnable_sendLine {φ : Holding} (hφ : φ.redis = none) (text : Option Bytes)
    : Returnable φ (MgmtHandler.sendLine text) := by
  obtain ⟨redis, mysql⟩ := φ
  dsimp only at hφ
  subst hφ
  cases text with
  | none => exact rfl
  | some text =>
    apply (conforms_api _).mono
    rintro _ _ rfl
    rfl

theorem returnable_body (call : Call) : Returnable ⟨none, none⟩ call.body := by
  cases call with
  | execute cmd =>
    apply (conforms_execute cmd).bind
    rintro _ _ rfl
    exact rfl
  | acquireToken key rate capacity =>
    apply (conforms_acquireToken key rate capacity).bind
    rintro _ _ rfl
    exact rfl
  | request raw =>
    apply (conforms_lower _).bind
    rintro _ _ rfl
    exact rfl
  | beginRun =>
    apply (conforms_execute _).bind
    rintro _ _ rfl
    exact rfl
  | iteration => exact returnable_iteration
  | routeAdd body =>
    apply returnable_loadFromMySQL.bind
    intro r φ hφ
    exact returnable_report hφ r
  | routeDelete body =>
    apply (returnable_deleteRoute body).bind
    intro r φ hφ
    exact returnable_report hφ r
  | routeList =>
    apply (returnable_tableJson _ _).bind
    intro r φ hφ
    exact returnable_sendLine hφ r
  | logQuery body =>
    apply (returnable_tableJson _ _).bind
    intro r φ hφ
    exact returnable_sendLine hφ r

end Programs

end Pools
end LFGateway
