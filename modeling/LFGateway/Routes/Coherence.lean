import Mathlib.Data.List.Perm.Basic
import LFGateway.Http.Message
import LFGateway.Routes.Commands

/-!
This module contains when the rules of the router are those of `api_routes` after a management command
reported success. `deleteRoute` reports success once the row is gone, whether or not the rules could be
loaded again.
-/

namespace LFGateway
namespace Routing

open Foundation

section Rows

theorem cStr_ofInt (n : Int) : (Bytes.ofInt n).cStr = Bytes.ofInt n :=
  Bytes.cStr_of_notMem (Bytes.notMem_ofInt (by decide) (by decide) n)

theorem stoi_int (n : Int32) : stoi (Bytes.ofInt n.toInt).cStr = .ok n.toInt := by
  rw [cStr_ofInt]
  exact stoi_ofInt n.le_toInt n.toInt_lt

theorem stoi_tinyint (n : Int8) : stoi (Bytes.ofInt n.toInt).cStr = .ok n.toInt := by
  rw [cStr_ofInt]
  have hlow := n.le_toInt
  have hhigh := n.toInt_lt
  apply stoi_ofInt
  . omega
  . omega

theorem stoi_flag (n : Int8)
    : (stoi (Bytes.ofInt n.toInt).cStr).map (fun n => decide (n ≠ 0)) = .ok (decide (some n ≠ some 0)) := by
  have hzero : n.toInt = 0 ↔ n = 0 := Int8.toInt_inj (y := 0)
  rw [stoi_tinyint, Except.map]
  simp only [ne_eq, hzero, Option.some.injEq]

theorem col_need_auth (route : ApiRoute)
    : route.row.col 4 = route.need_auth.map fun n => (Bytes.ofInt n.toInt).cStr := by
  unfold Row.col ApiRoute.row
  cases route.need_auth <;> rfl

theorem col_rate_limit (route : ApiRoute)
    : route.row.col 5 = route.rate_limit.map fun n => (Bytes.ofInt n.toInt).cStr := by
  unfold Row.col ApiRoute.row
  cases route.rate_limit <;> rfl

theorem ruleOfRow_row (route : ApiRoute) : Router.ruleOfRow route.row = .ok route.rule := by
  have hid : route.row.col 0 = some (Bytes.ofInt route.id.toInt).cStr := rfl
  have hport : route.row.col 3 = some (Bytes.ofInt route.target_port.toInt).cStr := rfl
  unfold Router.ruleOfRow ApiRoute.rule
  simp only [hid, hport, col_need_auth, col_rate_limit, stoi_int]
  cases route.need_auth with
  | none =>
    cases route.rate_limit with
    | none => rfl
    | some rate =>
      simp only [Option.map_some, stoi_int]
      rfl
  | some auth =>
    simp only [Option.map_some, stoi_flag]
    cases route.rate_limit with
    | none => rfl
    | some rate =>
      simp only [Option.map_some, stoi_int]
      rfl

theorem rulesOfRows_map (routes : List ApiRoute)
    : Router.rulesOfRows (routes.map ApiRoute.row) = .ok (routes.map ApiRoute.rule) := by
  induction routes with
  | nil => rfl
  | cons route routes ih =>
    rw [List.map_cons, List.map_cons]
    unfold Router.rulesOfRows
    rw [ruleOfRow_row, ih]
    rfl

end Rows

section Answers

variable {s s' : Routing} {choice : Outcome} {conn : Conn}

theorem answer_acquire {r : Option Conn} (h : answer s .mysqlAcquire choice = some (r, s'))
    : s' = s ∧ ((choice = .throws ∧ r = none) ∨ ∃ conn, choice = .acquired conn ∧ r = some conn) := by
  cases choice with
  | throws | acquired conn =>
    unfold answer at h
    dsimp only at h
    rw [Option.some.injEq, Prod.mk.injEq] at h
    simp [← h.1, ← h.2]
  | done | executed | failed | lost | rows routes => contradiction

theorem answer_select {r : Bool} (h : answer s (.mysqlQuery conn .selectRoutes) choice = some (r, s'))
    : s' = s ∧ ((choice = .executed ∧ r = true) ∨ (choice = .failed ∧ r = false)) := by
  cases choice with
  | executed | failed =>
    unfold answer at h
    dsimp only at h
    rw [Option.some.injEq, Prod.mk.injEq] at h
    simp [← h.1, ← h.2]
  | done | throws | acquired conn | lost | rows routes => contradiction

theorem answer_delete {r : Bool} {routeId : Int}
    (h : answer s (.mysqlQuery conn (.deleteRoute routeId)) choice = some (r, s'))
    : (choice = .executed ∧ r = true ∧ s' = s.delete routeId) ∨
        (choice ≠ .executed ∧ r = false ∧ s'.sent = s.sent) := by
  cases choice with
  | executed | failed | lost =>
    unfold answer at h
    dsimp only at h
    rw [Option.some.injEq, Prod.mk.injEq] at h
    simp [← h.1, ← h.2, delete]
  | done | throws | acquired conn | rows routes => contradiction

theorem answer_storeResult {r : Option (List Row)}
    (h : answer s (.mysqlStoreResult conn) choice = some (r, s'))
    : s' = s ∧ ((choice = .failed ∧ r = none) ∨ ∃ routes, choice = .rows routes ∧
        routes.Perm s.api_routes ∧ r = some (routes.map ApiRoute.row)) := by
  cases choice with
  | failed =>
    unfold answer at h
    dsimp only at h
    rw [Option.some.injEq, Prod.mk.injEq] at h
    simp [← h.1, ← h.2]
  | rows routes =>
    unfold answer at h
    dsimp only at h
    split at h
    . next hperm =>
      rw [Option.some.injEq, Prod.mk.injEq] at h
      exact ⟨h.2.symm, .inr ⟨routes, rfl, hperm, h.1.symm⟩⟩
    . contradiction
  | done | throws | executed | acquired conn | lost => contradiction

theorem answer_release {r : Unit} (h : answer s (.mysqlRelease conn) choice = some (r, s'))
    : choice = .done ∧ s' = s := by
  cases choice with
  | done =>
    unfold answer at h
    dsimp only at h
    rw [Option.some.injEq, Prod.mk.injEq] at h
    exact ⟨rfl, h.2.symm⟩
  | acquired | throws | executed | failed | lost | rows => contradiction

theorem answer_swap {r : Unit} {rules_ : List LoadedRule}
    (h : answer s (.swapRules rules_) choice = some (r, s')) : choice = .done ∧ s' = { s with rules_ } := by
  cases choice with
  | done =>
    unfold answer at h
    dsimp only at h
    rw [Option.some.injEq, Prod.mk.injEq] at h
    exact ⟨rfl, h.2.symm⟩
  | acquired | throws | executed | failed | lost | rows => contradiction

theorem answer_send {r : Unit} {text : Bytes} (h : answer s (.api (.send text)) choice = some (r, s'))
    : choice = .done ∧ s' = { s with sent := s.sent ++ [text] } := by
  cases choice with
  | done =>
    unfold answer at h
    dsimp only at h
    rw [Option.some.injEq, Prod.mk.injEq] at h
    exact ⟨rfl, h.2.symm⟩
  | acquired | throws | executed | failed | lost | rows => contradiction

end Answers

section Programs

variable {s s' : Routing} {outcomes : List Outcome} {json : Bytes} {r : Option Bool}

inductive LoadEnd (s : Routing) (outcomes : List Outcome) : Option Bool → Routing → Prop where
  | threw (hthrows : .throws ∈ outcomes) : LoadEnd s outcomes none s
  | failed (hthrows : .throws ∉ outcomes) (hselected : selected outcomes = none)
      : LoadEnd s outcomes (some false) s
  | loaded (routes : List ApiRoute) (hperm : routes.Perm s.api_routes)
      (hselected : selected outcomes = some routes)
      : LoadEnd s outcomes (some true) { s with rules_ := routes.map ApiRoute.rule }

theorem loadEnd_of_run (h : Router.loadFromMySQL.run answer s outcomes = some (r, s'))
    : LoadEnd s outcomes r s' := by
  unfold Router.loadFromMySQL at h
  obtain ⟨_, outcomes, _, _, rfl, hacquire, h₁⟩ := Prog.run_perform_bind.mp h
  obtain ⟨rfl, ⟨rfl, rfl⟩ | ⟨conn, rfl, rfl⟩⟩ := answer_acquire hacquire
  . obtain ⟨rfl, rfl, rfl⟩ := Prog.run_pure.mp h₁
    exact .threw (by simp)
  . obtain ⟨_, outcomes, _, _, rfl, hselect, h₂⟩ := Prog.run_perform_bind.mp h₁
    obtain ⟨rfl, ⟨rfl, rfl⟩ | ⟨rfl, rfl⟩⟩ := answer_select hselect
    . obtain ⟨_, outcomes, _, _, rfl, hstore, h₃⟩ := Prog.run_perform_bind.mp h₂
      obtain ⟨rfl, ⟨rfl, rfl⟩ | ⟨routes, rfl, hperm, rfl⟩⟩ := answer_storeResult hstore
      . obtain ⟨_, outcomes, _, _, rfl, hrelease, h₄⟩ := Prog.run_perform_bind.mp h₃
        obtain ⟨rfl, rfl⟩ := answer_release hrelease
        obtain ⟨rfl, rfl, rfl⟩ := Prog.run_pure.mp h₄
        exact .failed (by simp) rfl
      . simp only [rulesOfRows_map] at h₃
        obtain ⟨_, outcomes, _, _, rfl, hrelease, h₄⟩ := Prog.run_perform_bind.mp h₃
        obtain ⟨rfl, rfl⟩ := answer_release hrelease
        obtain ⟨_, outcomes, _, _, rfl, hswap, h₅⟩ := Prog.run_perform_bind.mp h₄
        obtain ⟨rfl, rfl⟩ := answer_swap hswap
        obtain ⟨rfl, rfl, rfl⟩ := Prog.run_pure.mp h₅
        exact .loaded routes hperm rfl
    . obtain ⟨_, outcomes, _, _, rfl, hrelease, h₃⟩ := Prog.run_perform_bind.mp h₂
      obtain ⟨rfl, rfl⟩ := answer_release hrelease
      obtain ⟨rfl, rfl, rfl⟩ := Prog.run_pure.mp h₃
      exact .failed (by simp) rfl

def afterDelete (s : Routing) (cmd : MgmtCommand) : Routing :=
  match cmd.routeId with
  | some routeId => s.delete routeId
  | none => s

theorem afterDelete_of_routeId {cmd : MgmtCommand} {routeId : Int} (h : cmd.routeId = some routeId)
    : s.afterDelete cmd = s.delete routeId := by
  unfold afterDelete
  rw [h]

inductive CommandEnd (s : Routing) (cmd : MgmtCommand) (outcomes : List Outcome)
    : Option Bool → Routing → Prop where
  | unsuccessful (r : Option Bool) (s' : Routing) (hr : r ≠ some true) (hsent : s'.sent = s.sent)
      (hnot : cmd.routeId = none ∨ .executed ∉ outcomes ∨ .throws ∈ outcomes)
      : CommandEnd s cmd outcomes r s'
  | stale (routeId : Int) (hid : cmd.routeId = some routeId) (hexecuted : .executed ∈ outcomes)
      (hthrows : .throws ∉ outcomes) (hselected : selected outcomes = none)
      : CommandEnd s cmd outcomes (some true) (s.delete routeId)
  | loaded (routes : List ApiRoute) (hperm : routes.Perm (s.afterDelete cmd).api_routes)
      (hselected : selected outcomes = some routes)
      : CommandEnd s cmd outcomes (some true)
          { s.afterDelete cmd with rules_ := routes.map ApiRoute.rule }

theorem commandEnd_addRoute (h : (Gateway.addRoute json).run answer s outcomes = some (r, s'))
    : CommandEnd s (.routeAdd json) outcomes r s' := by
  cases loadEnd_of_run h with
  | threw hthrows => exact .unsuccessful none s (by simp) rfl (.inl rfl)
  | failed hthrows hselected => exact .unsuccessful (some false) s (by simp) rfl (.inl rfl)
  | loaded routes hperm hselected => exact .loaded routes hperm hselected

theorem routeId_routeDelete {idStr : Bytes} (hid : Gateway.idText json = some idStr)
    : MgmtCommand.routeId (.routeDelete json) = (stoi idStr).toOption := by
  rw [MgmtCommand.routeId, hid, Option.bind_some]

theorem commandEnd_deleteRoute (h : (Gateway.deleteRoute json).run answer s outcomes = some (r, s'))
    : CommandEnd s (.routeDelete json) outcomes r s' := by
  unfold Gateway.deleteRoute at h
  split at h
  . next hid =>
    obtain ⟨rfl, rfl, rfl⟩ := Prog.run_pure.mp h
    exact .unsuccessful _ _ (by simp) rfl (.inl (by simp [MgmtCommand.routeId, hid]))
  . next idStr hid =>
    split at h
    . next e hstoi =>
      obtain ⟨rfl, rfl, rfl⟩ := Prog.run_pure.mp h
      have hrouteId : MgmtCommand.routeId (.routeDelete json) = none := by
        rw [routeId_routeDelete hid, hstoi]
        rfl
      exact .unsuccessful _ _ (by simp) rfl (.inl hrouteId)
    . next routeId hstoi =>
      have hrouteId : MgmtCommand.routeId (.routeDelete json) = some routeId := by
        rw [routeId_routeDelete hid, hstoi]
        rfl
      obtain ⟨_, outcomes, _, _, rfl, hacquire, h₁⟩ := Prog.run_perform_bind.mp h
      obtain ⟨rfl, ⟨rfl, rfl⟩ | ⟨conn, rfl, rfl⟩⟩ := answer_acquire hacquire
      . obtain ⟨rfl, rfl, rfl⟩ := Prog.run_pure.mp h₁
        exact .unsuccessful _ _ (by simp) rfl (by simp)
      . obtain ⟨choice, outcomes, _, _, rfl, hdelete, h₂⟩ := Prog.run_perform_bind.mp h₁
        obtain ⟨_, outcomes, _, _, rfl, hrelease, h₃⟩ := Prog.run_perform_bind.mp h₂
        obtain ⟨rfl, rfl⟩ := answer_release hrelease
        rcases answer_delete hdelete with ⟨rfl, rfl, rfl⟩ | ⟨hne, rfl, hsent⟩
        . obtain ⟨loaded, t, first, rest, rfl, hload, h₄⟩ := Prog.run_bind.mp h₃
          cases loadEnd_of_run hload with
          | threw hthrows =>
            obtain ⟨rfl, rfl, rfl⟩ := Prog.run_pure.mp h₄
            exact .unsuccessful _ _ (by simp) rfl (by simp [hthrows])
          | failed hthrows hselected =>
            obtain ⟨rfl, rfl, rfl⟩ := Prog.run_pure.mp h₄
            apply CommandEnd.stale routeId hrouteId
            . simp
            . simpa using hthrows
            . simpa [selected] using hselected
          | loaded routes hperm hselected =>
            obtain ⟨rfl, rfl, rfl⟩ := Prog.run_pure.mp h₄
            rw [← afterDelete_of_routeId hrouteId] at hperm ⊢
            apply CommandEnd.loaded routes hperm
            rw [List.append_nil]
            exact hselected
        . obtain ⟨rfl, rfl, rfl⟩ := Prog.run_pure.mp h₃
          refine .unsuccessful _ _ (by simp) hsent (.inr (.inl ?_))
          simpa using hne.symm

end Programs

section Coherence

variable {s s' : Routing} {l : Label} {ls : List Label}

/--
The rules are those of the table, in the order in which the query returned the rows.
-/
def Coherent (s : Routing) (returned : Option (List ApiRoute)) : Prop :=
  s.rules_.Perm (s.api_routes.map ApiRoute.rule) ∧
    ∀ routes ∈ returned, s.rules_ = routes.map ApiRoute.rule

/--
If the command reports success, the rules are those of the table, and a route that it deleted is not
among them.
-/
def CoherentReport (s : Routing) (l : Label) : Prop :=
  ∀ s' ∈ step s l, s'.sent = s.sent ++ [MgmtHandler.okText] →
    Coherent s' (selected l.2) ∧ ∀ routeId ∈ l.1.routeId, ∀ rule ∈ s'.rules_, rule.id ≠ routeId

/--
If a row is deleted and nothing throws, the query after that brings the rows, or the rules are those
of the remaining rows already.
-/
def ReloadsOrAgrees (s : Routing) (l : Label) : Prop :=
  .executed ∈ l.2 → .throws ∉ l.2 → selected l.2 = none → ∀ routeId ∈ l.1.routeId,
    s.rules_.Perm ((s.delete routeId).api_routes.map ApiRoute.rule)

instance : Decidable (Coherent s returned) :=
  inferInstanceAs (Decidable (_ ∧ _))

instance : Decidable (ReloadsOrAgrees s l) :=
  inferInstanceAs (Decidable (_ → _ → _ → _))

theorem body_eq (cmd : MgmtCommand) : cmd.body = cmd.call >>= MgmtHandler.report := by
  cases cmd with
  | routeAdd | routeDelete => rfl

theorem report_run {ok : Option Bool} {outcomes : List Outcome}
    (h : (MgmtHandler.report ok).run answer s outcomes = some ((), s'))
    : (ok = none ∧ outcomes = [] ∧ s' = s) ∨
        ∃ text, outcomes = [.done] ∧ s' = { s with sent := s.sent ++ [text] } ∧
          (text = MgmtHandler.okText ↔ ok = some true) := by
  have hsent : ∀ {text : Bytes},
      (Pools.perform (.api (.send text))).run answer s outcomes = some ((), s') →
        outcomes = [.done] ∧ s' = { s with sent := s.sent ++ [text] } := by
    intro text hrun
    obtain ⟨_, outcomes, _, _, rfl, hsend, hrest⟩ := Prog.run_op.mp hrun
    obtain ⟨rfl, rfl⟩ := answer_send hsend
    obtain ⟨rfl, _, rfl⟩ := Prog.run_pure.mp hrest
    exact ⟨rfl, rfl⟩
  match ok with
  | none =>
    obtain ⟨rfl, _, rfl⟩ := Prog.run_pure.mp h
    exact .inl ⟨rfl, rfl, rfl⟩
  | some false =>
    obtain ⟨rfl, rfl⟩ := hsent h
    exact .inr ⟨_, rfl, rfl, by decide⟩
  | some true =>
    obtain ⟨rfl, rfl⟩ := hsent h
    exact .inr ⟨_, rfl, rfl, by decide⟩

theorem CommandEnd.append_done {cmd : MgmtCommand} {outcomes : List Outcome} {r : Option Bool}
    (h : CommandEnd s cmd outcomes r s') : CommandEnd s cmd (outcomes ++ [.done]) r s' := by
  cases h with
  | unsuccessful _ _ hr hsent hnot => exact .unsuccessful _ _ hr hsent (by simpa using hnot)
  | stale routeId hid hexecuted hthrows hselected =>
    apply CommandEnd.stale routeId hid
    . simpa using hexecuted
    . simpa using hthrows
    . simpa [selected] using hselected
  | loaded routes hperm hselected =>
    apply CommandEnd.loaded routes hperm
    simpa [selected] using hselected

theorem commandEnd_of_step (hl : step s l = some s')
    : ∃ r t, CommandEnd s l.1 l.2 r t ∧ s'.api_routes = t.api_routes ∧ s'.rules_ = t.rules_ ∧
        (s'.sent = s.sent ++ [MgmtHandler.okText] ↔ r = some true) := by
  obtain ⟨cmd, outcomes⟩ := l
  unfold step at hl
  rw [Option.map_eq_some_iff] at hl
  obtain ⟨⟨_, _⟩, hrun, rfl⟩ := hl
  dsimp only at hrun ⊢
  rw [body_eq] at hrun
  obtain ⟨r, t, first, rest, rfl, hcall, hreport⟩ := Prog.run_bind.mp hrun
  have hend : CommandEnd s cmd first r t := by
    cases cmd with
    | routeAdd json => exact commandEnd_addRoute hcall
    | routeDelete json => exact commandEnd_deleteRoute hcall
  have hsent : t.sent = s.sent := by
    cases hend with
    | unsuccessful _ _ _ hsent _ => exact hsent
    | stale => rfl
    | loaded =>
      unfold afterDelete
      split <;> rfl
  rcases report_run hreport with ⟨rfl, rfl, rfl⟩ | ⟨text, rfl, rfl, htext⟩
  . rw [List.append_nil]
    refine ⟨none, _, hend, rfl, rfl, ?_⟩
    simp [hsent]
  . refine ⟨r, t, hend.append_done, rfl, rfl, ?_⟩
    rw [← htext, hsent]
    simp

theorem id_ne_of_perm {routeId : Int} {rules_ : List LoadedRule}
    (hperm : rules_.Perm ((s.delete routeId).api_routes.map ApiRoute.rule))
    : ∀ rule ∈ rules_, rule.id ≠ routeId := by
  intro rule hrule
  obtain ⟨route, hroute, rfl⟩ := List.mem_map.mp (hperm.mem_iff.mp hrule)
  have hkept := (List.mem_filter.mp hroute).2
  rw [decide_eq_true_eq] at hkept
  exact hkept

theorem coherentReport_iff_step (hl : step s l = some s') : CoherentReport s l ↔ ReloadsOrAgrees s l := by
  obtain ⟨r, t, hend, hroutes, hrules, hreported⟩ := commandEnd_of_step hl
  have hreport : CoherentReport s l ↔ (r = some true → Coherent s' (selected l.2) ∧
      ∀ routeId ∈ l.1.routeId, ∀ rule ∈ s'.rules_, rule.id ≠ routeId) := by
    unfold CoherentReport
    simp only [hl, Option.mem_def, Option.some.injEq, forall_eq', hreported]
  rw [hreport]
  unfold Coherent
  rw [hroutes, hrules]
  cases hend with
  | unsuccessful _ _ hr hsent hnot =>
    constructor
    . intro _ hexecuted hthrows _ routeId hid
      rcases hnot with hnone | hexecuted' | hthrows'
      . rw [hnone] at hid
        contradiction
      . exact absurd hexecuted hexecuted'
      . exact absurd hthrows' hthrows
    . exact fun _ htrue => absurd htrue hr
  | stale routeId hid hexecuted hthrows hselected =>
    constructor
    . intro hcoherent _ _ _ routeId' hid'
      rw [hid, Option.mem_some_iff] at hid'
      rw [← hid']
      exact (hcoherent rfl).1.1
    . intro hagrees _
      have hperm := hagrees hexecuted hthrows hselected routeId hid
      refine ⟨⟨hperm, by simp [hselected]⟩, ?_⟩
      intro routeId' hid'
      rw [hid, Option.mem_some_iff] at hid'
      rw [← hid']
      exact id_ne_of_perm hperm
  | loaded routes hperm hselected =>
    have hrules : (routes.map ApiRoute.rule).Perm ((s.afterDelete l.1).api_routes.map ApiRoute.rule) :=
      hperm.map ApiRoute.rule
    constructor
    . intro _ _ _ hnone
      rw [hnone] at hselected
      contradiction
    . intro _ _
      refine ⟨⟨hrules, by simp [hselected]⟩, ?_⟩
      intro routeId hid
      rw [afterDelete_of_routeId hid] at hrules
      exact id_ne_of_perm hrules

/--
From whatever table and rules it starts, a run of commands reports success only with the rules of the
table in place exactly if every row that it deletes is followed by a reload that works or needs
nothing.
-/
theorem coherentReport_iff_reloads (h : exec step s ls = some s')
    : Meets step CoherentReport s ls ↔ Meets step ReloadsOrAgrees s ls :=
  meets_congr step _ (fun _ _ _ hl => coherentReport_iff_step hl) h

section Witness

def testRoute : ApiRoute :=
  ⟨1, Bytes.ofAscii "/api/test", Bytes.ofAscii "localhost", 8082, some 1, some 10⟩

def deleteTest : MgmtCommand := .routeDelete (Bytes.ofAscii "\x7b\"id\": 1\x7d")

def filled : Routing := ⟨[testRoute], [testRoute.rule], []⟩

def reloaded : List Label := [(deleteTest,
  [.acquired 0, .executed, .done, .acquired 0, .executed, .rows [], .done, .done, .done])]

theorem coherentReport_iff_reloads_reloaded
    : (exec step filled reloaded).isSome ∧ Meets step CoherentReport filled reloaded := by
  have hend := Option.eq_some_of_isSome (o := exec step filled reloaded) (by decide)
  exact ⟨by decide, (coherentReport_iff_reloads hend).mpr (by decide)⟩

def notReloaded : List Label :=
  [(deleteTest, [.acquired 0, .executed, .done, .acquired 0, .failed, .done, .done])]

theorem not_coherentReport_notReloaded
    : exec step filled notReloaded = some ⟨[], [testRoute.rule], [MgmtHandler.okText]⟩ ∧
        ¬Meets step CoherentReport filled notReloaded := by
  refine ⟨by decide, ?_⟩
  intro hcoherent
  have hreport := hcoherent.1 ⟨[], [testRoute.rule], [MgmtHandler.okText]⟩ (by decide) rfl
  exact absurd hreport.1 (by decide)

end Witness

end Coherence

end Routing
end LFGateway
