import LFGateway.Gateway.Impl.Requests
import LFGateway.Gateway.Lemmas.Stages
import LFGateway.Pools.Impl.Ops

/-!
This module contains any number of requests that run while the rules are loaded again. `Router::match`
gives out a pointer into `rules_` after its lock, so that a reload in between leaves the request with a
pointer into a table that is gone.
-/

namespace LFGateway

open Foundation

/--
The rules of the router. Every reload that succeeds replaces them and starts a new generation.
-/
structure RuleTable where
  generation : Nat
  rules_ : List LoadedRule

namespace RuleTable

/--
A reply to every operation that is up to the surroundings.
-/
abbrev Replies := (o : ApiOp) → o.Reply

/--
What is read behind a pointer into a table that is gone can be anything.
-/
def answer (table : RuleTable) : (o : ApiOp) → Replies → Option (o.Reply × RuleTable)
  | .routerMatch path, _ =>
    some (Router.match table.generation (table.rules_.map LoadedRule.toRouteRule) path, table)
  | .readRule rule, replies =>
    if rule.generation = table.generation then
      match table.rules_[rule.index]? with
      | some r => some (r.toRouteRule, table)
      | none => none
    else
      some (replies (.readRule rule), table)
  | o, replies => some (replies o, table)

/--
The last step of a reload that succeeds: the rules it has loaded become those of the router. Of what
the command does before, a request cannot see anything.
-/
inductive Reload where
  | swap (newRules : List LoadedRule)
  deriving DecidableEq, Repr

def reload (table : RuleTable) : Reload → Option RuleTable
  | .swap newRules => some ⟨table.generation + 1, newRules⟩

abbrev Requests := Threads ApiOp ApiOp.Reply (Except StdException Unit) Bytes RuleTable

abbrev Label := Threads.Label Bytes Replies Reload

def step : Requests → Label → Option Requests :=
  Threads.step Gateway.processApiRequest answer reload

def init (rules_ : List LoadedRule) : Requests := ⟨⟨0, rules_⟩, []⟩

def IsRead : ApiOp → Prop
  | .readRule _ => True
  | _ => False

/--
If the step reads a rule, the table it points into is still there.
-/
def ReadsCurrent (s : Requests) : Label → Prop
  | .step i _ => ∀ t ∈ s.threads[i]?, ∀ rule next, t.now = .op (.readRule rule) next →
      rule.generation = s.shared.generation
  | _ => True

def Matched (h : List ApiEvent) (rule : Handle) : Prop :=
  ∃ path, (⟨.routerMatch path, some rule⟩ : ApiEvent) ∈ h

/--
The request has been given a rule and may still read it.
-/
def InUse (t : Gateway.Request) : Prop := (∃ rule, Matched t.history rule) ∧ t.now.May IsRead

/--
If the step is a reload, no rule is in use.
-/
def Undisturbed (s : Requests) : Label → Prop
  | .env _ => ∀ t ∈ s.threads, ¬InUse t
  | _ => True

section Phased

variable {raw : Bytes} {h : List ApiEvent} {e : ApiEvent} {rule : Handle} {o : ApiOp}

theorem matched_snoc
    : Matched (h ++ [e]) rule ↔ Matched h rule ∨ ∃ path, e = ⟨.routerMatch path, some rule⟩ := by
  unfold Matched
  rw [← exists_or]
  apply exists_congr
  intro path
  rw [List.mem_append, List.mem_singleton]
  exact or_congr_right eq_comm

/--
A request is in some stage, and it has a rule there exactly if it was matched.
-/
def Phased (t : Gateway.Request) : Prop :=
  ∃ φ, (Gateway.stages t.input).Conforms (fun _ _ => True) φ t.now ∧
    (∀ rule, Matched t.history rule → φ ≠ .arrived) ∧
    ∀ rule, φ.rule = some rule → Matched t.history rule

theorem phased_start (raw : Bytes) : Phased ⟨raw, [], Gateway.processApiRequest raw⟩ := by
  refine ⟨.arrived, Gateway.staged_processApiRequest raw, ?_, ?_⟩
  . rintro rule ⟨path, hmem⟩
    contradiction
  . intro rule hrule
    contradiction

variable {next : o.Reply → ApiProg (Except StdException Unit)}

theorem Phased.snoc (hphased : Phased ⟨raw, h, .op o next⟩) (r : o.Reply)
    : Phased ⟨raw, h ++ [⟨o, r⟩], next r⟩ := by
  obtain ⟨φ, hconforms, harrived, hrule⟩ := hphased
  obtain ⟨φ', hφ', hnext⟩ := hconforms r
  refine ⟨φ', hnext, ?_, ?_⟩
  . intro rule hmatched harrived'
    obtain ⟨rfl, hne⟩ := Gateway.stages_arrived hφ' harrived'
    rcases matched_snoc.mp hmatched with hold | ⟨path, heq⟩
    . exact harrived rule hold rfl
    . exact hne path rule heq
  . intro rule hrule'
    rw [matched_snoc]
    rcases Gateway.stages_rule hφ' hrule' with hold | hnew
    . exact .inl (hrule rule hold)
    . exact .inr hnew

theorem Phased.matched_of_read {next : RouteRule → ApiProg (Except StdException Unit)}
    (hphased : Phased ⟨raw, h, .op (.readRule rule) next⟩) : Matched h rule := by
  obtain ⟨φ, hconforms, _, hrule⟩ := hphased
  obtain ⟨φ', hφ', _⟩ := hconforms ⟨[], false, 0⟩
  exact hrule rule (Gateway.stages_read hφ').1

theorem Phased.not_matched {path : Bytes} {next : Option Handle → ApiProg (Except StdException Unit)}
    (hphased : Phased ⟨raw, h, .op (.routerMatch path) next⟩) : ¬Matched h rule := by
  obtain ⟨φ, hconforms, harrived, _⟩ := hphased
  obtain ⟨φ', hφ', _⟩ := hconforms none
  exact fun hmatched => harrived rule hmatched (Gateway.stages_match hφ').1

end Phased

section Current

variable {s s' : Requests} {l : Label} {ls : List Label} {t : Gateway.Request}

theorem answer_generation {table table' : RuleTable} {o : ApiOp} {replies : Replies} {r : o.Reply}
    (h : answer table o replies = some (r, table')) : table' = table := by
  unfold answer at h
  split at h
  . rw [Option.some.injEq, Prod.mk.injEq] at h
    exact h.2.symm
  . split at h
    . split at h
      . rw [Option.some.injEq, Prod.mk.injEq] at h
        exact h.2.symm
      . contradiction
    . rw [Option.some.injEq, Prod.mk.injEq] at h
      exact h.2.symm
  . rw [Option.some.injEq, Prod.mk.injEq] at h
    exact h.2.symm

theorem generation_of_answer {table table' : RuleTable} {path : Bytes} {replies : Replies} {rule : Handle}
    (h : answer table (.routerMatch path) replies = some (some rule, table'))
    : rule.generation = table.generation := by
  simp only [answer, Option.some.injEq, Prod.mk.injEq] at h
  have hmatch := h.1
  unfold Router.match at hmatch
  rw [Option.map_eq_some_iff] at hmatch
  obtain ⟨index, _, rfl⟩ := hmatch
  rfl

def Known (generation : Nat) (t : Gateway.Request) : Prop :=
  Phased t ∧ ∀ rule, Matched t.history rule → rule.generation ≤ generation

def Current (generation : Nat) (t : Gateway.Request) : Prop :=
  t.now.May IsRead → ∀ rule, Matched t.history rule → rule.generation = generation

theorem matched_of_advance {table table' : RuleTable} {t t' : Gateway.Request} {replies : Replies}
    {rule : Handle} (h : Threads.advance answer table t replies = some (table', t'))
    (hmatched : Matched t'.history rule)
    : Matched t.history rule ∨ rule.generation = table.generation := by
  obtain ⟨o, next, r, _, hanswer, rfl⟩ := Threads.advance_eq_some h
  rcases matched_snoc.mp hmatched with hold | ⟨path, heq⟩
  . exact .inl hold
  . cases heq
    exact .inr (generation_of_answer hanswer)

theorem Known.advance {table table' : RuleTable} {t t' : Gateway.Request} {replies : Replies}
    (hknown : Known table.generation t)
    (h : Threads.advance answer table t replies = some (table', t')) : Known table'.generation t' := by
  constructor
  . obtain ⟨o, next, r, hnow, _, rfl⟩ := Threads.advance_eq_some h
    obtain ⟨raw, history, now⟩ := t
    dsimp only at hnow
    subst hnow
    exact hknown.1.snoc r
  . intro rule hmatched
    obtain ⟨o, next, r, _, hanswer, _⟩ := Threads.advance_eq_some h
    rw [answer_generation hanswer]
    rcases matched_of_advance h hmatched with hold | hnew
    . exact hknown.2 rule hold
    . exact hnew.le

theorem Current.advance {table table' : RuleTable} {t t' : Gateway.Request} {replies : Replies}
    (hcurrent : Current table.generation t)
    (h : Threads.advance answer table t replies = some (table', t')) : Current table'.generation t' := by
  intro hmay rule hmatched
  have hold := matched_of_advance h hmatched
  obtain ⟨o, next, r, hnow, hanswer, rfl⟩ := Threads.advance_eq_some h
  rw [answer_generation hanswer]
  cases hold with
  | inl hold =>
    apply hcurrent _ rule hold
    rw [hnow]
    exact hmay.of_next
  | inr hnew => exact hnew

theorem known_step (hknown : ∀ t ∈ s.threads, Known s.shared.generation t) (hl : step s l = some s')
    : ∀ t ∈ s'.threads, Known s'.shared.generation t := by
  cases l with
  | start raw =>
    rw [Threads.step_start hl]
    intro t ht
    rw [List.mem_append, List.mem_singleton] at ht
    cases ht with
    | inl hold => exact hknown t hold
    | inr heq =>
      rw [heq]
      exact ⟨phased_start raw, by rintro rule ⟨path, hmem⟩; contradiction⟩
  | step i replies =>
    obtain ⟨t, table, t', ht, hadvance, rfl⟩ := Threads.step_step hl
    intro u hu
    obtain ⟨o, next, r, _, hanswer, _⟩ := Threads.advance_eq_some hadvance
    cases List.mem_or_eq_of_mem_set hu with
    | inl hold =>
      rw [answer_generation hanswer]
      exact hknown u hold
    | inr heq =>
      rw [heq]
      exact (hknown t (List.mem_of_getElem? ht)).advance hadvance
  | env e =>
    cases e with
    | swap newRules =>
      simp only [step, Threads.step, reload, Option.some.injEq] at hl
      rw [← hl]
      intro t ht
      refine ⟨(hknown t ht).1, fun rule hmatched => ?_⟩
      exact Nat.le_succ_of_le ((hknown t ht).2 rule hmatched)

theorem current_step (hcurrent : ∀ t ∈ s.threads, Current s.shared.generation t)
    (hundisturbed : Undisturbed s l) (hl : step s l = some s')
    : ∀ t ∈ s'.threads, Current s'.shared.generation t := by
  cases l with
  | start raw =>
    rw [Threads.step_start hl]
    intro t ht
    rw [List.mem_append, List.mem_singleton] at ht
    cases ht with
    | inl hold => exact hcurrent t hold
    | inr heq =>
      rw [heq]
      rintro _ rule ⟨path, hmem⟩
      contradiction
  | step i replies =>
    obtain ⟨t, table, t', ht, hadvance, rfl⟩ := Threads.step_step hl
    intro u hu
    obtain ⟨o, next, r, _, hanswer, _⟩ := Threads.advance_eq_some hadvance
    cases List.mem_or_eq_of_mem_set hu with
    | inl hold =>
      rw [answer_generation hanswer]
      exact hcurrent u hold
    | inr heq =>
      rw [heq]
      exact (hcurrent t (List.mem_of_getElem? ht)).advance hadvance
  | env e =>
    -- what may still be read was not matched
    intro t ht hmay rule hmatched
    rw [Threads.step_env hl] at ht
    exact absurd ⟨⟨rule, hmatched⟩, hmay⟩ (hundisturbed t ht)

theorem readsCurrent_of_current (hknown : ∀ t ∈ s.threads, Known s.shared.generation t)
    (hcurrent : ∀ t ∈ s.threads, Current s.shared.generation t) : ReadsCurrent s l := by
  cases l with
  | start raw => trivial
  | step i replies =>
    intro t ht rule next hnow
    have hmem := List.mem_of_getElem? ht
    have hphased := (hknown t hmem).1
    have hcurrent := hcurrent t hmem
    obtain ⟨raw, history, now⟩ := t
    dsimp only at hnow
    subst hnow
    exact hcurrent (.inl trivial) rule hphased.matched_of_read
  | env e => trivial

theorem readsCurrent_of_undisturbed (hknown : ∀ t ∈ s.threads, Known s.shared.generation t)
    (hcurrent : ∀ t ∈ s.threads, Current s.shared.generation t)
    (hundisturbed : Meets step Undisturbed s ls) : Meets step ReadsCurrent s ls := by
  induction ls generalizing s with
  | nil => trivial
  | cons l ls ih =>
    refine ⟨readsCurrent_of_current hknown hcurrent, ?_⟩
    split
    . next s' hl =>
      obtain ⟨hfirst, hrest⟩ := hundisturbed.cons _ _ hl
      exact ih (known_step hknown hl) (current_step hcurrent hfirst hl) hrest
    . trivial

end Current

section Stale

variable {s s' : Requests} {ls : List Label} {i : Nat}

def silent : Replies
  | .add _ _ => ()
  | .steadyNow => (0 : Int)
  | .systemNow => (0 : Int)
  | .routerMatch _ => none
  | .readRule _ => (⟨[], false, 0⟩ : RouteRule)
  | .command _ _ => none
  | .send _ => ()

theorem answer_update {table : RuleTable} {o : ApiOp} (hread : ¬IsRead o)
    (hmatch : ∀ path, o ≠ .routerMatch path) (r : o.Reply)
    : answer table o (Function.update silent o r) = some (r, table) := by
  cases o with
  | routerMatch path => exact absurd rfl (hmatch path)
  | readRule rule => exact absurd trivial hread
  | add | steadyNow | systemNow | command | send => simp [answer]

/--
A request that may read a rule of an earlier table can be brought to do so, with nothing else going on.
-/
theorem exists_stale_read {raw : Bytes} {h : List ApiEvent} {now : ApiProg (Except StdException Unit)}
    (ht : s.threads[i]? = some ⟨raw, h, now⟩) (hphased : Phased ⟨raw, h, now⟩)
    (hmatched : ∃ rule, Matched h rule)
    (hold : ∀ rule, Matched h rule → rule.generation < s.shared.generation) (hmay : now.May IsRead)
    : ∃ ls : List Label, (∀ e, .env e ∉ ls) ∧ ¬Meets step ReadsCurrent s ls := by
  induction now generalizing s h with
  | ret a => exact absurd hmay id
  | op o next ih =>
    by_cases hread : IsRead o
    . cases o with
      | readRule rule =>
        refine ⟨[.step i silent], by simp, ?_⟩
        intro hcurrent
        have heq := hcurrent.1 _ ht rule next rfl
        have hlt := hold rule hphased.matched_of_read
        omega
      | add | steadyNow | systemNow | routerMatch | command | send => exact absurd hread id
    . obtain ⟨r, hnext⟩ := hmay.resolve_left hread
      have hmatch : ∀ path, o ≠ .routerMatch path := by
        rintro path rfl
        obtain ⟨rule, hmatched⟩ := hmatched
        exact hphased.not_matched hmatched
      have hanswer : answer s.shared o (Function.update silent o r) = some (r, s.shared) :=
        answer_update hread hmatch r
      have hl : step s (.step i (Function.update silent o r)) =
          some ⟨s.shared, s.threads.set i ⟨raw, h ++ [⟨o, r⟩], next r⟩⟩ :=
        Threads.step_of_answer ht rfl hanswer
      have hkeeps : ∀ rule, Matched (h ++ [⟨o, r⟩]) rule ↔ Matched h rule := by
        intro rule
        rw [matched_snoc, or_iff_left]
        rintro ⟨path, heq⟩
        exact hmatch path (congrArg Event.op heq)
      obtain ⟨ls, hquiet, hstale⟩ := ih r
        (s := ⟨s.shared, s.threads.set i ⟨raw, h ++ [⟨o, r⟩], next r⟩⟩) (h := h ++ [⟨o, r⟩])
        (List.getElem?_set_self (List.getElem?_eq_some_iff.mp ht).1) (hphased.snoc r)
        (by simpa only [hkeeps] using hmatched) (by simpa only [hkeeps] using hold) hnext
      refine ⟨.step i (Function.update silent o r) :: ls, by simpa using hquiet, ?_⟩
      intro hcurrent
      exact hstale (hcurrent.cons _ _ hl).2

/--
A reload while a rule is in use: a read of the table that is gone may follow.
-/
theorem exists_stale_read_of_inUse {newRules : List LoadedRule} {t : Gateway.Request}
    (hknown : ∀ t ∈ s.threads, Known s.shared.generation t) (ht : t ∈ s.threads) (huse : InUse t)
    : ∃ ls : List Label, (∀ e, .env e ∉ ls) ∧
        ¬Meets step ReadsCurrent s (.env (.swap newRules) :: ls) := by
  obtain ⟨i, hi⟩ := List.getElem?_of_mem ht
  have hl : step s (.env (.swap newRules)) = some ⟨⟨s.shared.generation + 1, newRules⟩, s.threads⟩ := rfl
  have hold : ∀ rule, Matched t.history rule → rule.generation < s.shared.generation + 1 :=
    fun rule hmatched => Nat.lt_succ_of_le ((hknown t ht).2 rule hmatched)
  obtain ⟨ls, hquiet, hstale⟩ := exists_stale_read
    (s := ⟨⟨s.shared.generation + 1, newRules⟩, s.threads⟩) hi (hknown t ht).1 huse.1 hold huse.2
  refine ⟨ls, hquiet, ?_⟩
  intro hcurrent
  exact hstale (hcurrent.cons _ _ hl).2

end Stale

/--
In a run whose reloads come only when no rule is in use, every read is of the present table. Any other
reload may be followed by a read of the table that is gone, without another one.
-/
theorem readsCurrent_and_sharp {rules_ : List LoadedRule} {ls : List Label} {s : Requests}
    (h : exec step (init rules_) ls = some s)
    : (Meets step Undisturbed (init rules_) ls → Meets step ReadsCurrent (init rules_) ls) ∧
        ∀ e, ¬Undisturbed s (.env e) → ∃ ls', (∀ e, .env e ∉ ls') ∧
          ¬Meets step ReadsCurrent (init rules_) (ls ++ .env e :: ls') := by
  have hstart : ∀ t ∈ (init rules_).threads, Known (init rules_).shared.generation t := by
    intro t ht
    contradiction
  constructor
  . apply readsCurrent_of_undisturbed hstart
    intro t ht
    contradiction
  . rintro ⟨newRules⟩ hdisturbed
    have hknown := exec_invariant step
      (P := fun s : Requests => ∀ t ∈ s.threads, Known s.shared.generation t)
      (fun _ _ _ hs hl => known_step hs hl) hstart h
    simp only [Undisturbed, not_forall, not_not] at hdisturbed
    obtain ⟨t, ht, huse⟩ := hdisturbed
    obtain ⟨ls', hquiet, hstale⟩ := exists_stale_read_of_inUse hknown ht huse
    refine ⟨ls', hquiet, ?_⟩
    rw [meets_append_iff _ _ h]
    exact fun hcurrent => hstale hcurrent.2

section Witness

def root (needAuth : Bool) : LoadedRule := ⟨⟨[47], needAuth, 0⟩, 1, [], 0⟩

def getRoot : Bytes := Bytes.ofAscii "GET / HTTP/1.1\r\n\r\n"

def reloadFirst : List Label := [
  .start getRoot,
  .step 0 silent,
  .step 0 silent,
  .env (.swap [root false]),
  .step 0 silent,
  .step 0 silent
]

theorem readsCurrent_and_sharp_reloadFirst
    : (exec step (init [root true]) reloadFirst).isSome ∧
        Meets step ReadsCurrent (init [root true]) reloadFirst := by
  have hend := Option.eq_some_of_isSome (o := exec step (init [root true]) reloadFirst) (by decide)
  refine ⟨by decide, (readsCurrent_and_sharp hend).1 ?_⟩
  refine ⟨trivial, trivial, trivial, ?_, trivial, trivial, trivial⟩
  intro t ht huse
  rw [List.mem_singleton.mp ht] at huse
  obtain ⟨⟨rule, path, hmem⟩, _⟩ := huse
  simp at hmem

def reloadBetween : List Label := [
  .start getRoot,
  .step 0 silent,
  .step 0 silent,
  .step 0 silent,
  .env (.swap [root false]),
  .step 0 silent
]

theorem not_readsCurrent_reloadBetween
    : (exec step (init [root true]) reloadBetween).isSome ∧
        ¬Meets step ReadsCurrent (init [root true]) reloadBetween := by
  refine ⟨by decide, ?_⟩
  intro hcurrent
  have hread := hcurrent.2.2.2.2.2.1 _ rfl _ _ rfl
  exact absurd hread (by decide)

end Witness

end RuleTable
end LFGateway
