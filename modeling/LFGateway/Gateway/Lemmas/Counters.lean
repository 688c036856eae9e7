import LFGateway.Gateway.Lemmas.Answers
import LFGateway.Gateway.Lemmas.Latency
import LFGateway.Gateway.Lemmas.Texts

/-!
This module contains what the counters that `getStatsJson` prints count: the requests that were taken up
and, but for those that are just being turned away, the answers 401 and 429.
-/

namespace LFGateway

open Foundation

namespace Gateway
namespace Statistics

variable {stat : Stat} {code : Nat} {h h₁ h₂ : List ApiEvent} {raw : Bytes}

inductive Counts : Stat → Nat → Prop where
  | auth : Counts .rejectedAuth_ 401
  | limit : Counts .rejectedLimit_ 429

/--
Nothing in `h` adds to the counter or answers with the code.
-/
def Clean (stat : Stat) (code : Nat) (h : List ApiEvent) : Prop :=
  ∀ e ∈ h, e.op.adds stat = false ∧ ∀ text, e.op = .send text → statusOf text ≠ Bytes.ofNat code

theorem clean_nil : Clean stat code [] := by
  intro e he
  contradiction

theorem Clean.append (h₁ : Clean stat code h) (h₂ : Clean stat code h') : Clean stat code (h ++ h') := by
  intro e he
  rw [List.mem_append] at he
  cases he with
  | inl hleft => exact h₁ e hleft
  | inr hright => exact h₂ e hright

theorem clean_cons {o : ApiOp} {r : o.Reply} (hadds : o.adds stat = false) (hsend : o.isSend = false)
    (hh : Clean stat code h) : Clean stat code (⟨o, r⟩ :: h) := by
  intro e he
  rw [List.mem_cons] at he
  cases he with
  | inl heq =>
    subst heq
    refine ⟨hadds, ?_⟩
    rintro text rfl
    contradiction
  | inr hrest => exact hh e hrest

theorem clean_send {body : Bytes} {code' : Nat} (hcode : (Bytes.ofNat code').length = 3)
    (hne : Bytes.ofNat code' ≠ Bytes.ofNat code)
    : Clean stat code [⟨.send (responseText code' body), ()⟩] := by
  intro e he
  rw [List.mem_singleton] at he
  subst he
  refine ⟨rfl, ?_⟩
  rintro text heq
  rw [ApiOp.send.injEq] at heq
  rw [← heq, statusOf_responseText body hcode]
  exact hne

theorem clean_of_counts {α : Type} {p : ApiProg α} {a : α}
    (hp : ∀ f : ApiOp → Bool, (∀ o, o.isInner = true → f o = false) → p.Counts f 0)
    (hr : Prog.Returns p h a) : Clean stat code h := by
  have hnone := hp (fun o => o.adds stat || o.isSend)
    (fun o ho => by cases o <;> first | rfl | contradiction) h a hr
  rw [List.countP_eq_zero] at hnone
  intro e he
  have hboth := hnone e he
  rw [Bool.or_eq_true, not_or, Bool.not_eq_true, Bool.not_eq_true] at hboth
  refine ⟨hboth.1, ?_⟩
  intro text htext
  rw [htext] at hboth
  exact absurd hboth.2 (by simp [ApiOp.isSend])

/--
A call that counts a rejection does so right before its answer, which is the last thing it does.
-/
def Shape (stat : Stat) (code : Nat) (h : List ApiEvent) : Prop :=
  Clean stat code h ∨ ∃ before body, Clean stat code before ∧
    h = before ++ [⟨.add stat 1, ()⟩, ⟨.send (responseText code body), ()⟩]

theorem Shape.after (hh : Shape stat code h₂) (hclean : Clean stat code h₁)
    : Shape stat code (h₁ ++ h₂) := by
  cases hh with
  | inl hrest => exact .inl (hclean.append hrest)
  | inr hreject =>
    obtain ⟨before, body, hbefore, rfl⟩ := hreject
    exact .inr ⟨h₁ ++ before, body, hclean.append hbefore, (List.append_assoc _ _ _).symm⟩

section Shapes

variable {rule : Handle} {req : HttpRequest} {start : Int}

theorem clean_sendResponse {code' : Nat} {body : Bytes} (hcode : (Bytes.ofNat code').length = 3)
    (hne : Bytes.ofNat code' ≠ Bytes.ofNat code) (hr : Prog.Returns (sendResponse code' body) h ())
    : Clean stat code h := by
  unfold sendResponse perform at hr
  rw [Prog.returns_perform.mp hr]
  exact clean_send hcode hne

theorem clean_respond (hcounts : Counts stat code) (hr : Prog.Returns (respond req start) h ())
    : Clean stat code h := by
  unfold respond at hr
  obtain ⟨_, h₁, h₂, rfl, hsend, hr₁⟩ := Prog.returns_bind.mp hr
  obtain ⟨stop, h₂, rfl, hr₂⟩ := Prog.returns_perform_bind.mp hr₁
  obtain ⟨_, h₂, rfl, hpush⟩ := Prog.returns_perform_bind.mp hr₂
  have hok : Clean stat code h₁ := by
    cases hcounts <;> exact clean_sendResponse (by decide) (by decide) hsend
  have hlog : Clean stat code h₂ := clean_of_counts (fun f hf => LogConsumer.counts_push hf _ _) hpush
  have hlatency : ∀ n, (ApiOp.add .totalLatencyUs_ n).adds stat = false := by
    intro n
    cases hcounts <;> rfl
  exact hok.append (clean_cons rfl rfl (clean_cons (hlatency _) rfl hlog))

theorem shape_processMatched (hcounts : Counts stat code)
    (hr : Prog.Returns (processMatched rule req start) h ()) : Shape stat code h := by
  unfold processMatched at hr
  obtain ⟨authorized, h₁, h₂, rfl, hauth, hr₁⟩ := Prog.returns_bind.mp hr
  have hchecked : Clean stat code h₁ := clean_of_counts (fun f hf => counts_checkAuth hf rule req) hauth
  apply Shape.after _ hchecked
  cases authorized with
  | false =>
    obtain ⟨_, h₂, rfl, hsend⟩ := Prog.returns_perform_bind.mp hr₁
    cases hcounts with
    | auth =>
      unfold sendResponse perform at hsend
      rw [Prog.returns_perform.mp hsend]
      exact .inr ⟨[], unauthorized, clean_nil, rfl⟩
    | limit =>
      exact .inl (clean_cons rfl rfl (clean_sendResponse (by decide) (by decide) hsend))
  | true =>
    obtain ⟨allowed, h₃, h₄, rfl, hcheck, hr₂⟩ := Prog.returns_bind.mp hr₁
    have hlimited : Clean stat code h₃ := clean_of_counts (fun f hf => counts_checkLimit hf rule) hcheck
    apply Shape.after _ hlimited
    cases allowed with
    | false =>
      obtain ⟨_, h₄, rfl, hsend⟩ := Prog.returns_perform_bind.mp hr₂
      cases hcounts with
      | auth =>
        exact .inl (clean_cons rfl rfl (clean_sendResponse (by decide) (by decide) hsend))
      | limit =>
        unfold sendResponse perform at hsend
        rw [Prog.returns_perform.mp hsend]
        exact .inr ⟨[], rateLimitExceeded, clean_nil, rfl⟩
    | true => exact .inl (clean_respond hcounts hr₂)

theorem shape_of_returns (hcounts : Counts stat code) {x : Except StdException Unit}
    (hr : Prog.Returns (processApiRequest raw) h x) : Shape stat code h := by
  unfold processApiRequest at hr
  obtain ⟨_, h, rfl, hr₁⟩ := Prog.returns_perform_bind.mp hr
  obtain ⟨start, h, rfl, hr₂⟩ := Prog.returns_perform_bind.mp hr₁
  have hbegin : Clean stat code [⟨.add .totalRequests_ 1, ()⟩, ⟨.steadyNow, start⟩] := by
    cases hcounts <;> exact clean_cons rfl rfl (clean_cons rfl rfl clean_nil)
  refine Shape.after ?_ hbegin
  dsimp only at hr₂
  split at hr₂
  . rw [(Prog.returns_pure.mp hr₂).1]
    exact .inl clean_nil
  . obtain ⟨_, h₁, h₂, rfl, hsend, hrest⟩ := Prog.returns_bind.mp hr₂
    rw [(Prog.returns_pure.mp hrest).1, List.append_nil]
    cases hcounts <;> exact .inl (clean_sendResponse (by decide) (by decide) hsend)
  . obtain ⟨found, h, rfl, hr₃⟩ := Prog.returns_perform_bind.mp hr₂
    have hmatch : Clean stat code [⟨.routerMatch _, found⟩] := clean_cons rfl rfl clean_nil
    refine Shape.after ?_ hmatch
    split at hr₃
    . obtain ⟨_, h₁, h₂, rfl, hsend, hrest⟩ := Prog.returns_bind.mp hr₃
      rw [(Prog.returns_pure.mp hrest).1, List.append_nil]
      cases hcounts <;> exact .inl (clean_sendResponse (by decide) (by decide) hsend)
    . obtain ⟨_, h₁, h₂, rfl, hmatched, hrest⟩ := Prog.returns_bind.mp hr₃
      rw [(Prog.returns_pure.mp hrest).1, List.append_nil]
      exact shape_processMatched hcounts hmatched

end Shapes

section Calls

variable {s : Calls} {t : Call}

def answered (code : Nat) (t : Call) : Bool :=
  (sentTexts t.history).any fun text => statusOf text = Bytes.ofNat code

def rejecting (stat : Stat) (t : Call) : Bool := t.history.getLast?.any fun e => e.op.adds stat

def thrown (t : Call) : Bool :=
  match t.now with
  | .ret (.error _) => true
  | _ => false

theorem sum_amounts_of_clean (hclean : Clean stat code t.history)
    : (amounts stat t.history).sum = 0 ∧ answered code t = false ∧ rejecting stat t = false := by
  refine ⟨?_, ?_, ?_⟩
  . have hnone : amounts stat t.history = [] := by
      apply List.eq_nil_of_length_eq_zero
      rw [length_amounts, List.countP_eq_zero]
      intro e he
      rw [(hclean e he).1]
      exact Bool.false_ne_true
    rw [hnone]
    rfl
  . unfold answered
    rw [List.any_eq_false]
    intro text htext
    rw [decide_eq_true_eq]
    exact (hclean _ (mem_sentTexts.mp htext)).2 text rfl
  . unfold rejecting
    cases hlast : t.history.getLast? with
    | none => rfl
    | some e => exact (hclean e (List.mem_of_getLast? hlast)).1

theorem amounts_reject {before : List ApiEvent} (hbefore : Clean stat code before)
    : (amounts stat (before ++ [⟨.add stat 1, ()⟩])).sum = 1 := by
  have hnone := (sum_amounts_of_clean (t := ⟨[], before, .ret (.ok ())⟩) hbefore).1
  rw [amounts_append, List.sum_append, hnone]
  simp [amounts]

/--
At every moment a call has added to the counter what it has answered or is about to.
-/
theorem sum_amounts_of_runs (hcounts : Counts stat code)
    (hruns : Threads.Runs processApiRequest (fun _ => True) t)
    : (amounts stat t.history).sum = (answered code t).toNat + (rejecting stat t).toNat := by
  obtain ⟨h', x, hreturns⟩ := hruns.does.exists_returns inferInstance
  have hcode : (Bytes.ofNat code).length = 3 := by
    cases hcounts <;> decide
  have hextends : t.history <+: t.history ++ h' := List.prefix_append _ _
  cases shape_of_returns hcounts hreturns with
  | inl hclean =>
    have hhistory : Clean stat code t.history := fun e he => hclean e (hextends.subset he)
    obtain ⟨hsum, hanswered, hrejecting⟩ := sum_amounts_of_clean hhistory
    rw [hsum, hanswered, hrejecting]
    rfl
  | inr hreject =>
    obtain ⟨before, body, hbefore, heq⟩ := hreject
    have hone := amounts_reject hbefore
    rw [heq, ← List.singleton_append, ← List.append_assoc, List.prefix_concat_iff,
      List.prefix_concat_iff] at hextends
    rcases hextends with hall | hcounted | hclean
    . have hanswered : answered code t = true := by
        unfold answered
        rw [List.any_eq_true]
        refine ⟨responseText code body, ?_, decide_eq_true (statusOf_responseText body hcode)⟩
        rw [mem_sentTexts, hall]
        simp
      have hrejecting : rejecting stat t = false := by
        unfold rejecting
        rw [hall, List.getLast?_concat]
        rfl
      rw [hanswered, hrejecting, hall, amounts_append, List.sum_append, hone]
      rfl
    . have hanswered : answered code t = false := by
        unfold answered
        rw [hcounted, sentTexts_append, List.any_append, Bool.or_eq_false_iff]
        exact ⟨(sum_amounts_of_clean (t := ⟨[], before, .ret (.ok ())⟩) hbefore).2.1, rfl⟩
      have hrejecting : rejecting stat t = true := by
        unfold rejecting
        rw [hcounted, List.getLast?_concat]
        exact decide_eq_true rfl
      rw [hanswered, hrejecting, hcounted, hone]
      rfl
    . have hhistory : Clean stat code t.history := fun e he => hbefore e (hclean.subset he)
      obtain ⟨hsum, hanswered, hrejecting⟩ := sum_amounts_of_clean hhistory
      rw [hsum, hanswered, hrejecting]
      rfl

theorem sum_recorded (hcounts : Counts stat code)
    (hruns : ∀ t ∈ s.threads, Threads.Runs processApiRequest (fun _ => True) t)
    : (recorded stat s).sum
        =
      s.threads.countP (answered code) + s.threads.countP (rejecting stat) := by
  unfold recorded
  generalize s.threads = threads at hruns ⊢
  induction threads with
  | nil => rfl
  | cons t threads ih =>
    obtain ⟨hfirst, hrest⟩ := List.forall_mem_cons.mp hruns
    rw [List.flatMap_cons, List.sum_append, ih hrest, sum_amounts_of_runs hcounts hfirst,
      List.countP_cons, List.countP_cons]
    have htoNat : ∀ b : Bool, (if b = true then 1 else 0) = b.toNat := by decide
    rw [htoNat, htoNat]
    omega

theorem sum_amounts_total (hruns : Threads.Runs processApiRequest (fun _ => True) t)
    : (amounts .totalRequests_ t.history).sum = (!t.history.isEmpty).toNat := by
  obtain ⟨h', x, hreturns⟩ := hruns.does.exists_returns inferInstance
  obtain ⟨later, heq, n, _, htally⟩ := tally_of_returns hreturns
  cases hhistory : t.history with
  | nil => rfl
  | cons e rest =>
    rw [hhistory, List.cons_append, List.cons.injEq] at heq
    obtain ⟨rfl, hrest⟩ := heq
    have hnone : amounts .totalRequests_ rest = [] := by
      apply List.eq_nil_of_length_eq_zero
      rw [length_amounts]
      simp only [tally, Prod.mk.injEq] at htally
      rw [← hrest, List.countP_append] at htally
      omega
    rw [← List.singleton_append, amounts_append, hnone]
    rfl

theorem sum_recorded_total (hruns : ∀ t ∈ s.threads, Threads.Runs processApiRequest (fun _ => True) t)
    : (recorded .totalRequests_ s).sum = s.threads.countP fun t => !t.history.isEmpty := by
  unfold recorded
  generalize s.threads = threads at hruns ⊢
  induction threads with
  | nil => rfl
  | cons t threads ih =>
    obtain ⟨hfirst, hrest⟩ := List.forall_mem_cons.mp hruns
    have htoNat : ∀ b : Bool, (if b = true then 1 else 0) = b.toNat := by decide
    rw [List.flatMap_cons, List.sum_append, ih hrest, sum_amounts_total hfirst, List.countP_cons, htoNat]
    omega

theorem mem_codes {a : Nat × Bytes} (ha : a ∈ possible raw) : a.1 ∈ [200, 400, 401, 404, 429] := by
  unfold possible at ha
  dsimp only at ha
  split at ha
  . contradiction
  . rw [List.mem_singleton] at ha
    subst ha
    decide
  . simp only [List.mem_cons, List.not_mem_nil, or_false] at ha
    rcases ha with rfl | rfl | rfl | rfl <;> simp

structure Ended (t : Call) : Prop where
  rejecting : ∀ stat code, Counts stat code → rejecting stat t = false
  total : (!t.history.isEmpty).toNat = 1
  answered : (answered 200 t).toNat + (answered 400 t).toNat + (answered 401 t).toNat
    + (answered 404 t).toNat + (answered 429 t).toNat + (thrown t).toNat = 1

theorem ended_of_finished (hruns : Threads.Runs processApiRequest (fun _ => True) t)
    (hfinished : Threads.Finished t) : Ended t := by
  obtain ⟨x, hnow⟩ := hfinished
  have hreturns := hruns.does
  rw [hnow] at hreturns
  constructor
  . intro stat code hcounts
    cases shape_of_returns hcounts hreturns with
    | inl hclean => exact (sum_amounts_of_clean hclean).2.2
    | inr hreject =>
      obtain ⟨before, body, _, heq⟩ := hreject
      unfold rejecting
      rw [heq, ← List.singleton_append, ← List.append_assoc, List.getLast?_concat]
      rfl
  . obtain ⟨later, heq, _⟩ := tally_of_returns hreturns
    rw [heq]
    rfl
  . have hthrown : thrown t = true ↔ possible t.input = [] := by
      rw [possible_eq_nil, ← HttpParser.throws_iff, ← throws_of_returns hreturns]
      unfold thrown
      rw [hnow]
      cases x <;> simp
    rcases sentTexts_of_returns hreturns with ⟨hnone, hsent⟩ | ⟨a, ha, hsent⟩
    . simp [answered, hsent, hthrown.mpr hnone]
    . have hnot : thrown t = false := by
        rw [← Bool.not_eq_true, hthrown]
        exact List.ne_nil_of_mem ha
      have hcodes := mem_codes ha
      obtain ⟨code, body⟩ := a
      have hstatus : ∀ code', answered code' t
          = decide (statusOf (responseText code body) = Bytes.ofNat code') := by
        intro code'
        simp [answered, hsent]
      simp only [hstatus, hnot]
      simp only [List.mem_cons, List.not_mem_nil, or_false] at hcodes
      rcases hcodes with rfl | rfl | rfl | rfl | rfl <;>
        rw [statusOf_responseText body (by decide)] <;> decide

theorem countP_of_ended {threads : List Call} (h : ∀ t ∈ threads, Ended t)
    : (threads.countP fun t => !t.history.isEmpty) = threads.countP (answered 200)
        + threads.countP (answered 400) + threads.countP (answered 401) + threads.countP (answered 404)
        + threads.countP (answered 429) + threads.countP thrown := by
  induction threads with
  | nil => rfl
  | cons t threads ih =>
    obtain ⟨hfirst, hrest⟩ := List.forall_mem_cons.mp h
    have htoNat : ∀ b : Bool, (if b = true then 1 else 0) = b.toNat := by decide
    have htotal := hfirst.total
    have hanswered := hfirst.answered
    simp only [List.countP_cons, htoNat]
    rw [ih hrest]
    omega

/--
At every moment the counters are what has happened: `totalRequests_` counts the requests taken up,
`rejectedAuth_` and `rejectedLimit_` the answers 401 and 429 with those just being given. When no call
is left, the requests are the answers and the exceptions.
-/
theorem counters_exact {ls : List Label} {s : Calls} (h : exec step init ls = some s)
    : s.shared .totalRequests_ = UInt64.ofNat (s.threads.countP fun t => !t.history.isEmpty) ∧
        (∀ stat code, Counts stat code →
          s.shared stat
            = UInt64.ofNat (s.threads.countP (answered code) + s.threads.countP (rejecting stat))) ∧
        ((∀ t ∈ s.threads, Threads.Finished t) →
          s.shared .totalRequests_
              = UInt64.ofNat (s.threads.countP (answered 200) + s.threads.countP (answered 400)
                + s.threads.countP (answered 401) + s.threads.countP (answered 404)
                + s.threads.countP (answered 429) + s.threads.countP thrown) ∧
            ∀ stat code, Counts stat code →
              s.shared stat = UInt64.ofNat (s.threads.countP (answered code))) := by
  have hsums := sums_of_exec h
  have hruns : ∀ t ∈ s.threads, Threads.Runs processApiRequest (fun _ => True) t :=
    Threads.runs_exec (fun _ _ _ _ _ _ => trivial) h
  have htotal := hsums .totalRequests_
  rw [sum_recorded_total hruns] at htotal
  have hrejected : ∀ stat code, Counts stat code → s.shared stat
      = UInt64.ofNat (s.threads.countP (answered code) + s.threads.countP (rejecting stat)) := by
    intro stat code hcounts
    rw [hsums stat, sum_recorded hcounts hruns]
  refine ⟨htotal, hrejected, ?_⟩
  intro hidle
  have hended : ∀ t ∈ s.threads, Ended t := fun t ht => ended_of_finished (hruns t ht) (hidle t ht)
  refine ⟨?_, ?_⟩
  . rw [htotal, countP_of_ended hended]
  . intro stat code hcounts
    have hnone : s.threads.countP (rejecting stat) = 0 := by
      rw [List.countP_eq_zero]
      intro t ht
      rw [(hended t ht).rejecting stat code hcounts]
      exact Bool.false_ne_true
    rw [hrejected stat code hcounts, hnone, Nat.add_zero]

def refused (i : Nat) : List Label := [
  .start (getText "/a"), performs i ⟨.add .totalRequests_ 1, ()⟩, performs i ⟨.steadyNow, (0 : Int)⟩,
  performs i ⟨.routerMatch (Bytes.ofAscii "/a"), some (⟨0, 0⟩ : Handle)⟩,
  performs i ⟨.readRule ⟨0, 0⟩, (⟨Bytes.ofAscii "/a", true, 0⟩ : RouteRule)⟩,
  performs i ⟨.command .auth_ (.get (Bytes.ofAscii "token:")), (none : Option RedisReply)⟩,
  performs i ⟨.add .rejectedAuth_ 1, ()⟩,
  performs i ⟨.send (responseText 401 unauthorized), ()⟩
]

theorem counters_exact_refused
    : ∃ s, exec step init (served 0 7 ++ refused 1) = some s ∧ s.threads.countP (answered 401) = 1 ∧
        s.shared .totalRequests_
          = UInt64.ofNat (s.threads.countP (answered 200) + s.threads.countP (answered 400)
            + s.threads.countP (answered 401) + s.threads.countP (answered 404)
            + s.threads.countP (answered 429) + s.threads.countP thrown) ∧
        ∀ stat code, Counts stat code →
          s.shared stat = UInt64.ofNat (s.threads.countP (answered code)) := by
  have hrun : (exec step init (served 0 7 ++ refused 1)).any (fun s =>
      s.threads.countP (answered 401) = 1 ∧ ∀ t ∈ s.threads, Threads.Finished t) = true := by
    decide +kernel
  obtain ⟨s, hs, hend⟩ := (Option.any_eq_true _ _).mp hrun
  obtain ⟨hone, hidle⟩ := of_decide_eq_true hend
  exact ⟨s, hs, hone, (counters_exact hs).2.2 hidle⟩

end Calls

end Statistics
end Gateway
end LFGateway
