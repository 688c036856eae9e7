import LFGateway.Http.Errors
import LFGateway.Gateway.Lemmas.Delimited
import LFGateway.Gateway.Lemmas.Sends

/-!
This module contains what a request can be answered at all, whatever the table and Redis say: nothing if
the parser throws, else one of a few texts.
-/

namespace LFGateway

open Foundation

def sentTexts (h : List ApiEvent) : List Bytes :=
  h.filterMap fun e =>
    match e.op with
    | .send text => some text
    | _ => none

theorem sentTexts_append (h h' : List ApiEvent) : sentTexts (h ++ h') = sentTexts h ++ sentTexts h' :=
  List.filterMap_append

theorem sentTexts_cons {e : ApiEvent} (he : e.op.isSend = false) (h : List ApiEvent)
    : sentTexts (e :: h) = sentTexts h := by
  obtain ⟨o, r⟩ := e
  cases o with
  | send text => contradiction
  | add | steadyNow | systemNow | routerMatch | readRule | command => rfl

theorem mem_sentTexts {h : List ApiEvent} {text : Bytes}
    : text ∈ sentTexts h ↔ (⟨.send text, ()⟩ : ApiEvent) ∈ h := by
  unfold sentTexts
  rw [List.mem_filterMap]
  constructor
  . rintro ⟨⟨o, r⟩, he, htext⟩
    cases o with
    | send text' =>
      rw [Option.some.injEq] at htext
      subst htext
      exact he
    | add | steadyNow | systemNow | routerMatch | readRule | command => contradiction
  . intro he
    exact ⟨_, he, rfl⟩

theorem length_sentTexts (h : List ApiEvent)
    : (sentTexts h).length = h.countP fun e => e.op.isSend := by
  unfold sentTexts
  rw [List.length_filterMap_eq_countP]
  apply List.countP_congr
  rintro ⟨o, r⟩ _
  cases o <;> simp [ApiOp.isSend]

theorem sentTexts_eq_nil {α : Type} {p : ApiProg α} {h : List ApiEvent} {a : α} (hsends : Sends 0 p)
    (hr : Prog.Returns p h a) : sentTexts h = [] := by
  apply List.eq_nil_of_length_eq_zero
  rw [length_sentTexts, hsends h a hr]

namespace Gateway

variable {raw : Bytes} {h : List ApiEvent} {rule : Handle} {req : HttpRequest} {start : Int}

/--
The answers a request can get, whatever the table and Redis say: a status code and a body each.
-/
def possible (raw : Bytes) : List (Nat × Bytes) :=
  let parsed := HttpParser.parse HttpParser.new raw HttpRequest.new
  match parsed.result with
  | .error _ => []
  | .ok false => [(400, badRequest)]
  | .ok true =>
    [(404, noRoute), (401, unauthorized), (429, rateLimitExceeded), (200, okBody parsed.req.path)]

theorem sentTexts_sendResponse {code : Nat} {body : Bytes}
    (hr : Prog.Returns (sendResponse code body) h ()) : sentTexts h = [responseText code body] := by
  unfold sendResponse perform at hr
  rw [Prog.returns_perform.mp hr]
  rfl

theorem sentTexts_respond (hr : Prog.Returns (respond req start) h ())
    : sentTexts h = [responseText 200 (okBody req.path)] := by
  unfold respond at hr
  obtain ⟨_, h₁, h₂, rfl, hsend, hrest⟩ := Prog.returns_bind.mp hr
  rw [sentTexts_append, sentTexts_sendResponse hsend]
  have hlogs : Sends 0 (do
      let stop ← perform .steadyNow
      let latencyNs := (stop - start).toNat
      perform (.add .totalLatencyUs_ (latencyUs latencyNs))
      LogConsumer.push req.path latencyNs) := by
    apply sends_perform rfl
    intro stop
    exact sends_perform rfl fun _ => LogConsumer.sends_push _ _
  rw [sentTexts_eq_nil hlogs hrest]
  rfl

theorem sentTexts_processMatched (hr : Prog.Returns (processMatched rule req start) h ())
    : ∃ a ∈ [(401, unauthorized), (429, rateLimitExceeded), (200, okBody req.path)],
        sentTexts h = [responseText a.1 a.2] := by
  unfold processMatched at hr
  obtain ⟨authorized, h₁, h₂, rfl, hauth, hr₁⟩ := Prog.returns_bind.mp hr
  rw [sentTexts_append, sentTexts_eq_nil (sends_checkAuth rule req) hauth, List.nil_append]
  cases authorized with
  | false =>
    obtain ⟨_, h₂, rfl, hr₂⟩ := Prog.returns_perform_bind.mp hr₁
    rw [sentTexts_cons rfl]
    exact ⟨(401, unauthorized), by simp, sentTexts_sendResponse hr₂⟩
  | true =>
    obtain ⟨allowed, h₃, h₄, rfl, hcheck, hr₂⟩ := Prog.returns_bind.mp hr₁
    rw [sentTexts_append, sentTexts_eq_nil (sends_checkLimit rule) hcheck, List.nil_append]
    cases allowed with
    | false =>
      obtain ⟨_, h₄, rfl, hr₃⟩ := Prog.returns_perform_bind.mp hr₂
      rw [sentTexts_cons rfl]
      exact ⟨(429, rateLimitExceeded), by simp, sentTexts_sendResponse hr₃⟩
    | true => exact ⟨(200, okBody req.path), by simp, sentTexts_respond hr₂⟩

theorem sentTexts_of_returns {result : Except StdException Unit}
    (hr : Prog.Returns (processApiRequest raw) h result)
    : (possible raw = [] ∧ sentTexts h = []) ∨
        ∃ a ∈ possible raw, sentTexts h = [responseText a.1 a.2] := by
  unfold processApiRequest at hr
  obtain ⟨_, h, rfl, hr₁⟩ := Prog.returns_perform_bind.mp hr
  obtain ⟨start, h, rfl, hr₂⟩ := Prog.returns_perform_bind.mp hr₁
  rw [sentTexts_cons rfl, sentTexts_cons rfl]
  dsimp only at hr₂
  split at hr₂
  . next e hparsed =>
    left
    rw [(Prog.returns_pure.mp hr₂).1]
    exact ⟨by simp only [possible, hparsed], rfl⟩
  . next hparsed =>
    right
    simp only [possible, hparsed]
    obtain ⟨_, h₁, h₂, rfl, hsend, hrest⟩ := Prog.returns_bind.mp hr₂
    rw [(Prog.returns_pure.mp hrest).1, List.append_nil]
    exact ⟨(400, badRequest), by simp, sentTexts_sendResponse hsend⟩
  . next hparsed =>
    right
    simp only [possible, hparsed]
    obtain ⟨found, h, rfl, hr₃⟩ := Prog.returns_perform_bind.mp hr₂
    rw [sentTexts_cons rfl]
    split at hr₃
    . obtain ⟨_, h₁, h₂, rfl, hsend, hrest⟩ := Prog.returns_bind.mp hr₃
      rw [(Prog.returns_pure.mp hrest).1, List.append_nil]
      exact ⟨(404, noRoute), by simp, sentTexts_sendResponse hsend⟩
    . obtain ⟨_, h₁, h₂, rfl, hmatched, hrest⟩ := Prog.returns_bind.mp hr₃
      rw [(Prog.returns_pure.mp hrest).1, List.append_nil]
      obtain ⟨a, ha, hsent⟩ := sentTexts_processMatched hmatched
      exact ⟨a, List.mem_cons_of_mem _ ha, hsent⟩

theorem mem_possible_of_does {now : ApiProg (Except StdException Unit)}
    (hdoes : Prog.Does (processApiRequest raw) h now) {text : Bytes}
    (htext : (⟨.send text, ()⟩ : ApiEvent) ∈ h)
    : ∃ a ∈ possible raw, text = responseText a.1 a.2 := by
  obtain ⟨h', result, hreturns⟩ := hdoes.exists_returns inferInstance
  have hmem : text ∈ sentTexts (h ++ h') :=
    mem_sentTexts.mpr (List.mem_append_left _ htext)
  rcases sentTexts_of_returns hreturns with ⟨_, hnone⟩ | ⟨a, ha, hone⟩
  . rw [hnone] at hmem
    contradiction
  . rw [hone, List.mem_singleton] at hmem
    exact ⟨a, ha, hmem⟩

theorem possible_eq_nil : possible raw = [] ↔ HttpParser.BadLength raw := by
  rw [← HttpParser.throws_iff]
  unfold possible
  dsimp only
  split
  . next e hparsed => simp [hparsed]
  . next hparsed => simp [hparsed]
  . next hparsed => simp [hparsed]

def expected (raw : Bytes) : Nat := if possible raw = [] then 0 else 1

theorem expected_of_returns {result : Except StdException Unit}
    (hr : Prog.Returns (processApiRequest raw) h result)
    : h.countP (fun e => e.op.isSend) = expected raw := by
  rw [← length_sentTexts]
  unfold expected
  rcases sentTexts_of_returns hr with ⟨hnone, hsent⟩ | ⟨a, ha, hsent⟩
  . rw [if_pos hnone, hsent]
    rfl
  . rw [if_neg (List.ne_nil_of_mem ha), hsent]
    rfl

theorem responseText_ne_nil (code : Nat) (body : Bytes) : responseText code body ≠ [] :=
  selfDelimiting.write_ne_nil (code, body)

end Gateway
end LFGateway
