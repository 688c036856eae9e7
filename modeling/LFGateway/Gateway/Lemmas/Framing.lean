import LFGateway.Http.Framing
import LFGateway.Net.Lemmas.Lifecycle
import LFGateway.Gateway.Lemmas.Api
import LFGateway.Gateway.Lemmas.Sends

/-!
This module contains what the gateway makes of the requests on a connection, from the reads they
arrive in to the answers of `processApiRequest`.
-/

namespace LFGateway

open Foundation

namespace Gateway

variable {α : Type} {h : List ApiEvent} {raw : Bytes} {m : Message}

theorem answer_notMem_of_sends {p : ApiProg α} {a : α} (hsends : Sends 0 p) (hr : Prog.Returns p h a)
    (status : Bytes) : .answer status ∉ visible h := by
  intro hmem
  obtain ⟨e, he, hseen⟩ := List.mem_filterMap.mp hmem
  have hnone := List.countP_eq_zero.mp (hsends h a hr) e he
  split at hseen
  . simp at hseen
  . simp at hseen
  . exact hnone rfl
  . contradiction

theorem badRequest_notMem_processMatched {rule : Handle} {req : HttpRequest} {start : Int}
    (hr : Prog.Returns (processMatched rule req start) h ())
    : .answer (Bytes.ofNat 400) ∉ visible h := by
  unfold processMatched at hr
  obtain ⟨authorized, h₁, h₂, rfl, hauth, hr₁⟩ := Prog.returns_bind.mp hr
  rw [visible_append, visible_checkAuth hauth, List.nil_append]
  cases authorized with
  | false =>
    obtain ⟨_, h₂, rfl, hr₂⟩ := Prog.returns_perform_bind.mp hr₁
    rw [visible_add, visible_sendResponse (by decide) hr₂]
    decide
  | true =>
    obtain ⟨allowed, h₃, h₄, rfl, hcheck, hr₂⟩ := Prog.returns_bind.mp hr₁
    rw [visible_append, List.mem_append, not_or]
    refine ⟨answer_notMem_of_sends (sends_checkLimit rule) hcheck _, ?_⟩
    cases allowed with
    | false =>
      obtain ⟨_, h₄, rfl, hr₃⟩ := Prog.returns_perform_bind.mp hr₂
      rw [visible_add, visible_sendResponse (by decide) hr₃]
      decide
    | true =>
      rw [visible_respond hr₂]
      decide

theorem badRequest_notMem_of_gets {x : Except StdException Unit} (hgets : Gets raw m)
    (hr : Prog.Returns (processApiRequest raw) h x) : .answer (Bytes.ofNat 400) ∉ visible h := by
  unfold processApiRequest at hr
  obtain ⟨_, h₁, rfl, hr₁⟩ := Prog.returns_perform_bind.mp hr
  obtain ⟨start, h₂, rfl, hr₂⟩ := Prog.returns_perform_bind.mp hr₁
  rw [visible_add, visible_steadyNow]
  dsimp only at hr₂
  rw [hgets.1] at hr₂
  obtain ⟨found, h₃, rfl, hr₃⟩ := Prog.returns_perform_bind.mp hr₂
  rw [visible_routerMatch]
  cases found with
  | none =>
    obtain ⟨_, h₄, h₅, rfl, hsend, hrest⟩ := Prog.returns_bind.mp hr₃
    rw [(Prog.returns_pure.mp hrest).1, List.append_nil, visible_sendResponse (by decide) hsend]
    decide
  | some rule =>
    obtain ⟨_, h₄, h₅, rfl, hprocess, hrest⟩ := Prog.returns_bind.mp hr₃
    rw [(Prog.returns_pure.mp hrest).1, List.append_nil]
    exact badRequest_notMem_processMatched hprocess

theorem visible_of_incomplete {x : Except StdException Unit}
    (hparsed : (HttpParser.parse HttpParser.new raw HttpRequest.new).result = .ok false)
    (hr : Prog.Returns (processApiRequest raw) h x)
    : visible h = [.answer (Bytes.ofNat 400)] := by
  unfold processApiRequest at hr
  obtain ⟨_, h₁, rfl, hr₁⟩ := Prog.returns_perform_bind.mp hr
  obtain ⟨start, h₂, rfl, hr₂⟩ := Prog.returns_perform_bind.mp hr₁
  rw [visible_add, visible_steadyNow]
  dsimp only at hr₂
  rw [hparsed] at hr₂
  obtain ⟨_, h₃, h₄, rfl, hsend, hrest⟩ := Prog.returns_bind.mp hr₂
  rw [(Prog.returns_pure.mp hrest).1, List.append_nil]
  exact visible_sendResponse (by decide) hsend

/--
The tasks that were enqueued with `raws` process `messages`, each exactly one, and answer none 400.
-/
structure Processed (raws : List Bytes) (messages : List Message) : Prop where
  gets : List.Forall₂ Gets raws messages
  answered : ∀ raw ∈ raws, ∀ h x, Prog.Returns (processApiRequest raw) h x →
    .answer (Bytes.ofNat 400) ∉ visible h

theorem processed_iff {raws : List Bytes} {messages : List Message}
    : Processed raws messages ↔ List.Forall₂ Gets raws messages := by
  constructor
  . exact Processed.gets
  . intro hgets
    refine ⟨hgets, ?_⟩
    induction hgets with
    | nil => simp
    | cons hfirst _ ih =>
      rw [List.forall_mem_cons]
      exact ⟨fun h x hr => badRequest_notMem_of_gets hfirst hr, ih⟩

end Gateway

namespace Reactor

/--
The requests that were sent on an API connection are processed, each exactly once, if every read
returned the text of one request, and where no header name is repeated and no body left unread, only
then.
-/
theorem processed_iff_read_one_by_one {ls : List Label} {r : Reactor}
    (h : exec step init ls = some r) {c : Nat} (hc : c < r.created)
    (hapi : (r.conn c).server = .api) (messages : List Message)
    (hsent : (r.readsOf c).flatten = (messages.map Message.text).flatten)
    : (r.readsOf c = messages.map Message.text → Gateway.Processed (r.tasksOf c) messages) ∧
      ((∀ m ∈ messages, m.Plain) →
        (Gateway.Processed (r.tasksOf c) messages ↔ r.readsOf c = messages.map Message.text)) := by
  rw [Gateway.processed_iff]
  obtain ⟨_, htasks, hlength⟩ := (inv_exec h).delivered c hc hapi
  have hif : r.readsOf c = messages.map Message.text → List.Forall₂ Gets (r.tasksOf c) messages := by
    intro heq
    rw [htasks, heq]
    apply Message.gets_texts
    intro m hm
    apply hlength
    rw [heq]
    exact List.mem_map_of_mem hm
  refine ⟨hif, ?_⟩
  intro hplain
  constructor
  . intro hgets
    rw [htasks] at hgets
    exact Message.eq_texts_of_gets hgets hplain hlength hsent
  . exact hif

def getRoot : Message where
  method := Bytes.ofAscii "GET"
  path := Bytes.ofAscii "/"
  version := Bytes.ofAscii "HTTP/1.1"
  fields := []
  body := []
  method_clean := by decide
  path_clean := by decide
  version_clean := by decide
  fields_clean := by decide
  framed := by
    intro hpost
    exact absurd hpost (by decide)

def oneByOne : List Label := [
  .accept .api 5,
  .event 0 EPOLLIN (.data getRoot.text) .again [],
  .event 0 EPOLLIN (.data getRoot.text) .again []
]

theorem processed_iff_read_one_by_one_two
    : ∃ r, exec step init oneByOne = some r ∧
        Gateway.Processed (r.tasksOf 0) [getRoot, getRoot] := by
  have hend := Option.eq_some_of_isSome (o := exec step init oneByOne) (by decide)
  exact ⟨_, hend, (processed_iff_read_one_by_one hend (c := 0) (by decide) (by decide)
    [getRoot, getRoot] (by decide)).1 (by decide)⟩

def cutRequest : List Label := [
  .accept .api 5,
  .event 0 EPOLLIN (.data (getRoot.text.take 4)) .again [],
  .event 0 EPOLLIN (.data (getRoot.text.drop 4)) .again []
]

theorem not_processed_cutRequest
    : ∃ r, exec step init cutRequest = some r ∧
        (r.readsOf 0).flatten = getRoot.text ∧
        (∀ raw ∈ r.tasksOf 0, ∀ h x, Prog.Returns (Gateway.processApiRequest raw) h x →
          visible h = [.answer (Bytes.ofNat 400)]) ∧
        ¬Gateway.Processed (r.tasksOf 0) [getRoot] := by
  have hend := Option.eq_some_of_isSome (o := exec step init cutRequest) (by decide)
  refine ⟨_, hend, by decide, ?_, ?_⟩
  . intro raw hraw h x hr
    have hparsed : ∀ raw ∈ ((exec step init cutRequest).get (by decide)).tasksOf 0,
        (HttpParser.parse HttpParser.new raw HttpRequest.new).result = .ok false := by decide
    exact Gateway.visible_of_incomplete (hparsed raw hraw) hr
  . intro hprocessed
    have hlength := hprocessed.gets.length_eq
    contradiction

end Reactor
end LFGateway
