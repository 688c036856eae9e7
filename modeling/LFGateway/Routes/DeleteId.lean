import LFGateway.Foundation.JsonPrint
import LFGateway.Http.Message
import LFGateway.Routes.Impl

/-!
This module contains which row `deleteRoute` deletes for a JSON object, whose member `id` it looks for in
the text: behind the first `"id"` it takes the first digits behind the first colon, whatever they are
part of.
-/

namespace LFGateway

open Foundation Foundation.Json

namespace Gateway

/--
`json` is the text of an object with the given members.
-/
def IsObject (json : Bytes) (members : List Json.Member) : Prop :=
  ∃ lead blank trail, Blank lead ∧ Blank blank ∧ Blank trail ∧
    json = lead ++ (123 :: (content blank (members.map Json.Member.padded) ++ [125]) ++ trail) ∧
    ∀ m ∈ members, Blank m.lead ∧ Blank m.before ∧ Blank m.behind ∧ Blank m.trail ∧
      Denotes m.source m.name ∧ IsValue m.text m.value

theorem isText_object_iff {json : Bytes} {fields : List (Bytes × Value)}
    : IsText json (.object fields)
        ↔
      ∃ members, IsObject json members ∧ members.map (fun m => (m.name, m.value)) = fields := by
  constructor
  . rintro ⟨lead, text, trail, hlead, htrail, rfl, htext⟩
    obtain ⟨blank, members, rfl, hfields, hblank, hmembers⟩ := htext.of_object
    exact ⟨members, ⟨lead, blank, trail, hlead, hblank, htrail, rfl, hmembers⟩, hfields⟩
  . rintro ⟨members, ⟨lead, blank, trail, hlead, hblank, htrail, rfl, h⟩, rfl⟩
    refine ⟨lead, _, trail, hlead, htrail, rfl, ?_⟩
    exact .object hblank (fun m hm => (h m hm).1) (fun m hm => (h m hm).2.1)
      (fun m hm => (h m hm).2.2.1) (fun m hm => (h m hm).2.2.2.1) (fun m hm => (h m hm).2.2.2.2.1)
      (fun m hm => (h m hm).2.2.2.2.2)

/--
The number of a literal without fraction and exponent. Minus zero is not negative.
-/
def literal (text : Bytes) : Option Nat :=
  let digits := if text = Bytes.ofAscii "-0" then Bytes.ofAscii "0" else text
  if digits ≠ [] ∧ digits.all isdigit = true then some digits.toNat else none

/--
The id that an object gives: the value of its member `id`, if that is the literal of an `int` that is not
negative. The last one counts if there are several.
-/
def givenId (members : List Json.Member) : Option Nat := do
  let m ← members.reverse.find? fun m => m.name = Bytes.ofAscii "id"
  let n ← literal m.text
  if n < 2 ^ 31 then some n else none

def deletions (h : List (Event PoolOp PoolOp.Reply)) : List Int :=
  h.filterMap fun
    | ⟨.mysqlQuery _ (.deleteRoute routeId), _⟩ => some routeId
    | _ => none

/--
`deleteRoute` sends one `DELETE` with the given id, if it gets a connection at all. Without an id it
returns false and does nothing.
-/
def DeletesGiven (json : Bytes) (given : Option Nat) : Prop :=
  ∀ h result, Prog.Returns (deleteRoute json) h result
    →
  match given with
  | some n => deletions h = [(n : Int)] ∨ h = [⟨.mysqlAcquire, none⟩]
  | none => h = [] ∧ result = some false

def idName : Bytes := Bytes.ofAscii "\"id\""

/--
`digits` are the first digits behind the first colon behind the first `"id"`.
-/
def FirstDigits (json digits : Bytes) : Prop :=
  ∃ before between gap rest,
    json = before ++ (idName ++ (between ++ 58 :: (gap ++ (digits ++ rest)))) ∧
    (∀ b a, json = b ++ (idName ++ a) → before.length ≤ b.length) ∧ 58 ∉ between ∧
    (∀ b ∈ gap, isdigit b = false) ∧ digits ≠ [] ∧ (∀ b ∈ digits, isdigit b = true) ∧
    ∀ b ∈ rest.head?, isdigit b = false

/--
The first digits are those of the id, and there are none without an id.
-/
def FirstDigitsGive (json : Bytes) (given : Option Nat) : Prop :=
  match given with
  | some n => ∃ digits, FirstDigits json digits ∧ digits.toNat = n
  | none => ∀ digits, ¬FirstDigits json digits

variable {json digits : Bytes} {h : List (Event PoolOp PoolOp.Reply)} {result : Option Bool}

section Text

theorem idText_of_firstDigits (h : FirstDigits json digits) : idText json = some digits := by
  obtain ⟨before, between, gap, rest, hjson, hfirst, hbetween, hgap, hne, hdigits, hrest⟩ := h
  have hname : 58 ∉ idName ++ between := by
    rw [List.mem_append, not_or]
    exact ⟨by decide, hbetween⟩
  have hid : json.find idName = some before.length := Bytes.find_eq_some_iff.mpr ⟨_, _, hjson, rfl, hfirst⟩
  have hfront : json.drop before.length = (idName ++ between) ++ 58 :: (gap ++ (digits ++ rest)) := by
    rw [hjson, List.drop_left, List.append_assoc]
  have hcolon : Bytes.findByte 58 (json.drop before.length) = some (idName ++ between).length := by
    rw [hfront]
    exact Bytes.findByte_append_cons hname
  have htail : json.drop (before.length + (idName ++ between).length)
      = 58 :: (gap ++ (digits ++ rest)) := by
    rw [← List.drop_drop, hfront, List.drop_left]
  have hskip : (58 :: (gap ++ (digits ++ rest))).dropWhile (fun b => !isdigit b) = digits ++ rest := by
    rw [List.dropWhile_cons_of_pos (by decide), List.dropWhile_append_of_pos (by simpa using hgap)]
    cases digits with
    | nil => contradiction
    | cons d digits =>
      rw [List.cons_append, List.dropWhile_cons_of_neg]
      simp [hdigits d List.mem_cons_self]
  have htake : (digits ++ rest).takeWhile isdigit = digits := by
    rw [List.takeWhile_append_of_pos hdigits]
    cases rest with
    | nil => simp
    | cons b rest =>
      rw [List.takeWhile_cons_of_neg, List.append_nil]
      simp [hrest b rfl]
  unfold idText
  simp only [Option.bind_eq_bind, Option.bind_eq_some_iff]
  refine ⟨_, hid, _, hcolon, ?_⟩
  rw [htail, hskip, htake, if_neg (by simp [hne])]

theorem head?_dropWhile (p : UInt8 → Bool) (s : Bytes) : ∀ b ∈ (s.dropWhile p).head?, p b = false := by
  intro b hb
  have hnot := List.head?_dropWhile_not p s
  rw [hb] at hnot
  exact hnot

theorem firstDigits_of_idText (h : idText json = some digits) : FirstDigits json digits := by
  unfold idText at h
  simp only [Option.bind_eq_bind, Option.bind_eq_some_iff] at h
  obtain ⟨idPos, hid, colon, hcolon, hdigits⟩ := h
  obtain ⟨before, after, rfl, rfl, hfirst⟩ := Bytes.find_eq_some_iff.mp hid
  rw [← List.drop_drop, List.drop_left] at hdigits
  rw [List.drop_left] at hcolon
  obtain ⟨front, back, hback, rfl, hfront⟩ := Bytes.findByte_eq_some_iff.mp hcolon
  have hname : 58 ∉ Bytes.ofAscii "\"id\"" := by decide
  obtain ⟨between, rfl, rfl⟩ := exists_append_of_notMem hname hback
  rw [hback, List.drop_left, List.dropWhile_cons_of_pos (by decide)] at hdigits
  split at hdigits
  . contradiction
  . next hne =>
    rw [Option.some.injEq] at hdigits
    have hsplit : back = (back.takeWhile fun b => !isdigit b) ++
        (digits ++ (back.dropWhile fun b => !isdigit b).dropWhile isdigit) := by
      rw [← hdigits, List.takeWhile_append_dropWhile, List.takeWhile_append_dropWhile]
    refine ⟨before, between, back.takeWhile fun b => !isdigit b,
      (back.dropWhile fun b => !isdigit b).dropWhile isdigit, ?_, hfirst, ?_, ?_, ?_, ?_, ?_⟩
    . rw [← hsplit]
      rfl
    . exact fun hmem => hfront (List.mem_append_right _ hmem)
    . intro b hb
      simpa using List.mem_takeWhile_imp hb
    . rw [← hdigits]
      cases hrest : back.dropWhile fun b => !isdigit b with
      | nil => exact absurd hrest hne
      | cons d rest =>
        have hd := head?_dropWhile (fun b => !isdigit b) back d (by rw [hrest]; rfl)
        rw [List.takeWhile_cons_of_pos (by simpa using hd)]
        exact List.cons_ne_nil _ _
    . intro b hb
      rw [← hdigits] at hb
      exact List.mem_takeWhile_imp hb
    . exact head?_dropWhile isdigit _

theorem idText_eq_some_iff : idText json = some digits ↔ FirstDigits json digits :=
  ⟨firstDigits_of_idText, idText_of_firstDigits⟩

theorem digits_of_idText (h : idText json = some digits)
    : digits ≠ [] ∧ ∀ b ∈ digits, isdigit b = true := by
  obtain ⟨_, _, _, _, _, _, _, _, hne, hdigits, _⟩ := firstDigits_of_idText h
  exact ⟨hne, hdigits⟩

end Text

section Deletions

theorem deletions_reload (hr : Prog.Returns Router.reload h result) : deletions h = [] := by
  unfold Router.reload Router.loadFromMySQL at hr
  obtain ⟨conn, h, rfl, hr₁⟩ := Prog.returns_perform_bind.mp hr
  cases conn with
  | none =>
    rw [(Prog.returns_pure.mp hr₁).1]
    rfl
  | some conn =>
    obtain ⟨ok, h, rfl, hr₂⟩ := Prog.returns_perform_bind.mp hr₁
    cases ok with
    | false =>
      obtain ⟨_, h, rfl, hr₃⟩ := Prog.returns_perform_bind.mp hr₂
      rw [(Prog.returns_pure.mp hr₃).1]
      rfl
    | true =>
      obtain ⟨rows, h, rfl, hr₃⟩ := Prog.returns_perform_bind.mp hr₂
      cases rows with
      | none =>
        obtain ⟨_, h, rfl, hr₄⟩ := Prog.returns_perform_bind.mp hr₃
        rw [(Prog.returns_pure.mp hr₄).1]
        rfl
      | some rows =>
        dsimp only at hr₃
        split at hr₃
        . rw [(Prog.returns_pure.mp hr₃).1]
          rfl
        . obtain ⟨_, h, rfl, hr₄⟩ := Prog.returns_perform_bind.mp hr₃
          obtain ⟨_, h, rfl, hr₅⟩ := Prog.returns_perform_bind.mp hr₄
          rw [(Prog.returns_pure.mp hr₅).1]
          rfl

theorem returns_of_idText_none (hid : idText json = none)
    : Prog.Returns (deleteRoute json) h result ↔ h = [] ∧ result = some false := by
  unfold deleteRoute
  rw [hid]
  simp only [Prog.returns_pure]
  rw [eq_comm (a := some false)]

theorem returns_of_stoi_error {e : StdException} (hid : idText json = some digits)
    (hstoi : stoi digits = .error e)
    : Prog.Returns (deleteRoute json) h result ↔ h = [] ∧ result = none := by
  unfold deleteRoute
  rw [hid]
  dsimp only
  rw [hstoi]
  simp only [Prog.returns_pure]
  rw [eq_comm (a := none)]

theorem deletions_of_returns {routeId : Int} (hid : idText json = some digits)
    (hstoi : stoi digits = .ok routeId) (hr : Prog.Returns (deleteRoute json) h result)
    : deletions h = [routeId] ∨ h = [⟨.mysqlAcquire, none⟩] := by
  unfold deleteRoute at hr
  rw [hid] at hr
  dsimp only at hr
  rw [hstoi] at hr
  obtain ⟨conn, h, rfl, hr₁⟩ := Prog.returns_perform_bind.mp hr
  cases conn with
  | none =>
    right
    rw [(Prog.returns_pure.mp hr₁).1]
  | some conn =>
    left
    obtain ⟨ok, h, rfl, hr₂⟩ := Prog.returns_perform_bind.mp hr₁
    obtain ⟨_, h, rfl, hr₃⟩ := Prog.returns_perform_bind.mp hr₂
    have hrest : deletions h = [] := by
      cases ok with
      | false =>
        rw [(Prog.returns_pure.mp hr₃).1]
        rfl
      | true =>
        obtain ⟨reloaded, h₁, h₂, rfl, hreload, hr₄⟩ := Prog.returns_bind.mp hr₃
        have hnil : h₂ = [] := by
          cases reloaded with
          | none => exact (Prog.returns_pure.mp hr₄).1
          | some _ => exact (Prog.returns_pure.mp hr₄).1
        rw [hnil, List.append_nil]
        exact deletions_reload hreload
    simp only [deletions, List.filterMap_cons] at hrest ⊢
    rw [hrest]

theorem exists_deletions {routeId : Int} (hid : idText json = some digits)
    (hstoi : stoi digits = .ok routeId)
    : ∃ h result, Prog.Returns (deleteRoute json) h result ∧ deletions h = [routeId] ∧
        h ≠ [⟨.mysqlAcquire, none⟩] := by
  refine ⟨[⟨.mysqlAcquire, some (0 : Nat)⟩, ⟨.mysqlQuery 0 (.deleteRoute routeId), false⟩,
    ⟨.mysqlRelease 0, ()⟩], some false, ?_, rfl, by simp⟩
  unfold deleteRoute
  rw [hid]
  dsimp only
  rw [hstoi]
  exact .cons (.cons (.cons (.nil _)))

theorem deletes_iff_of_idText {n : Nat} (hid : idText json = some digits) (hn : n < 2 ^ 31)
    : DeletesGiven json (some n) ↔ digits.toNat = n := by
  obtain ⟨hne, hdigits⟩ := digits_of_idText hid
  have hstoi := stoi_digits hne hdigits
  constructor
  . intro hgives
    split at hstoi
    . obtain ⟨h, result, hr, hdeletions, hacquired⟩ := exists_deletions hid hstoi
      have hgiven := (hgives h result hr).resolve_right hacquired
      rw [hdeletions, List.cons.injEq] at hgiven
      exact_mod_cast hgiven.1
    . have hgiven := hgives [] none ((returns_of_stoi_error hid hstoi).mpr ⟨rfl, rfl⟩)
      simp [deletions] at hgiven
  . rintro rfl h result hr
    rw [if_pos hn] at hstoi
    exact deletions_of_returns hid hstoi hr

theorem not_deletes_none_of_idText (hid : idText json = some digits) : ¬DeletesGiven json none := by
  obtain ⟨hne, hdigits⟩ := digits_of_idText hid
  have hstoi := stoi_digits hne hdigits
  intro hgives
  split at hstoi
  . obtain ⟨h, result, hr, hdeletions, _⟩ := exists_deletions hid hstoi
    rw [(hgives h result hr).1] at hdeletions
    contradiction
  . have hgiven := hgives [] none ((returns_of_stoi_error hid hstoi).mpr ⟨rfl, rfl⟩)
    simp at hgiven

theorem deletes_iff_of_idText_none (hid : idText json = none) {given : Option Nat}
    : DeletesGiven json given ↔ given = none := by
  constructor
  . intro hgives
    cases given with
    | none => rfl
    | some n =>
      have hgiven := hgives [] (some false) ((returns_of_idText_none hid).mpr ⟨rfl, rfl⟩)
      simp [deletions] at hgiven
  . rintro rfl h result hr
    exact (returns_of_idText_none hid).mp hr

end Deletions

theorem givenId_lt {members : List Json.Member} {n : Nat} (h : givenId members = some n) : n < 2 ^ 31 := by
  unfold givenId at h
  simp only [Option.bind_eq_bind, Option.bind_eq_some_iff] at h
  obtain ⟨_, _, _, _, h⟩ := h
  split at h
  . next hlt => rwa [← Option.some.inj h]
  . contradiction

/--
Among all JSON objects, `deleteRoute` treats those as it should whose first digits behind the first colon
behind the first `"id"` are those of the id, or that have neither. The proof does not ask for an object:
it is the same for any text and any id that it is said to give.
-/
theorem deletesGiven_iff (json : Bytes) (members : List Json.Member)
    : IsObject json members
        →
      (DeletesGiven json (givenId members) ↔ FirstDigitsGive json (givenId members)) := by
  intro _
  unfold FirstDigitsGive
  simp only [← idText_eq_some_iff]
  cases hid : idText json with
  | none =>
    rw [deletes_iff_of_idText_none hid]
    cases givenId members <;> simp
  | some digits =>
    cases hgiven : givenId members with
    | none => simp [not_deletes_none_of_idText hid]
    | some n => simp [deletes_iff_of_idText hid (givenId_lt hgiven)]

section Witness

def idMember (n : Int) : Json.Member :=
  ⟨[], Bytes.ofAscii "id", [], [32], Bytes.ofInt n, [], Bytes.ofAscii "id", .number n⟩

def idObject (n : Int) : Bytes := Bytes.ofAscii "\x7b\"id\": " ++ Bytes.ofInt n ++ Bytes.ofAscii "\x7d"

theorem isObject_idObject (n : Int) : IsObject (idObject n) [idMember n] := by
  have hname : Plain (Bytes.ofAscii "id") := plain_of_ascii (by decide)
  refine ⟨[], [], [], blank_nil, blank_nil, blank_nil, ?_, ?_⟩
  . simp [idObject, idMember, content, commas, Json.Member.padded, Bytes.ofAscii]
  . rw [List.forall_mem_singleton]
    exact ⟨blank_nil, blank_nil, by simp [Blank, isBlank, idMember], blank_nil,
      hname.denotes, (prints_ofInt n).reads trivial⟩

theorem deletesGiven_iff_seven
    : givenId [idMember 7] = some 7 ∧ DeletesGiven (idObject 7) (givenId [idMember 7]) := by
  refine ⟨by decide, (deletesGiven_iff (idObject 7) [idMember 7] (isObject_idObject 7)).mpr ?_⟩
  exact ⟨[55], idText_eq_some_iff.mp (by decide), by decide⟩

/--
The sign is skipped.
-/
theorem not_deletesGiven_negative
    : IsObject (idObject (-5)) [idMember (-5)] ∧ givenId [idMember (-5)] = none ∧
        (∃ h result, Prog.Returns (deleteRoute (idObject (-5))) h result ∧ deletions h = [5]) ∧
        ¬DeletesGiven (idObject (-5)) (givenId [idMember (-5)]) := by
  have hid : idText (idObject (-5)) = some [53] := by decide
  have hgiven : givenId [idMember (-5)] = none := by decide
  have hstoi : stoi [53] = .ok 5 := by decide
  obtain ⟨h, result, hr, hdeletions, _⟩ := exists_deletions hid hstoi
  refine ⟨isObject_idObject _, hgiven, ⟨h, result, hr, hdeletions⟩, ?_⟩
  rw [hgiven]
  exact not_deletes_none_of_idText hid

end Witness

section Objects

theorem literal_of_digits (hne : digits ≠ []) (hdigits : ∀ b ∈ digits, isdigit b = true)
    : literal digits = some digits.toNat := by
  have hminus : digits ≠ Bytes.ofAscii "-0" := by
    rintro rfl
    exact absurd (hdigits 45 List.mem_cons_self) (by decide)
  unfold literal
  rw [if_neg hminus, if_pos ⟨hne, List.all_eq_true.mpr hdigits⟩]

theorem givenId_cons {m : Json.Member} {members : List Json.Member} {n : Nat}
    (hname : m.name = Bytes.ofAscii "id") (hothers : ∀ m' ∈ members, m'.name ≠ Bytes.ofAscii "id")
    (hliteral : literal m.text = some n) (hn : n < 2 ^ 31) : givenId (m :: members) = some n := by
  have hnone : members.reverse.find? (fun m => m.name = Bytes.ofAscii "id") = none := by
    simpa using hothers
  unfold givenId
  simp only [List.reverse_cons, List.find?_append, hnone, Option.none_or, List.find?_singleton, hname,
    decide_true, ↓reduceIte, Option.bind_eq_bind, Option.bind_some, hliteral, if_pos hn]

theorem not_isdigit_of_isBlank {b : UInt8} (h : isBlank b = true) : isdigit b = false := by
  simp only [isBlank, decide_eq_true_eq] at h
  rcases h with rfl | rfl | rfl | rfl <;> decide

theorem exists_commas_cons (piece : Bytes) (pieces : List Bytes)
    : ∃ rest, commas (piece :: pieces) = piece ++ rest ∧ ∀ b ∈ rest.head?, b = 44 := by
  cases pieces with
  | nil => exact ⟨[], by simp [commas], by simp⟩
  | cons next pieces => exact ⟨_, rfl, by simp⟩

theorem firstDigits_of_leading {m : Json.Member} {members : List Json.Member}
    (hobject : IsObject json (m :: members)) (hsource : m.source = Bytes.ofAscii "id")
    (hdigits : ∀ b ∈ m.text, isdigit b = true) : FirstDigits json m.text := by
  obtain ⟨lead, blank, trail, hlead, _, htrail, rfl, hmembers⟩ := hobject
  obtain ⟨hmlead, hbefore, hbehind, hmtrail, _, hvalue⟩ := hmembers m List.mem_cons_self
  obtain ⟨rest, hrest, hcomma⟩ := exists_commas_cons m.padded (members.map Json.Member.padded)
  have hjson : lead ++ (123 :: (content blank ((m :: members).map Json.Member.padded) ++ [125]) ++ trail)
      = (lead ++ 123 :: m.lead) ++ (idName ++ (m.before ++ 58 :: (m.behind ++
          (m.text ++ (m.trail ++ (rest ++ 125 :: trail)))))) := by
    rw [List.map_cons, content, if_neg (List.cons_ne_nil _ _), hrest, Json.Member.padded, hsource]
    simp [idName, Bytes.ofAscii]
  have hfront : 34 ∉ lead ++ 123 :: m.lead := by
    simp [hlead.notMem (x := 34) (by decide), hmlead.notMem (x := 34) (by decide)]
  refine ⟨_, m.before, m.behind, m.trail ++ (rest ++ 125 :: trail), hjson, ?_, ?_, ?_, ?_, hdigits, ?_⟩
  . intro b a heq
    obtain ⟨c, rfl, _⟩ := exists_append_of_notMem hfront (hjson.symm.trans heq)
    simp
  . exact hbefore.notMem (by decide)
  . exact fun b hb => not_isdigit_of_isBlank (hbehind b hb)
  . obtain ⟨b, t, htext, _⟩ := hvalue.solid
    rw [htext]
    exact List.cons_ne_nil _ _
  . cases hmt : m.trail with
    | nil =>
      cases rest with
      | nil =>
        rintro _ ⟨⟩
        decide
      | cons b rest =>
        rintro _ ⟨⟩
        rw [hcomma b rfl]
        decide
    | cons b t =>
      rintro _ ⟨⟩
      exact not_isdigit_of_isBlank (hmtrail b (by simp [hmt]))

/--
The format in which the id is meant to be given: a number, and no other member has the name.
-/
theorem deletesGiven_of_leading {m : Json.Member} {members : List Json.Member}
    (hobject : IsObject json (m :: members)) (hsource : m.source = Bytes.ofAscii "id")
    (hdigits : ∀ b ∈ m.text, isdigit b = true) (hn : m.text.toNat < 2 ^ 31)
    (hothers : ∀ m' ∈ members, m'.name ≠ Bytes.ofAscii "id")
    : givenId (m :: members) = some m.text.toNat ∧ DeletesGiven json (some m.text.toNat) := by
  have hid := idText_of_firstDigits (firstDigits_of_leading hobject hsource hdigits)
  obtain ⟨_, _, _, _, _, _, _, hmembers⟩ := hobject
  obtain ⟨_, _, _, _, hname, hvalue⟩ := hmembers m List.mem_cons_self
  have hne : m.text ≠ [] := by
    obtain ⟨b, t, htext, _⟩ := hvalue.solid
    simp [htext]
  rw [hsource] at hname
  have hdenoted := hname.eq_of_notMem (by decide)
  exact ⟨givenId_cons hdenoted hothers (literal_of_digits hne hdigits) hn,
    (deletes_iff_of_idText hid hn).mpr rfl⟩

end Objects

end Gateway
end LFGateway
