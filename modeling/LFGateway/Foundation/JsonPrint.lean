import Mathlib.Tactic.Ring
import LFGateway.Foundation.JsonStrings

/-!
This module contains texts that are printed as JSON and the conditions under which they are read back as
the values they were printed from, composed from pieces to whole texts.
-/

namespace Foundation
namespace Json

variable {s t a b text lead : Bytes} {v : Value} {P : Prop}

/--
The text begins with a byte that is not white space.
-/
def Solid (s : Bytes) : Prop := ∃ b t, s = b :: t ∧ isBlank b = false

/--
White space, a comma or a closing bracket, or nothing.
-/
def Stops (s : Bytes) : Prop := ∀ b ∈ s.head?, isBlank b = true ∨ b = 44 ∨ b = 93 ∨ b = 125

/--
What stands behind a piece: a comma or a closing bracket.
-/
def Ends (s : Bytes) : Prop := ∃ b t, s = b :: t ∧ (b = 44 ∨ b = 93 ∨ b = 125)

/--
Where `text` stands, a value `v` is read from it alone, and exactly if `P`.
-/
structure Prints (text : Bytes) (v : Value) (P : Prop) : Prop where
  reads : P → IsValue text v
  only : ∀ s a b, IsValue s v → Stops a → Stops b → s ++ a = text ++ b → s = text ∧ a = b ∧ P
  solid : Solid text

theorem Prints.congr {Q : Prop} (h : Prints text v P) (hiff : P ↔ Q) : Prints text v Q := by
  rwa [propext hiff] at h

theorem Solid.append (h : Solid s) : Solid (s ++ a) := by
  obtain ⟨b, t, rfl, hb⟩ := h
  exact ⟨b, t ++ a, rfl, hb⟩

theorem Ends.solid (h : Ends s) : Solid s := by
  obtain ⟨b, t, rfl, hb⟩ := h
  refine ⟨b, t, rfl, ?_⟩
  rcases hb with rfl | rfl | rfl <;> decide

theorem Ends.stops (h : Ends s) : Stops s := by
  obtain ⟨b, t, rfl, hb⟩ := h
  rintro _ ⟨⟩
  exact .inr hb

theorem stops_append {trail : Bytes} (htrail : Blank trail) (h : Ends s) : Stops (trail ++ s) := by
  cases trail with
  | nil => exact h.stops
  | cons b trail =>
    rintro _ ⟨⟩
    exact .inl (htrail b List.mem_cons_self)

theorem eq_of_append_eq {p : UInt8 → Prop} {s' : Bytes} (hs : ∀ x ∈ s, p x) (hs' : ∀ x ∈ s', p x)
    (ha : ∀ x ∈ a.head?, ¬p x) (hb : ∀ x ∈ b.head?, ¬p x) (heq : s ++ a = s' ++ b) : s = s' ∧ a = b := by
  induction s generalizing s' with
  | nil =>
    cases s' with
    | nil => exact ⟨rfl, heq⟩
    | cons x s' =>
      rw [List.nil_append] at heq
      have hx : x ∈ a.head? := by rw [heq]; rfl
      exact absurd (hs' x List.mem_cons_self) (ha x hx)
  | cons x s ih =>
    cases s' with
    | nil =>
      rw [List.nil_append] at heq
      have hx : x ∈ b.head? := by rw [← heq]; rfl
      exact absurd (hs x List.mem_cons_self) (hb x hx)
    | cons x' s' =>
      rw [List.cons_append, List.cons_append, List.cons.injEq] at heq
      obtain ⟨rfl, hrest⟩ := heq
      rw [List.forall_mem_cons] at hs hs'
      obtain ⟨rfl, hab⟩ := ih hs.2 hs'.2 hrest
      exact ⟨rfl, hab⟩

theorem Solid.not_isBlank (h : Solid s) : ∀ x ∈ s.head?, ¬isBlank x = true := by
  obtain ⟨b, t, rfl, hb⟩ := h
  rintro _ ⟨⟩
  simp [hb]

theorem Blank.eq {lead' : Bytes} (h : Blank lead) (h' : Blank lead') (ha : Solid a) (hb : Solid b)
    (heq : lead ++ a = lead' ++ b) : lead = lead' ∧ a = b :=
  eq_of_append_eq h h' ha.not_isBlank hb.not_isBlank heq

theorem Blank.notMem {x : UInt8} (h : Blank s) (hx : isBlank x = false) : x ∉ s := by
  intro hmem
  rw [h x hmem] at hx
  contradiction

theorem blank_nil : Blank [] := by simp [Blank]

theorem Blank.eq_nil (h : Blank lead) (ha : Solid a) (hb : Solid b) (heq : lead ++ a = b)
    : lead = [] ∧ a = b :=
  h.eq blank_nil ha hb heq

section Inversion

variable {b : Bool} {q : ℚ} {value : Bytes} {values : List Value} {fields : List (Bytes × Value)}

theorem IsValue.of_null (h : IsValue s .null) : s = Bytes.ofAscii "null" := by
  cases h
  rfl

theorem IsValue.of_bool (h : IsValue s (.bool b)) : s = Bytes.ofAscii (if b then "true" else "false") := by
  cases h with
  | true => rfl
  | false => rfl

theorem IsValue.of_number (h : IsValue s (.number q)) : ∃ n : Number, s = n.text ∧ n.value = q := by
  cases h with
  | number n => exact ⟨n, rfl, rfl⟩

theorem IsValue.of_string (h : IsValue s (.string value))
    : ∃ src, s = 34 :: (src ++ [34]) ∧ Denotes src value := by
  cases h with
  | string hsrc => exact ⟨_, rfl, hsrc⟩

theorem IsValue.of_array (h : IsValue s (.array values))
    : ∃ (blank : Bytes) (elements : List Element),
        s = 91 :: (content blank (elements.map Element.padded) ++ [93]) ∧
        elements.map Element.value = values ∧ Blank blank ∧
        ∀ e ∈ elements, Blank e.lead ∧ Blank e.trail ∧ IsValue e.text e.value := by
  cases h with
  | array hblank hlead htrail h =>
    exact ⟨_, _, rfl, rfl, hblank, fun e he => ⟨hlead e he, htrail e he, h e he⟩⟩

theorem IsValue.of_object (h : IsValue s (.object fields))
    : ∃ (blank : Bytes) (members : List Member),
        s = 123 :: (content blank (members.map Member.padded) ++ [125]) ∧
        members.map (fun m => (m.name, m.value)) = fields ∧ Blank blank ∧
        ∀ m ∈ members, Blank m.lead ∧ Blank m.before ∧ Blank m.behind ∧ Blank m.trail ∧
          Denotes m.source m.name ∧ IsValue m.text m.value := by
  cases h with
  | object hblank hlead hbefore hbehind htrail hname h =>
    refine ⟨_, _, rfl, rfl, hblank, fun m hm => ?_⟩
    exact ⟨hlead m hm, hbefore m hm, hbehind m hm, htrail m hm, hname m hm, h m hm⟩

end Inversion

section Atoms

def IsNumeric (b : UInt8) : Prop := isDigit b = true ∨ b ∈ [43, 45, 46, 69, 101]

instance (b : UInt8) : Decidable (IsNumeric b) := inferInstanceAs (Decidable (_ ∨ _))

theorem Exponent.isNumeric_of_mem (e : Exponent) {b : UInt8} (h : b ∈ e.text) : IsNumeric b := by
  unfold Exponent.text at h
  rw [List.mem_cons, List.mem_append] at h
  rcases h with rfl | hsign | hdigit
  . right
    rcases e.letter_ok with hletter | hletter <;> simp [hletter]
  . right
    rcases e.sign_ok with hempty | hplus | hminus
    . simp [hempty] at hsign
    . simp [hplus] at hsign
      simp [hsign]
    . simp [hminus] at hsign
      simp [hsign]
  . exact .inl (e.digits_ok b hdigit)

theorem Number.isNumeric_of_mem (n : Number) {b : UInt8} (h : b ∈ n.text) : IsNumeric b := by
  unfold Number.text at h
  rw [List.mem_append, List.mem_append, List.mem_append] at h
  rcases h with hsign | hwhole | hfraction | hexponent
  . right
    split at hsign
    . simp [List.mem_singleton.mp hsign]
    . simp at hsign
  . exact .inl (n.whole_ok b hwhole)
  . unfold Number.fractionText at hfraction
    split at hfraction
    . simp at hfraction
    . rw [List.mem_cons] at hfraction
      rcases hfraction with rfl | hdigit
      . right
        simp
      . exact .inl (n.fraction_ok b hdigit)
  . unfold Number.exponentText at hexponent
    cases he : n.exponent with
    | none => simp [he] at hexponent
    | some e =>
      simp only [he, Option.map_some, Option.getD_some] at hexponent
      exact e.isNumeric_of_mem hexponent

theorem Number.exists_text (n : Number) : ∃ b t, n.text = b :: t := by
  unfold Number.text
  cases hwhole : n.whole with
  | nil => exact absurd hwhole n.whole_ne_nil
  | cons b whole =>
    split
    . exact ⟨_, _, rfl⟩
    . exact ⟨_, _, rfl⟩

theorem IsNumeric.isBlank {b : UInt8} (h : IsNumeric b) : isBlank b = false := by
  unfold IsNumeric isDigit at h
  unfold Json.isBlank
  simp only [decide_eq_true_eq, decide_eq_false_iff_not, List.mem_cons, List.not_mem_nil, or_false,
    UInt8.le_iff_toNat_le] at h ⊢
  rintro (rfl | rfl | rfl | rfl) <;> revert h <;> decide

theorem not_isNumeric_of_stops (h : Stops s) : ∀ b ∈ s.head?, ¬IsNumeric b := by
  intro b hb hnumeric
  rcases h b hb with hblank | rfl | rfl | rfl
  . rw [hnumeric.isBlank] at hblank
    contradiction
  . exact absurd hnumeric (by decide)
  . exact absurd hnumeric (by decide)
  . exact absurd hnumeric (by decide)

theorem Number.solid (n : Number) : Solid n.text := by
  obtain ⟨b, t, htext⟩ := n.exists_text
  exact ⟨b, t, htext, (n.isNumeric_of_mem (by simp [htext])).isBlank⟩

theorem IsValue.solid (h : IsValue s v) : Solid s := by
  cases h with
  | null => exact ⟨_, _, rfl, by decide⟩
  | true => exact ⟨_, _, rfl, by decide⟩
  | false => exact ⟨_, _, rfl, by decide⟩
  | number n => exact n.solid
  | string => exact ⟨_, _, rfl, by decide⟩
  | array => exact ⟨_, _, rfl, by decide⟩
  | object => exact ⟨_, _, rfl, by decide⟩

theorem prints_number (n : Number) : Prints n.text (.number n.value) True := by
  refine ⟨fun _ => .number n, ?_, n.solid⟩
  intro s a b h ha hb heq
  obtain ⟨m, rfl, _⟩ := h.of_number
  obtain ⟨htext, hab⟩ := eq_of_append_eq (p := IsNumeric) (fun _ => m.isNumeric_of_mem)
    (fun _ => n.isNumeric_of_mem) (not_isNumeric_of_stops ha) (not_isNumeric_of_stops hb) heq
  exact ⟨htext, hab, trivial⟩

theorem isDigit_of_mem_ofNat {n : Nat} {b : UInt8} (h : b ∈ Bytes.ofNat n) : isDigit b = true := by
  obtain ⟨d, hd, rfl⟩ := Bytes.exists_digit_of_mem_ofNat h
  have hnat := Bytes.toNat_digit hd
  have h48 : (48 : UInt8).toNat = 48 := rfl
  have h57 : (57 : UInt8).toNat = 57 := rfl
  simp only [isDigit, decide_eq_true_eq, UInt8.le_iff_toNat_le]
  omega

theorem no_leading_zero_ofNat (n : Nat) : Bytes.ofNat n = [48] ∨ (Bytes.ofNat n).head? ≠ some 48 := by
  unfold Bytes.ofNat
  split
  . exact .inl rfl
  . next hn =>
    right
    have hne : Nat.digits 10 n ≠ [] := Nat.digits_ne_nil_iff_ne_zero.mpr hn
    rw [List.head?_map, List.head?_reverse, List.getLast?_eq_getLast_of_ne_nil hne]
    intro heq
    have hlast := Nat.getLast_digit_ne_zero 10 hn
    have hlt := Nat.digits_lt_base (by decide : 1 < 10) (List.getLast_mem hne)
    have hnat := congrArg UInt8.toNat (Option.some.inj heq)
    have h48 : (48 : UInt8).toNat = 48 := rfl
    rw [Bytes.toNat_digit hlt, h48] at hnat
    exact hlast (by omega)

def Number.ofInt (n : Int) : Number where
  negative := n < 0
  whole := Bytes.ofNat n.natAbs
  fraction := []
  exponent := none
  whole_ne_nil := Bytes.ofNat_ne_nil _
  whole_ok _ := isDigit_of_mem_ofNat
  no_leading_zero := no_leading_zero_ofNat _
  fraction_ok := by simp

theorem Number.text_ofInt (n : Int) : (ofInt n).text = Bytes.ofInt n := by
  cases n with
  | ofNat n => simp [text, ofInt, fractionText, exponentText, Bytes.ofInt]
  | negSucc n => simp [text, ofInt, fractionText, exponentText, Bytes.ofInt, Int.negSucc_lt_zero]

theorem Number.value_ofInt (n : Int) : (ofInt n).value = n := by
  cases n with
  | ofNat n => simp [value, ofInt]
  | negSucc n => simp [value, ofInt, Int.negSucc_lt_zero]

theorem prints_ofInt (n : Int) : Prints (Bytes.ofInt n) (.number n) True := by
  have hprints := prints_number (Number.ofInt n)
  rwa [Number.text_ofInt, Number.value_ofInt] at hprints

theorem prints_string_of {c value : Bytes} (hplain : P → c = value ∧ Plain value)
    (honly : ∀ r a b, Denotes r value → r ++ 34 :: a = c ++ 34 :: b → r = c ∧ a = b ∧ P)
    : Prints (34 :: (c ++ [34])) (.string value) P := by
  refine ⟨?_, ?_, ⟨_, _, rfl, by decide⟩⟩
  . intro hp
    obtain ⟨rfl, hvalue⟩ := hplain hp
    exact .string hvalue.denotes
  . intro s a b h _ _ heq
    obtain ⟨src, rfl, hsrc⟩ := h.of_string
    simp only [List.cons_append, List.append_assoc, List.nil_append, List.cons.injEq, true_and] at heq
    obtain ⟨rfl, hab, hp⟩ := honly src a b hsrc heq
    exact ⟨rfl, hab, hp⟩

theorem prints_string {c value : Bytes} (h : c <+: value)
    : Prints (34 :: (c ++ [34])) (.string value) (c = value ∧ Plain value) :=
  prints_string_of id fun _ _ _ hdenotes heq => hdenotes.eq_of_prefix heq h

theorem prints_string_of_length_le {c value : Bytes} (h : c.length ≤ value.length)
    (hend : ∀ c', c ≠ c' ++ [92]) : Prints (34 :: (c ++ [34])) (.string value) (c = value ∧ Plain value) :=
  prints_string_of id fun _ _ _ hdenotes heq => hdenotes.eq_of_length_le heq h hend

theorem prints_bool (b b' : Bool)
    : Prints (Bytes.ofAscii (if b then "true" else "false")) (.bool b') (b = b') := by
  refine ⟨?_, ?_, ?_⟩
  . rintro rfl
    cases b with
    | false => exact .false
    | true => exact .true
  . intro s a a' h _ _ heq
    rw [h.of_bool] at heq ⊢
    cases b with
    | false =>
      cases b' with
      | false => exact ⟨rfl, List.append_cancel_left heq, rfl⟩
      | true => simp [Bytes.ofAscii] at heq
    | true =>
      cases b' with
      | false => simp [Bytes.ofAscii] at heq
      | true => exact ⟨rfl, List.append_cancel_left heq, rfl⟩
  . cases b with
    | false => exact ⟨_, _, rfl, by decide⟩
    | true => exact ⟨_, _, rfl, by decide⟩

theorem prints_null {b : UInt8} (hblank : isBlank b = false) (hb : b ≠ 110)
    : Prints (b :: t) .null False := by
  refine ⟨False.elim, ?_, ⟨b, t, rfl, hblank⟩⟩
  intro s a a' h _ _ heq
  rw [h.of_null, List.cons_append] at heq
  exact absurd (List.cons.inj heq).1.symm hb

end Atoms

section Pieces

def Fits (x y : Bytes) (P : Prop) : Prop :=
  ∀ a b, Ends a → Ends b → x ++ a = y ++ b → x = y ∧ a = b ∧ P

variable {α : Type} {f : α → Bytes} {holds : α → Prop} {xs : List Bytes} {ys : List α} {close : UInt8}

theorem commas_fit (h : List.Forall₂ (fun x y => Fits x (f y) (holds y)) xs ys)
    (hclose : close = 93 ∨ close = 125)
    (heq : commas xs ++ close :: a = commas (ys.map f) ++ close :: b)
    : xs = ys.map f ∧ a = b ∧ ∀ y ∈ ys, holds y := by
  have hend (t : Bytes) : Ends (close :: t) := ⟨close, t, rfl, .inr hclose⟩
  induction h with
  | nil =>
    simp only [commas, List.map_nil, List.nil_append, List.cons.injEq, true_and] at heq
    exact ⟨rfl, heq, by simp⟩
  | @cons x y xs ys hfits hrest ih =>
    cases hrest with
    | nil =>
      obtain ⟨rfl, hab, hy⟩ := hfits _ _ (hend a) (hend b) heq
      rw [List.cons.injEq] at hab
      exact ⟨rfl, hab.2, by simpa using hy⟩
    | @cons x' y' xs ys hfits' hrest' =>
      simp only [commas, List.map_cons, List.append_assoc, List.cons_append] at heq ih ⊢
      obtain ⟨rfl, hab, hy⟩ := hfits _ _ ⟨44, _, rfl, .inl rfl⟩ ⟨44, _, rfl, .inl rfl⟩ heq
      rw [List.cons.injEq] at hab
      obtain ⟨hsame, hab', hall⟩ := ih hab.2
      exact ⟨by rw [hsame], hab', List.forall_mem_cons.mpr ⟨hy, hall⟩⟩

theorem content_fit {blank : Bytes} (hblank : Blank blank)
    (h : List.Forall₂ (fun x y => Fits x (f y) (holds y)) xs ys) (hclose : close = 93 ∨ close = 125)
    (heq : content blank xs ++ close :: a = commas (ys.map f) ++ close :: b)
    : content blank xs = commas (ys.map f) ∧ a = b ∧ ∀ y ∈ ys, holds y := by
  have hsolid (t : Bytes) : Solid (close :: t) := Ends.solid ⟨close, t, rfl, .inr hclose⟩
  unfold content at heq ⊢
  split
  . next hnil =>
    subst hnil
    cases h
    rw [if_pos rfl] at heq
    obtain ⟨rfl, hab⟩ := hblank.eq_nil (hsolid a) (hsolid b) heq
    rw [List.cons.injEq] at hab
    exact ⟨rfl, hab.2, by simp⟩
  . next hne =>
    rw [if_neg hne] at heq
    obtain ⟨hsame, hab, hall⟩ := commas_fit h hclose heq
    exact ⟨by rw [hsame], hab, hall⟩

theorem commas_eq_intercalate (xs : List Bytes) : commas xs = List.intercalate [44] xs := by
  match xs with
  | [] => rfl
  | [x] => simp [commas, List.intercalate]
  | x :: y :: xs =>
    have hrest := commas_eq_intercalate (y :: xs)
    rw [commas, hrest]
    simp [List.intercalate, List.intersperse]

theorem content_nil (xs : List Bytes) : content [] xs = commas xs := by
  unfold content
  split
  . next hnil => rw [hnil, commas]
  . rfl

theorem forall₂_of_map_eq {α β γ : Type} {f : α → γ} {g : β → γ} {R : α → β → Prop} {xs : List α}
    {ys : List β} (hmap : xs.map f = ys.map g) (h : ∀ x ∈ xs, ∀ y ∈ ys, f x = g y → R x y)
    : List.Forall₂ R xs ys := by
  induction xs generalizing ys with
  | nil =>
    rw [List.map_nil, eq_comm, List.map_eq_nil_iff] at hmap
    rw [hmap]
    exact .nil
  | cons x xs ih =>
    cases ys with
    | nil => simp at hmap
    | cons y ys =>
      rw [List.map_cons, List.map_cons, List.cons.injEq] at hmap
      refine .cons (h x List.mem_cons_self y List.mem_cons_self hmap.1) (ih hmap.2 ?_)
      exact fun x' hx' y' hy' => h x' (List.mem_cons_of_mem _ hx') y' (List.mem_cons_of_mem _ hy')

end Pieces

section Array

structure PrintedElement where
  text : Bytes
  value : Value
  holds : Prop

theorem fits_element {e : Element} {p : PrintedElement} (hp : Prints p.text p.value p.holds)
    (hlead : Blank e.lead) (htrail : Blank e.trail) (h : IsValue e.text e.value) (hv : e.value = p.value)
    : Fits e.padded p.text p.holds := by
  intro a b ha hb heq
  unfold Element.padded at heq ⊢
  rw [hv] at h
  rw [List.append_assoc, List.append_assoc] at heq
  obtain ⟨hlead, heq⟩ := hlead.eq_nil h.solid.append hp.solid.append heq
  obtain ⟨htext, htail, hholds⟩ := hp.only _ _ _ h (stops_append htrail ha) hb.stops heq
  obtain ⟨htrail, hab⟩ := htrail.eq_nil ha.solid hb.solid htail
  rw [hlead, htrail, htext]
  exact ⟨by simp, hab, hholds⟩

theorem prints_array {ps : List PrintedElement} (h : ∀ p ∈ ps, Prints p.text p.value p.holds)
    : Prints (91 :: (commas (ps.map PrintedElement.text) ++ [93])) (.array (ps.map PrintedElement.value))
        (∀ p ∈ ps, p.holds) := by
  refine ⟨?_, ?_, ⟨_, _, rfl, by decide⟩⟩
  . intro hholds
    have hvalue := @IsValue.array [] (ps.map fun p => ⟨[], p.text, [], p.value⟩) blank_nil
      (by simp [Blank]) (by simp [Blank]) (by
        intro e he
        obtain ⟨p, hp, rfl⟩ := List.mem_map.mp he
        exact (h p hp).reads (hholds p hp))
    have htexts : (ps.map fun p => (⟨[], p.text, [], p.value⟩ : Element)).map Element.padded
        = ps.map PrintedElement.text := by
      rw [List.map_map]
      apply List.map_congr_left
      intro p _
      simp [Element.padded]
    rw [content_nil, htexts, List.map_map] at hvalue
    exact hvalue
  . intro s a b hs _ _ heq
    obtain ⟨blank, elements, rfl, hv, hblank, helements⟩ := hs.of_array
    have hfits : List.Forall₂ (fun x y => Fits x y.text y.holds) (elements.map Element.padded) ps := by
      rw [List.forall₂_map_left_iff]
      apply forall₂_of_map_eq hv
      intro e he p hp hvalue
      obtain ⟨hlead, htrail, htext⟩ := helements e he
      exact fits_element (h p hp) hlead htrail htext hvalue
    simp only [List.cons_append, List.append_assoc, List.nil_append, List.cons.injEq, true_and] at heq
    obtain ⟨hcontent, hab, hall⟩ := content_fit hblank hfits (.inl rfl) heq
    rw [hcontent]
    exact ⟨rfl, hab, hall⟩

end Array

section Object

structure PrintedMember where
  lead : Bytes
  name : Bytes
  behind : Bytes
  text : Bytes
  value : Value
  holds : Prop

namespace PrintedMember

def printed (p : PrintedMember) : Bytes :=
  p.lead ++ 34 :: (p.name ++ 34 :: 58 :: (p.behind ++ p.text))

structure WellFormed (p : PrintedMember) : Prop where
  lead : Blank p.lead
  behind : Blank p.behind
  name : Plain p.name
  prints : Prints p.text p.value p.holds

end PrintedMember

theorem fits_member {m : Member} {p : PrintedMember} (hp : p.WellFormed) (hlead : Blank m.lead)
    (hbefore : Blank m.before) (hbehind : Blank m.behind) (htrail : Blank m.trail)
    (hname : Denotes m.source m.name) (h : IsValue m.text m.value)
    (hv : (m.name, m.value) = (p.name, p.value)) : Fits m.padded p.printed p.holds := by
  have hquote (t : Bytes) : Solid (34 :: t) := ⟨34, t, rfl, by decide⟩
  have hcolon (t : Bytes) : Solid (58 :: t) := ⟨58, t, rfl, by decide⟩
  intro a b ha hb heq
  unfold Member.padded PrintedMember.printed at heq ⊢
  rw [Prod.mk.injEq] at hv
  rw [hv.1] at hname
  rw [hv.2] at h
  simp only [List.append_assoc, List.cons_append] at heq
  obtain ⟨hlead, heq⟩ := hlead.eq hp.lead (hquote _) (hquote _) heq
  rw [List.cons.injEq] at heq
  obtain ⟨hsource, heq, _⟩ := hname.eq_of_prefix heq.2 (List.prefix_refl _)
  obtain ⟨hbefore, heq⟩ := hbefore.eq_nil (hcolon _) (hcolon _) heq
  rw [List.cons.injEq] at heq
  obtain ⟨hbehind, heq⟩ := hbehind.eq hp.behind h.solid.append hp.prints.solid.append heq.2
  obtain ⟨htext, heq, hholds⟩ := hp.prints.only _ _ _ h (stops_append htrail ha) hb.stops heq
  obtain ⟨htrail, hab⟩ := htrail.eq_nil ha.solid hb.solid heq
  rw [hlead, hsource, hbefore, hbehind, htext, htrail]
  exact ⟨by simp, hab, hholds⟩

theorem prints_object {ps : List PrintedMember} (h : ∀ p ∈ ps, p.WellFormed)
    : Prints (123 :: (commas (ps.map PrintedMember.printed) ++ [125]))
        (.object (ps.map fun p => (p.name, p.value))) (∀ p ∈ ps, p.holds) := by
  refine ⟨?_, ?_, ⟨_, _, rfl, by decide⟩⟩
  . intro hholds
    have hvalue := @IsValue.object []
      (ps.map fun p => ⟨p.lead, p.name, [], p.behind, p.text, [], p.name, p.value⟩) blank_nil
      (by simpa using fun p hp => (h p hp).lead) (by simp [Blank])
      (by simpa using fun p hp => (h p hp).behind) (by simp [Blank])
      (by simpa using fun p hp => (h p hp).name.denotes)
      (by simpa using fun p hp => (h p hp).prints.reads (hholds p hp))
    have htexts : (ps.map fun p =>
        (⟨p.lead, p.name, [], p.behind, p.text, [], p.name, p.value⟩ : Member)).map Member.padded
        = ps.map PrintedMember.printed := by
      rw [List.map_map]
      apply List.map_congr_left
      intro p _
      simp [Member.padded, PrintedMember.printed]
    rw [content_nil, htexts, List.map_map] at hvalue
    exact hvalue
  . intro s a b hs _ _ heq
    obtain ⟨blank, members, rfl, hv, hblank, hmembers⟩ := hs.of_object
    have hfits : List.Forall₂ (fun x y => Fits x y.printed y.holds) (members.map Member.padded) ps := by
      rw [List.forall₂_map_left_iff]
      apply forall₂_of_map_eq hv
      intro m hm p hp hvalue
      obtain ⟨hlead, hbefore, hbehind, htrail, hname, htext⟩ := hmembers m hm
      exact fits_member (h p hp) hlead hbefore hbehind htrail hname htext hvalue
    simp only [List.cons_append, List.append_assoc, List.nil_append, List.cons.injEq, true_and] at heq
    obtain ⟨hcontent, hab, hall⟩ := content_fit hblank hfits (.inr rfl) heq
    rw [hcontent]
    exact ⟨rfl, hab, hall⟩

end Object

theorem Prints.isText_iff (h : Prints s v P) : IsText s v ↔ P := by
  constructor
  . rintro ⟨lead, text, trail, hlead, htrail, heq, htext⟩
    obtain ⟨hlead, heq⟩ := hlead.eq_nil htext.solid.append h.solid heq.symm
    have hstops : Stops trail := by
      intro b hb
      exact .inl (htrail b (List.mem_of_mem_head? hb))
    exact (h.only text trail [] htext hstops (by simp [Stops]) (by simpa using heq)).2.2
  . intro hp
    exact ⟨[], s, [], blank_nil, blank_nil, by simp, h.reads hp⟩

end Json
end Foundation
