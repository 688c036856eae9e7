import LFGateway.Foundation.Bytes

/-!
This module contains string literals as MySQL reads them by default, and which texts stand for themselves
between quotes.
-/

namespace Foundation
namespace Sql

def escape (c : UInt8) : Bytes :=
  if c = 48 then [0]
  else if c = 98 then [8]
  else if c = 110 then [10]
  else if c = 114 then [13]
  else if c = 116 then [9]
  else if c = 90 then [26]
  else if c = 37 ∨ c = 95 then [92, c]
  else [c]

/--
The literal whose opening quote was read: its value, and the text behind the closing quote.
-/
def quoted : Bytes → Option (Bytes × Bytes)
  | [] => none
  | [b] => if b = 39 then some ([], []) else none
  | b :: c :: s =>
    if b = 39 then
      if c = 39 then
        (quoted s).map fun (value, rest) => (39 :: value, rest)
      else
        some ([], c :: s)
    else if b = 92 then
      (quoted s).map fun (value, rest) => (escape c ++ value, rest)
    else
      (quoted (c :: s)).map fun (value, rest) => (b :: value, rest)

inductive Denotes : Bytes → Bytes → Prop where
  | nil : Denotes [] []
  | quote {src value : Bytes} (h : Denotes src value) : Denotes (39 :: 39 :: src) (39 :: value)
  | escape {src value : Bytes} (c : UInt8) (h : Denotes src value)
    : Denotes (92 :: c :: src) (escape c ++ value)
  | byte {src value : Bytes} {b : UInt8} (hquote : b ≠ 39) (hbackslash : b ≠ 92)
      (h : Denotes src value) : Denotes (b :: src) (b :: value)

variable {s src value rest : Bytes}

theorem denotes_of_quoted (h : quoted s = some (value, rest))
    : ∃ src, s = src ++ 39 :: rest ∧ Denotes src value := by
  induction s using quoted.induct generalizing value with
  | case1 => contradiction
  | case2 =>
    simp only [quoted, ↓reduceIte, Option.some.injEq, Prod.mk.injEq] at h
    obtain ⟨rfl, rfl⟩ := h
    exact ⟨[], rfl, .nil⟩
  | case3 b hb =>
    simp only [quoted, if_neg hb] at h
    contradiction
  | case4 s ih =>
    simp only [quoted, ↓reduceIte, Option.map_eq_some_iff, Prod.mk.injEq] at h
    obtain ⟨⟨value', rest'⟩, hquoted, rfl, rfl⟩ := h
    obtain ⟨src, rfl, hdenotes⟩ := ih hquoted
    exact ⟨39 :: 39 :: src, rfl, hdenotes.quote⟩
  | case5 c s hc =>
    simp only [quoted, ↓reduceIte, if_neg hc, Option.some.injEq, Prod.mk.injEq] at h
    obtain ⟨rfl, rfl⟩ := h
    exact ⟨[], rfl, .nil⟩
  | case6 c s hb ih =>
    simp only [quoted, if_neg hb, ↓reduceIte, Option.map_eq_some_iff, Prod.mk.injEq] at h
    obtain ⟨⟨value', rest'⟩, hquoted, rfl, rfl⟩ := h
    obtain ⟨src, rfl, hdenotes⟩ := ih hquoted
    exact ⟨92 :: c :: src, rfl, hdenotes.escape c⟩
  | case7 b c s hquote hbackslash ih =>
    simp only [quoted, if_neg hquote, if_neg hbackslash, Option.map_eq_some_iff, Prod.mk.injEq] at h
    obtain ⟨⟨value', rest'⟩, hquoted, rfl, rfl⟩ := h
    obtain ⟨src, hsrc, hdenotes⟩ := ih hquoted
    rw [hsrc]
    exact ⟨b :: src, rfl, hdenotes.byte hquote hbackslash⟩

theorem quoted_of_denotes (h : Denotes src value) {c : UInt8} (hc : c ≠ 39)
    : quoted (src ++ 39 :: c :: rest) = some (value, c :: rest) := by
  induction h with
  | nil => simp [quoted, hc]
  | quote _ ih => simp [quoted, ih]
  | escape d _ ih => simp [quoted, ih]
  | @byte src value b hquote hbackslash _ ih =>
    obtain ⟨d, s, hs⟩ : ∃ d s, src ++ 39 :: c :: rest = d :: s :=
      List.exists_cons_of_ne_nil (by simp)
    rw [hs] at ih
    rw [List.cons_append, hs, quoted, if_neg hquote, if_neg hbackslash, ih]
    rfl

theorem length_escape (c : UInt8) : (escape c).length = if c = 37 ∨ c = 95 then 2 else 1 := by
  unfold escape
  grind

theorem Denotes.length_le (h : Denotes src value) : value.length ≤ src.length := by
  induction h with
  | nil => rfl
  | quote _ ih | byte _ _ _ ih =>
    simp only [List.length_cons]
    omega
  | escape c _ ih =>
    simp only [List.length_append, List.length_cons, length_escape]
    split <;> omega

theorem Denotes.mem_space (h : Denotes src value) (hspace : 32 ∈ src) : 32 ∈ value := by
  induction h with
  | nil => exact hspace
  | quote _ ih =>
    simp only [List.mem_cons] at hspace ⊢
    simp_all
  | byte _ _ _ ih =>
    simp only [List.mem_cons] at hspace ⊢
    exact hspace.imp_right ih
  | escape c _ ih =>
    simp only [List.mem_cons] at hspace
    rw [List.mem_append]
    rcases hspace with hbackslash | rfl | hrest
    . simp at hbackslash
    . exact .inl (by decide)
    . exact .inr (ih hrest)

/--
No quote is in the text, and every backslash belongs to an escape that stands for itself.
-/
def Verbatim (p : Bytes) : Prop :=
  39 ∉ p ∧ ∀ s, 92 :: s <:+ p → s.head? = some 37 ∨ s.head? = some 95

theorem verbatim_cons {b : UInt8} {p : Bytes}
    : Verbatim (b :: p)
        ↔
      b ≠ 39 ∧ (b = 92 → p.head? = some 37 ∨ p.head? = some 95) ∧ Verbatim p := by
  unfold Verbatim
  constructor
  . rintro ⟨hquote, hbackslash⟩
    rw [List.mem_cons, not_or] at hquote
    refine ⟨Ne.symm hquote.1, ?_, hquote.2, ?_⟩
    . rintro rfl
      exact hbackslash p List.suffix_rfl
    . intro s hs
      exact hbackslash s (hs.trans (List.suffix_cons _ _))
  . rintro ⟨hb, hfirst, hquote, hbackslash⟩
    refine ⟨by simp [hquote, Ne.symm hb], ?_⟩
    intro s hs
    rw [List.suffix_cons_iff] at hs
    rcases hs with heq | hs
    . rw [List.cons.injEq] at heq
      rw [heq.2]
      exact hfirst heq.1.symm
    . exact hbackslash s hs

theorem verbatim_nil : Verbatim [] := ⟨by simp, by simp⟩

theorem Denotes.verbatim (h : Denotes src value) (hlength : src.length ≤ value.length)
    : src = value ∧ Verbatim src := by
  induction h with
  | nil => exact ⟨rfl, verbatim_nil⟩
  | quote h _ =>
    have hle := h.length_le
    simp only [List.length_cons] at hlength
    omega
  | @byte src value b hquote hbackslash _ ih =>
    obtain ⟨rfl, hverbatim⟩ := ih (by simpa using hlength)
    exact ⟨rfl, verbatim_cons.mpr ⟨hquote, fun h => absurd h hbackslash, hverbatim⟩⟩
  | @escape src value c h ih =>
    have hle := h.length_le
    simp only [List.length_cons, List.length_append, length_escape] at hlength
    split at hlength
    . next hc =>
      obtain ⟨rfl, hverbatim⟩ := ih (by omega)
      rcases hc with rfl | rfl
      . exact ⟨rfl, verbatim_cons.mpr ⟨by decide, fun _ => .inl rfl,
          verbatim_cons.mpr ⟨by decide, fun h => absurd h (by decide), hverbatim⟩⟩⟩
      . exact ⟨rfl, verbatim_cons.mpr ⟨by decide, fun _ => .inr rfl,
          verbatim_cons.mpr ⟨by decide, fun h => absurd h (by decide), hverbatim⟩⟩⟩
    . omega

theorem denotes_self {p : Bytes} (h : Verbatim p) : Denotes p p := by
  match p with
  | [] => exact .nil
  | [b] =>
    obtain ⟨hquote, hfirst, _⟩ := verbatim_cons.mp h
    exact .byte hquote (fun hb => by simpa using hfirst hb) .nil
  | b :: c :: p =>
    obtain ⟨hquote, hfirst, hrest⟩ := verbatim_cons.mp h
    by_cases hb : b = 92
    . have hself : escape c = [92, c] := by
        rcases hfirst hb with hc | hc
        . rw [List.head?_cons, Option.some.injEq] at hc
          rw [hc]
          rfl
        . rw [List.head?_cons, Option.some.injEq] at hc
          rw [hc]
          rfl
      have hdenotes := (denotes_self (verbatim_cons.mp hrest).2.2).escape c
      rw [hself] at hdenotes
      rwa [hb]
    . exact (denotes_self hrest).byte hquote hb

/--
A text without a space and NUL is the value of the literal it is put into, with a comma behind, if
and only if it is verbatim; and then the literal ends where it should.
-/
theorem quoted_self_iff {p t : Bytes} (hspace : 32 ∉ p)
    : quoted (Bytes.cStr (p ++ 39 :: 44 :: 32 :: t)) = some (p, rest)
        ↔
      (Verbatim p ∧ 0 ∉ p) ∧ rest = 44 :: 32 :: t.cStr := by
  constructor
  . intro h
    obtain ⟨src, hsrc, hdenotes⟩ := denotes_of_quoted h
    have hle := hdenotes.length_le
    have hzero : 0 ∉ p := by
      intro hzero
      have hlt := Bytes.length_cStr_append_lt (t := 39 :: 44 :: 32 :: t) hzero
      rw [hsrc, List.length_append] at hlt
      omega
    have htext : (p ++ 39 :: 44 :: 32 :: t).cStr = p ++ 39 :: 44 :: 32 :: t.cStr := by
      rw [Bytes.cStr_append hzero]
      rfl
    rw [htext] at hsrc
    obtain ⟨more, rfl, hmore⟩ : ∃ more, src = p ++ more ∧ 39 :: 44 :: 32 :: t.cStr = more ++ 39 :: rest := by
      rcases List.append_eq_append_iff.mp hsrc with hlong | ⟨more, rfl, hmore⟩
      . exact hlong
      . rw [List.length_append] at hle
        have hnil : more = [] := List.eq_nil_of_length_eq_zero (by omega)
        subst hnil
        exact ⟨[], by simp, hmore.symm⟩
    -- a literal that goes on behind the quote has the space behind the comma in it
    match more with
    | [] =>
      rw [List.append_nil] at hdenotes
      rw [List.nil_append, List.cons.injEq] at hmore
      exact ⟨⟨(hdenotes.verbatim (le_refl _)).2, hzero⟩, hmore.2.symm⟩
    | [_] | [_, _] => simp at hmore
    | b :: c :: d :: more =>
      have hd : 32 = d := by
        simp only [List.cons_append, List.cons.injEq] at hmore
        exact hmore.2.2.1
      exact absurd (hdenotes.mem_space (by simp [hd])) hspace
  . rintro ⟨⟨hverbatim, hzero⟩, rfl⟩
    rw [Bytes.cStr_append hzero]
    exact quoted_of_denotes (denotes_self hverbatim) (by decide)

inductive Piece where
  | byte (b : UInt8)
  | text (value : Bytes)
  deriving DecidableEq, Repr

/--
A statement with its string literals read, `none` if one is not closed.
-/
def pieces (s : Bytes) : Option (List Piece) :=
  match s with
  | [] => some []
  | b :: s =>
    if b = 39 then
      match _h : quoted s with
      | none => none
      | some (value, rest) => (pieces rest).map (.text value :: ·)
    else
      (pieces s).map (.byte b :: ·)
termination_by s.length
decreasing_by
  . obtain ⟨src, rfl, _⟩ := denotes_of_quoted _h
    simp
    omega
  . simp

theorem pieces_append {a : Bytes} (h : 39 ∉ a) (s : Bytes)
    : pieces (a ++ s) = (pieces s).map (a.map Piece.byte ++ ·) := by
  induction a with
  | nil => simp
  | cons b a ih =>
    rw [List.mem_cons, not_or] at h
    rw [List.cons_append, pieces, if_neg (Ne.symm h.1), ih h.2]
    simp [Function.comp_def]

theorem pieces_quote {ps : List Piece}
    : pieces (39 :: s) = some (.text value :: ps)
        ↔
      ∃ rest, quoted s = some (value, rest) ∧ pieces rest = some ps := by
  rw [pieces, if_pos rfl]
  constructor
  . intro h
    split at h
    . contradiction
    . next value' rest hquoted =>
      obtain ⟨ps', hps, heq⟩ := Option.map_eq_some_iff.mp h
      rw [List.cons.injEq, Piece.text.injEq] at heq
      obtain ⟨rfl, rfl⟩ := heq
      exact ⟨rest, hquoted, hps⟩
  . rintro ⟨rest, hquoted, hps⟩
    split
    . next hnone => simp [hquoted] at hnone
    . next value' rest' hsome =>
      rw [hquoted, Option.some.injEq, Prod.mk.injEq] at hsome
      obtain ⟨rfl, rfl⟩ := hsome
      rw [hps, Option.map_some]

end Sql
end Foundation
