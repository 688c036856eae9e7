import Mathlib.Data.Nat.Digits.Defs
import Mathlib.Data.Nat.Digits.Lemmas
import Mathlib.Data.List.Infix
import Mathlib.Data.List.TakeWhile

/-!
This module contains byte strings with the operations of `std::string` on them, and numbers as
`std::to_string` and `%d` print them.
-/

namespace Foundation

abbrev Bytes := List UInt8

namespace Bytes

/--
The bytes of a string literal that only has ASCII characters.
-/
def ofAscii (s : String) : Bytes := s.toList.map fun c => UInt8.ofNat c.toNat

/--
What a callee sees of a string that is passed as `c_str()`.
-/
def cStr (s : Bytes) : Bytes := s.takeWhile (· != 0)

/--
`s.find(pat)`, `none` for `npos`.
-/
def find (s pat : Bytes) : Option Nat :=
  match s with
  | [] => if pat = [] then some 0 else none
  | b :: s => if pat <+: b :: s then some 0 else (find s pat).map (· + 1)

def findByte (c : UInt8) (s : Bytes) : Option Nat := find s [c]

def digit (n : Nat) : UInt8 := UInt8.ofNat (48 + n)

def ofNat (n : Nat) : Bytes := if n = 0 then [digit 0] else (Nat.digits 10 n).reverse.map digit

def toNat (s : Bytes) : Nat := Nat.ofDigits 10 (s.reverse.map fun b => b.toNat - 48)

/--
An integer in decimal, as `std::to_string` and `%d` print it.
-/
def ofInt : Int → Bytes
  | .ofNat n => ofNat n
  | .negSucc n => 45 :: ofNat (n + 1)

theorem cStr_of_notMem {s : Bytes} (h : 0 ∉ s) : cStr s = s := by
  unfold cStr
  rw [List.takeWhile_eq_self_iff]
  intro b hb
  simp only [bne_iff_ne]
  exact ne_of_mem_of_not_mem hb h

theorem cStr_append {s t : Bytes} (h : 0 ∉ s) : cStr (s ++ t) = s ++ cStr t := by
  unfold cStr
  apply List.takeWhile_append_of_pos
  intro b hb
  simp only [bne_iff_ne]
  exact ne_of_mem_of_not_mem hb h

theorem prefix_cStr_append {s t : Bytes} (h : 0 ∉ s) : s <+: cStr (s ++ t) := by
  rw [cStr_append h]
  exact List.prefix_append s _

theorem length_cStr_append_lt {s t : Bytes} (h : 0 ∈ s) : (cStr (s ++ t)).length < s.length := by
  obtain ⟨before, after, rfl⟩ := List.append_of_mem h
  induction before with
  | nil => simp [cStr]
  | cons b before ih =>
    by_cases hb : b = 0
    . simp [cStr, hb]
    . have hlt := ih (by simp)
      simp only [cStr, List.cons_append, List.takeWhile_cons, bne_iff_ne.mpr hb, ↓reduceIte,
        List.length_cons] at hlt ⊢
      omega

section Find

variable {pat s t : Bytes} {n : Nat}

theorem find_of_prefix (h : pat <+: s) : find s pat = some 0 := by
  cases s with
  | nil =>
    rw [List.prefix_nil] at h
    simp [find, h]
  | cons b s =>
    simp only [find, h, ↓reduceIte]

theorem find_cons_of_not_prefix {b : UInt8} (h : ¬pat <+: b :: s)
    : find (b :: s) pat = (find s pat).map (· + 1) := by
  simp only [find, h, ↓reduceIte]

theorem find_prefix_drop (h : find s pat = some n) : pat <+: s.drop n := by
  induction s generalizing n with
  | nil =>
    simp only [find] at h
    split at h
    . next hpat =>
      subst hpat
      simp
    . contradiction
  | cons b s ih =>
    simp only [find] at h
    split at h
    . next hpre =>
      rw [Option.some.injEq] at h
      subst h
      exact hpre
    . rw [Option.map_eq_some_iff] at h
      obtain ⟨m, hm, rfl⟩ := h
      exact ih hm

theorem find_le_length (h : find s pat = some n) : n + pat.length ≤ s.length := by
  induction s generalizing n with
  | nil =>
    simp only [find] at h
    split at h
    . next hpat =>
      rw [Option.some.injEq] at h
      simp [← h, hpat]
    . contradiction
  | cons b s ih =>
    simp only [find] at h
    split at h
    . next hpre =>
      rw [Option.some.injEq] at h
      subst h
      simpa using hpre.length_le
    . rw [Option.map_eq_some_iff] at h
      obtain ⟨m, hm, rfl⟩ := h
      have := ih hm
      simp only [List.length_cons]
      omega

theorem findByte_lt_length {c : UInt8} (h : findByte c s = some n) : n < s.length :=
  @find_le_length [c] s n h

theorem eq_take_append_of_find (h : find s pat = some n)
    : s = s.take n ++ (pat ++ s.drop (n + pat.length)) := by
  obtain ⟨rest, hrest⟩ := find_prefix_drop h
  have hdrop : rest = s.drop (n + pat.length) := by
    rw [← List.drop_drop, ← hrest]
    simp
  rw [← hdrop, hrest]
  rw [List.take_append_drop]

theorem find_append (h : find s pat = some n) : find (s ++ t) pat = some n := by
  induction s generalizing n with
  | nil =>
    simp only [find] at h
    split at h
    . next hpat =>
      subst hpat
      rw [Option.some.injEq] at h
      subst h
      apply find_of_prefix
      simp
    . contradiction
  | cons b s ih =>
    have hlen := find_le_length h
    simp only [find] at h
    split at h
    . next hpre =>
      rw [Option.some.injEq] at h
      subst h
      exact find_of_prefix (hpre.trans (List.prefix_append _ _))
    . next hpre =>
      rw [Option.map_eq_some_iff] at h
      obtain ⟨m, hm, rfl⟩ := h
      rw [List.cons_append, find_cons_of_not_prefix]
      . rw [ih hm]
        rfl
      . -- the pattern fits into `b :: s`, so the bytes of `t` cannot complete it at the front
        intro hlong
        apply hpre
        apply List.prefix_of_prefix_length_le hlong (List.prefix_append _ _)
        simp only [List.length_cons] at hlen ⊢
        omega

theorem find_take (h : find s pat = some n) : find (s.take (n + pat.length)) pat = some n := by
  induction s generalizing n with
  | nil => rwa [List.take_nil]
  | cons b s ih =>
    simp only [find] at h
    split at h
    . next hpre =>
      rw [Option.some.injEq] at h
      subst h
      apply find_of_prefix
      rw [Nat.zero_add, ← List.prefix_iff_eq_take.mp hpre]
    . next hpre =>
      rw [Option.map_eq_some_iff] at h
      obtain ⟨m, hm, rfl⟩ := h
      rw [Nat.add_right_comm, List.take_succ_cons, find_cons_of_not_prefix, ih hm, Option.map_some]
      intro hshort
      exact hpre (hshort.trans (List.prefix_cons_inj b |>.mpr (List.take_prefix _ _)))

theorem exists_find_le (s t pat : Bytes) : ∃ n ≤ s.length, find (s ++ (pat ++ t)) pat = some n := by
  induction s with
  | nil => exact ⟨0, le_rfl, find_of_prefix (List.prefix_append pat t)⟩
  | cons b s ih =>
    obtain ⟨n, hle, hn⟩ := ih
    by_cases hpre : pat <+: b :: (s ++ (pat ++ t))
    . exact ⟨0, Nat.zero_le _, find_of_prefix hpre⟩
    . refine ⟨n + 1, Nat.succ_le_succ hle, ?_⟩
      rw [List.cons_append, find_cons_of_not_prefix hpre, hn]
      rfl

theorem find_of_find_append (h : find (s ++ t) pat = some n) (hle : s.length ≤ n)
    : find t pat = some (n - s.length) := by
  induction s generalizing n with
  | nil => exact h
  | cons b s ih =>
    rw [List.length_cons] at hle ⊢
    rw [List.cons_append] at h
    simp only [find] at h
    split at h
    . rw [Option.some.injEq] at h
      omega
    . rw [Option.map_eq_some_iff] at h
      obtain ⟨m, hm, rfl⟩ := h
      rw [ih hm (by omega), Nat.add_sub_add_right]

theorem findByte_append_cons {c : UInt8} (h : c ∉ s) : findByte c (s ++ c :: t) = some s.length := by
  induction s with
  | nil =>
    apply find_of_prefix
    simp
  | cons b s ih =>
    rw [List.mem_cons, not_or] at h
    unfold findByte at ih ⊢
    rw [List.cons_append, find_cons_of_not_prefix]
    . rw [ih h.2]
      rfl
    . rw [List.cons_prefix_cons]
      rintro ⟨heq, _⟩
      exact h.1 heq

theorem notMem_take_of_findByte {c : UInt8} (h : findByte c s = some n) : c ∉ s.take n := by
  unfold findByte at h
  induction s generalizing n with
  | nil => simp
  | cons b s ih =>
    simp only [find] at h
    split at h
    . rw [Option.some.injEq] at h
      simp [← h]
    . next hpre =>
      rw [Option.map_eq_some_iff] at h
      obtain ⟨m, hm, rfl⟩ := h
      rw [List.take_succ_cons, List.mem_cons, not_or]
      refine ⟨?_, ih hm⟩
      rintro rfl
      exact hpre (by simp)

theorem find_eq_some_iff
    : find s pat = some n
        ↔
      ∃ before after, s = before ++ (pat ++ after) ∧ before.length = n ∧
        ∀ b a, s = b ++ (pat ++ a) → before.length ≤ b.length := by
  constructor
  . intro h
    have hle := find_le_length h
    have hlength : (s.take n).length = n := by
      rw [List.length_take]
      omega
    refine ⟨_, _, eq_take_append_of_find h, hlength, ?_⟩
    intro b a heq
    obtain ⟨m, hm, hfind⟩ := exists_find_le b a pat
    rw [← heq, h, Option.some.injEq] at hfind
    rwa [hlength, hfind]
  . rintro ⟨before, after, heq, rfl, hfirst⟩
    obtain ⟨m, hm, hfind⟩ := exists_find_le before after pat
    rw [← heq] at hfind
    have hle := hfirst _ _ (eq_take_append_of_find hfind)
    rw [List.length_take] at hle
    rw [hfind, Option.some.injEq]
    omega

theorem findByte_eq_some_iff {c : UInt8}
    : findByte c s = some n ↔ ∃ front back, s = front ++ c :: back ∧ front.length = n ∧ c ∉ front := by
  constructor
  . intro h
    have hlt := findByte_lt_length h
    refine ⟨_, _, eq_take_append_of_find h, ?_, notMem_take_of_findByte h⟩
    rw [List.length_take]
    omega
  . rintro ⟨front, back, rfl, rfl, hnone⟩
    exact findByte_append_cons hnone

theorem notMem_cStr (s : Bytes) : 0 ∉ cStr s := by
  intro hmem
  simpa using List.mem_takeWhile_imp hmem

theorem cStr_subset (s : Bytes) : cStr s ⊆ s := (List.takeWhile_sublist _).subset

theorem append_cons_inj_of_notMem {c : UInt8} {s s' t t' : Bytes} (ht : c ∉ t) (ht' : c ∉ t')
    (h : s ++ c :: t = s' ++ c :: t') : s = s' ∧ t = t' := by
  have hreverse : t.reverse ++ c :: s.reverse = t'.reverse ++ c :: s'.reverse := by
    simpa using congrArg List.reverse h
  have hlength : some t.length = some t'.length := by
    calc
      some t.length = findByte c (t.reverse ++ c :: s.reverse) := by
        rw [findByte_append_cons (by simpa using ht), List.length_reverse]
      _ = findByte c (t'.reverse ++ c :: s'.reverse) := by rw [hreverse]
      _ = some t'.length := by
        rw [findByte_append_cons (by simpa using ht'), List.length_reverse]
  rw [Option.some.injEq] at hlength
  obtain ⟨hs, ht⟩ := List.append_inj' h (by simp [hlength])
  rw [List.cons.injEq] at ht
  exact ⟨hs, ht.2⟩

end Find

section Decimal

theorem toNat_digit {n : Nat} (h : n < 10) : (digit n).toNat = 48 + n := by
  simp only [digit, UInt8.toNat_ofNat']
  omega

@[simp]
theorem toNat_ofNat (n : Nat) : toNat (ofNat n) = n := by
  unfold ofNat
  split
  . next h =>
    subst h
    rfl
  . unfold toNat
    rw [← List.map_reverse, List.reverse_reverse, List.map_map]
    have hdigits : (Nat.digits 10 n).map ((fun b => b.toNat - 48) ∘ digit) = Nat.digits 10 n := by
      conv => rhs; rw [← List.map_id (Nat.digits 10 n)]
      apply List.map_congr_left
      intro d hd
      have := toNat_digit (Nat.digits_lt_base (by decide) hd)
      simp only [Function.comp_apply, id_eq]
      omega
    rw [hdigits, Nat.ofDigits_digits]

theorem ofNat_injective : Function.Injective ofNat :=
  Function.LeftInverse.injective toNat_ofNat

theorem ofNat_ne_nil (n : Nat) : ofNat n ≠ [] := by
  unfold ofNat
  split
  . simp
  . next h =>
    simp [Nat.digits_ne_nil_iff_ne_zero.mpr h]

theorem exists_digit_of_mem_ofNat {b : UInt8} {n : Nat} (h : b ∈ ofNat n) : ∃ d < 10, b = digit d := by
  unfold ofNat at h
  split at h
  . exact ⟨0, by decide, List.mem_singleton.mp h⟩
  . obtain ⟨d, hd, rfl⟩ := List.mem_map.mp h
    exact ⟨d, Nat.digits_lt_base (by decide) (List.mem_reverse.mp hd), rfl⟩

theorem exists_digit_of_mem_ofInt {b : UInt8} {n : Int} (h : b ∈ ofInt n)
    : b = 45 ∨ ∃ d < 10, b = digit d := by
  cases n with
  | ofNat n => exact .inr (exists_digit_of_mem_ofNat h)
  | negSucc n =>
    unfold ofInt at h
    rw [List.mem_cons] at h
    exact h.imp_right exists_digit_of_mem_ofNat

theorem notMem_ofInt {c : UInt8} (hminus : c ≠ 45) (hdigit : c.toNat < 48 ∨ 57 < c.toNat) (n : Int)
    : c ∉ ofInt n := by
  intro hmem
  rcases exists_digit_of_mem_ofInt hmem with heq | ⟨d, hd, rfl⟩
  . exact hminus heq
  . rw [toNat_digit hd] at hdigit
    omega

theorem ofInt_injective : Function.Injective ofInt := by
  have hminus : ∀ m n, ofNat m ≠ 45 :: ofNat n := by
    intro m n heq
    obtain ⟨d, hd, h45⟩ := exists_digit_of_mem_ofNat (n := m) (b := 45) (by simp [heq])
    have hnat := toNat_digit hd
    rw [← h45] at hnat
    have : (45 : UInt8).toNat = 45 := rfl
    omega
  intro m n h
  cases m with
  | ofNat m =>
    cases n with
    | ofNat n => rw [ofNat_injective h]
    | negSucc n => exact absurd h (hminus m _)
  | negSucc m =>
    cases n with
    | ofNat n => exact absurd h.symm (hminus n _)
    | negSucc n =>
      unfold ofInt at h
      rw [List.cons.injEq] at h
      have := ofNat_injective h.2
      rw [Nat.add_right_cancel this]

theorem length_ofNat_le {n k : Nat} (hk : 1 ≤ k) (h : n < 10 ^ k) : (ofNat n).length ≤ k := by
  unfold ofNat
  split
  . simpa using hk
  . simpa using (Nat.digits_length_le_iff (by decide) n).mpr h

end Decimal

end Bytes
end Foundation
