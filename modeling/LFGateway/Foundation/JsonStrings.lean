import LFGateway.Foundation.Json

/-!
This module contains which strings stand for themselves between quotes in a JSON text, and that no
other text can be read as such a string in their place.
-/

namespace Foundation
namespace Json

variable {r v c w s src value item part a b : Bytes}

/--
UTF-8 without control characters, quotes and backslashes.
-/
def Plain (s : Bytes) : Prop :=
  ∃ cs : List Char, (∀ c ∈ cs, Unescaped c) ∧ s = cs.flatMap String.utf8EncodeChar

theorem plain_nil : Plain [] := ⟨[], by simp, rfl⟩

theorem Plain.char_append {c : Char} (hc : Unescaped c) (h : Plain s)
    : Plain (String.utf8EncodeChar c ++ s) := by
  obtain ⟨cs, hcs, rfl⟩ := h
  exact ⟨c :: cs, List.forall_mem_cons.mpr ⟨hc, hcs⟩, rfl⟩

theorem Plain.denotes (h : Plain s) : Denotes s s := by
  obtain ⟨cs, hcs, rfl⟩ := h
  induction cs with
  | nil => exact .nil
  | cons c cs ih =>
    rw [List.forall_mem_cons] at hcs
    exact .char hcs.1 (ih hcs.2)

def isPlainAscii (b : UInt8) : Bool := 32 ≤ b ∧ b < 128 ∧ b ≠ 34 ∧ b ≠ 92

theorem plain_of_ascii (h : s.all isPlainAscii = true) : Plain s := by
  induction s with
  | nil => exact plain_nil
  | cons b s ih =>
    simp only [List.all_cons, Bool.and_eq_true, isPlainAscii, decide_eq_true_eq] at h
    obtain ⟨⟨hlow, hhigh, hquote, hbackslash⟩, hs⟩ := h
    rw [UInt8.le_iff_toNat_le] at hlow
    rw [UInt8.lt_iff_toNat_lt] at hhigh
    have h32 : (32 : UInt8).toNat = 32 := rfl
    have h128 : (128 : UInt8).toNat = 128 := rfl
    have hvalid : b.toUInt32.isValidChar := by
      rw [UInt32.isValidChar, UInt8.toNat_toUInt32]
      exact .inl (by omega)
    let c : Char := ⟨b.toUInt32, hvalid⟩
    have hnat : c.val.toNat = b.toNat := UInt8.toNat_toUInt32 b
    have hc : Unescaped c := by
      refine ⟨le_of_le_of_eq hlow hnat.symm, ?_, ?_⟩
      . exact fun heq => hquote (UInt8.toNat_inj.mp (hnat.symm.trans heq))
      . exact fun heq => hbackslash (UInt8.toNat_inj.mp (hnat.symm.trans heq))
    have hencode : String.utf8EncodeChar c = [b] := by
      unfold String.utf8EncodeChar
      simp only [hnat]
      rw [if_pos (show b.toNat ≤ 127 by omega), UInt8.ofNat_toNat]
    have hplain := (ih hs).char_append hc
    rwa [hencode] at hplain

theorem mem_utf8EncodeChar {c : Char} {b : UInt8} (hc : Unescaped c) (h : b ∈ String.utf8EncodeChar c)
    : 32 ≤ b.toNat ∧ b ≠ 34 ∧ b ≠ 92 := by
  have hnat : c.val.toNat = c.toNat := rfl
  obtain ⟨hlow, hquote, hbackslash⟩ := hc
  have hkey : 128 ≤ b.toNat ∨ b.toNat = c.toNat := by
    unfold String.utf8EncodeChar at h
    dsimp only at h
    split at h
    . next hle =>
      rw [List.mem_singleton] at h
      right
      rw [h, UInt8.toNat_ofNat', hnat]
      omega
    . left
      split at h
      . simp only [List.mem_cons, List.not_mem_nil, or_false] at h
        rcases h with rfl | rfl <;> rw [UInt8.toNat_ofNat'] <;> omega
      . split at h
        . simp only [List.mem_cons, List.not_mem_nil, or_false] at h
          rcases h with rfl | rfl | rfl <;> rw [UInt8.toNat_ofNat'] <;> omega
        . simp only [List.mem_cons, List.not_mem_nil, or_false] at h
          rcases h with rfl | rfl | rfl | rfl <;> rw [UInt8.toNat_ofNat'] <;> omega
  refine ⟨by omega, ?_, ?_⟩
  . rintro rfl
    have : (34 : UInt8).toNat = 34 := rfl
    omega
  . rintro rfl
    have : (92 : UInt8).toNat = 92 := rfl
    omega

theorem Plain.of_mem {b : UInt8} (h : Plain s) (hb : b ∈ s) : 32 ≤ b.toNat ∧ b ≠ 34 ∧ b ≠ 92 := by
  obtain ⟨cs, hcs, rfl⟩ := h
  obtain ⟨c, hc, hmem⟩ := List.mem_flatMap.mp hb
  exact mem_utf8EncodeChar (hcs c hc) hmem

theorem Plain.notMem_zero (h : Plain s) : 0 ∉ s := by
  intro hmem
  have hlow := (h.of_mem hmem).1
  have h0 : (0 : UInt8).toNat = 0 := rfl
  omega

theorem length_encode_le (n : Nat) : (encode n).length ≤ 4 := by
  unfold encode
  split
  . simp
  . split
    . simp
    . split <;> simp

theorem exists_of_codeUnit {digits : Bytes} {n : Nat} (h : codeUnit digits = some n)
    : digits.length = 4 ∧ 34 ∉ digits := by
  unfold codeUnit at h
  split at h
  . next b₁ b₂ b₃ b₄ =>
    refine ⟨rfl, fun hmem => ?_⟩
    have hnone : hexDigit 34 = none := by decide
    simp only [List.mem_cons, List.not_mem_nil, or_false] at hmem
    rcases hmem with rfl | rfl | rfl | rfl <;> simp [hnone] at h
  . contradiction

theorem Escape.shape (h : Escape item part src)
    : (∃ t, item = 92 :: t) ∧ part.length < item.length ∧ (34 ∈ item → item = [92, 34] ∧ part = [34]) := by
  cases h with
  | @byte b v hmem =>
    refine ⟨⟨[b], rfl⟩, by simp, fun hquote => ?_⟩
    have hb : 34 = b := by simpa using hquote
    subst hb
    have hv : v = 34 := by simpa [escapes] using hmem
    rw [hv]
    exact ⟨rfl, rfl⟩
  | @unit digits _ n hunit _ =>
    obtain ⟨hlength, hquote⟩ := exists_of_codeUnit hunit
    have hle := length_encode_le n
    refine ⟨⟨_, rfl⟩, by simp only [List.length_cons]; omega, fun hmem => ?_⟩
    simp [hquote] at hmem
  | @pair digits digits' high low hhigh hlow _ _ =>
    obtain ⟨hlength, hquote⟩ := exists_of_codeUnit hhigh
    obtain ⟨hlength', hquote'⟩ := exists_of_codeUnit hlow
    have hle := length_encode_le (0x10000 + (high - 0xD800) * 0x400 + (low - 0xDC00))
    refine ⟨⟨_, rfl⟩, by simp only [List.length_cons, List.length_append]; omega, fun hmem => ?_⟩
    simp [hquote, hquote'] at hmem

theorem Denotes.length_le (h : Denotes r v)
    : v.length ≤ r.length ∧ (v.length = r.length → v = r ∧ Plain r) := by
  induction h with
  | nil => exact ⟨le_rfl, fun _ => ⟨rfl, plain_nil⟩⟩
  | char hc _ ih =>
    simp only [List.length_append, Nat.add_left_cancel_iff, Nat.add_le_add_iff_left]
    refine ⟨ih.1, fun heq => ?_⟩
    obtain ⟨hsame, hplain⟩ := ih.2 heq
    exact ⟨by rw [hsame], hplain.char_append hc⟩
  | escape hitem _ ih =>
    have hshorter := hitem.shape.2.1
    simp only [List.length_append]
    exact ⟨by omega, fun heq => by omega⟩

theorem exists_append_of_notMem {x : UInt8} (h : x ∉ s) (heq : s ++ a = c ++ x :: b)
    : ∃ c', c = s ++ c' ∧ a = c' ++ x :: b := by
  rcases List.append_eq_append_iff.mp heq with ⟨c', hc, ha⟩ | ⟨s', hs, hb⟩
  . exact ⟨c', hc, ha⟩
  . cases s' with
    | nil =>
      rw [List.append_nil] at hs
      rw [List.nil_append] at hb
      exact ⟨[], by simp [hs], hb.symm⟩
    | cons x s' =>
      rw [List.cons_append, List.cons.injEq] at hb
      exact absurd (by simp [hs, hb.1]) h

theorem exists_append_of_prefix {p q d : Bytes} (hlength : d.length ≤ p.length) (h : p ++ q <+: d ++ value)
    : ∃ p', p = d ++ p' ∧ p' ++ q <+: value := by
  have hd : d <+: p :=
    List.prefix_of_prefix_length_le (List.prefix_append d value) ((List.prefix_append p q).trans h) hlength
  obtain ⟨p', rfl⟩ := hd
  rw [List.append_assoc, List.prefix_append_right_inj] at h
  exact ⟨p', rfl, h⟩

theorem Denotes.eq_of_notMem (h : Denotes r v) (hr : 92 ∉ r) : v = r := by
  induction h with
  | nil => rfl
  | char _ _ ih => rw [ih fun hmem => hr (List.mem_append_right _ hmem)]
  | escape hitem _ _ =>
    obtain ⟨t, rfl⟩ := hitem.shape.1
    exact absurd (by simp) hr

/--
A text falls behind the string that it denotes at its first escape sequence, and does not catch up.
-/
theorem Denotes.not_ahead (h : Denotes r v) (hw : w ≠ []) (hquote : 34 ∉ w)
    (heq : r ++ 34 :: a = c ++ 34 :: b) (hbegin : w ++ c <+: v) : False := by
  induction h generalizing c w with
  | nil => exact hw (List.append_eq_nil_iff.mp (List.prefix_nil.mp hbegin)).1
  | @char src value ch hc _ ih =>
    have hnone : 34 ∉ String.utf8EncodeChar ch := fun hmem => (mem_utf8EncodeChar hc hmem).2.1 rfl
    rw [List.append_assoc] at heq
    obtain ⟨c', rfl, heq'⟩ := exists_append_of_notMem hnone heq
    rw [← List.append_assoc] at hbegin
    obtain ⟨w', hw', hbegin'⟩ := exists_append_of_prefix (by simp) hbegin
    have hlength := congrArg List.length hw'
    have hmem : 34 ∉ w' := by
      intro hmem
      have : 34 ∈ w ++ String.utf8EncodeChar ch := by simp [hw', hmem]
      simp [hquote, hnone] at this
    apply ih _ hmem heq' hbegin'
    rintro rfl
    rw [List.length_append, List.length_append, List.length_nil] at hlength
    exact hw (List.length_eq_zero_iff.mp (by omega))
  | @escape item part src value hitem _ ih =>
    obtain ⟨_, hshorter, hitemquote⟩ := hitem.shape
    by_cases hmem : 34 ∈ item
    . obtain ⟨_, rfl⟩ := hitemquote hmem
      cases w with
      | nil => exact hw rfl
      | cons x w =>
        rw [List.cons_append, List.singleton_append, List.cons_prefix_cons] at hbegin
        exact hquote (by simp [hbegin.1])
    . rw [List.append_assoc] at heq
      obtain ⟨c', rfl, heq'⟩ := exists_append_of_notMem hmem heq
      rw [← List.append_assoc] at hbegin
      obtain ⟨w', hw', hbegin'⟩ := exists_append_of_prefix
        (by rw [List.length_append]; omega) hbegin
      have hlength := congrArg List.length hw'
      have hmem' : 34 ∉ w' := by
        intro hmem'
        have : 34 ∈ w ++ item := by simp [hw', hmem']
        simp [hquote, hmem] at this
      apply ih _ hmem' heq' hbegin'
      rintro rfl
      rw [List.length_append, List.length_append, List.length_nil] at hlength
      omega

theorem Denotes.eq_of_prefix (h : Denotes r v) (heq : r ++ 34 :: a = c ++ 34 :: b) (hbegin : c <+: v)
    : r = c ∧ a = b ∧ c = v ∧ Plain v := by
  induction h generalizing c with
  | nil =>
    rw [List.prefix_nil] at hbegin
    subst hbegin
    rw [List.nil_append, List.nil_append, List.cons.injEq] at heq
    exact ⟨rfl, heq.2, rfl, plain_nil⟩
  | @char src value ch hc _ ih =>
    have hnone : 34 ∉ String.utf8EncodeChar ch := fun hmem => (mem_utf8EncodeChar hc hmem).2.1 rfl
    rw [List.append_assoc] at heq
    obtain ⟨c', rfl, heq'⟩ := exists_append_of_notMem hnone heq
    rw [List.prefix_append_right_inj] at hbegin
    obtain ⟨hr, hab, hv, hplain⟩ := ih heq' hbegin
    exact ⟨by rw [hr], hab, by rw [hv], hplain.char_append hc⟩
  | @escape item part src value hitem hrest ih =>
    obtain ⟨⟨t, ht⟩, hshorter, hitemquote⟩ := hitem.shape
    by_cases hmem : 34 ∈ item
    . obtain ⟨rfl, rfl⟩ := hitemquote hmem
      cases c with
      | nil => simp at heq
      | cons x c =>
        rw [List.singleton_append, List.cons_prefix_cons] at hbegin
        simp [hbegin.1] at heq
    . rw [List.append_assoc] at heq
      obtain ⟨c', rfl, heq'⟩ := exists_append_of_notMem hmem heq
      obtain ⟨w, hw, hbegin'⟩ := exists_append_of_prefix (by omega) hbegin
      have hlength := congrArg List.length hw
      exfalso
      apply hrest.not_ahead _ _ heq' hbegin'
      . rintro rfl
        rw [List.length_append, List.length_nil] at hlength
        omega
      . intro hmem'
        exact hmem (by simp [hw, hmem'])

theorem Denotes.backslash (h : Denotes r v) (hr : r = a ++ 34 :: b) : ∃ a', a = a' ++ [92] := by
  induction h generalizing a with
  | nil => simp at hr
  | @char src value ch hc _ ih =>
    have hnone : 34 ∉ String.utf8EncodeChar ch := fun hmem => (mem_utf8EncodeChar hc hmem).2.1 rfl
    obtain ⟨a', rfl, hsrc⟩ := exists_append_of_notMem hnone hr
    obtain ⟨a'', rfl⟩ := ih hsrc
    exact ⟨_, (List.append_assoc _ _ _).symm⟩
  | @escape item part src value hitem _ ih =>
    obtain ⟨_, _, hitemquote⟩ := hitem.shape
    by_cases hmem : 34 ∈ item
    . obtain ⟨rfl, _⟩ := hitemquote hmem
      match a with
      | [] => simp at hr
      | [x] =>
        rw [List.singleton_append, List.cons_append, List.cons.injEq] at hr
        exact ⟨[], by rw [← hr.1]; rfl⟩
      | x :: y :: a =>
        simp only [List.cons_append, List.nil_append, List.cons.injEq] at hr
        obtain ⟨a', rfl⟩ := ih hr.2.2
        exact ⟨x :: y :: a', rfl⟩
    . obtain ⟨a', rfl, hsrc⟩ := exists_append_of_notMem hmem hr
      obtain ⟨a'', rfl⟩ := ih hsrc
      exact ⟨_, (List.append_assoc _ _ _).symm⟩

/--
Where the text in front of a quote is not longer than the string that is read there, and does not end
with a backslash, it is that string and stands for itself.
-/
theorem Denotes.eq_of_length_le (h : Denotes r v) (heq : r ++ 34 :: a = c ++ 34 :: b)
    (hlength : c.length ≤ v.length) (hend : ∀ c', c ≠ c' ++ [92])
    : r = c ∧ a = b ∧ c = v ∧ Plain v := by
  obtain ⟨hle, hsame⟩ := h.length_le
  have hr : r = c := by
    rcases List.append_eq_append_iff.mp heq with ⟨x, hc, _⟩ | ⟨x, hr, hx⟩
    . have hx := congrArg List.length hc
      rw [List.length_append] at hx
      have hnil : x = [] := List.length_eq_zero_iff.mp (by omega)
      rw [hc, hnil, List.append_nil]
    . cases x with
      | nil => rw [hr, List.append_nil]
      | cons y x =>
        rw [List.cons_append, List.cons.injEq] at hx
        rw [← hx.1] at hr
        obtain ⟨c', hc'⟩ := h.backslash hr
        exact absurd hc' (hend c')
  rw [hr, List.append_cancel_left_eq, List.cons.injEq] at heq
  obtain ⟨hv, hplain⟩ := hsame (le_antisymm hle (hr ▸ hlength))
  exact ⟨hr, heq.2, hr ▸ hv.symm, hv ▸ hplain⟩

end Json
end Foundation
