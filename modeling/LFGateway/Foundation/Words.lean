import LFGateway.Foundation.Bytes

/-!
This module contains texts that are cut into words at spaces, and format texts, in which a percent
sign introduces a conversion.
-/

namespace Foundation
namespace Bytes

def words (s : Bytes) : List Bytes := (s.splitOnP (· = 32)).filter (· ≠ [])

def spaced (args : List Bytes) : Bytes := args.flatMap fun w => w ++ [32]

/--
The text a format stands for if it has no conversion but `%%`, which stands for a percent sign; a
percent sign at the end stands for itself.
-/
def unescape : Bytes → Option Bytes
  | [] => some []
  | [b] => some [b]
  | b :: c :: s =>
    if b = 37 then
      if c = 37 then (unescape s).map (37 :: ·) else none
    else
      (unescape (c :: s)).map (b :: ·)

theorem flatten_splitOnP (p : UInt8 → Bool) (s : Bytes)
    : (s.splitOnP p).flatten = s.filter fun b => !p b := by
  induction s with
  | nil => rfl
  | cons b s ih =>
    rw [List.splitOnP_cons_eq_if_modifyHead]
    split
    . next hb => simp [ih, hb]
    . next hb =>
      obtain ⟨piece, pieces, hpieces⟩ := List.exists_cons_of_ne_nil (List.splitOnP_ne_nil p s)
      rw [hpieces] at ih ⊢
      simp [← ih, hb]

theorem flatten_filter_ne_nil (l : List Bytes) : (l.filter (· ≠ [])).flatten = l.flatten := by
  induction l with
  | nil => rfl
  | cons w l ih =>
    by_cases hw : w = []
    . rw [List.filter_cons_of_neg (by simp [hw]), ih, hw, List.flatten_cons, List.nil_append]
    . rw [List.filter_cons_of_pos (by simp [hw]), List.flatten_cons, List.flatten_cons, ih]

theorem flatten_words (s : Bytes) : (words s).flatten = s.filter fun b => b ≠ 32 := by
  unfold words
  rw [flatten_filter_ne_nil, flatten_splitOnP]
  simp

theorem clean_of_mem_words {s w : Bytes} (h : w ∈ words s) : w ≠ [] ∧ 32 ∉ w ∧ ∀ b ∈ w, b ∈ s := by
  have hflatten := flatten_words s
  have hmem : ∀ b ∈ w, b ∈ s.filter fun b => b ≠ 32 := by
    intro b hb
    rw [← hflatten]
    exact List.mem_flatten_of_mem h hb
  refine ⟨?_, ?_, fun b hb => List.mem_of_mem_filter (hmem b hb)⟩
  . unfold words at h
    simpa using List.of_mem_filter h
  . intro hspace
    simpa using List.of_mem_filter (hmem 32 hspace)

theorem words_spaced {args : List Bytes} (h : ∀ w ∈ args, 32 ∉ w)
    : words (spaced args) = args.filter (· ≠ []) := by
  induction args with
  | nil => rfl
  | cons w args ih =>
    rw [List.forall_mem_cons] at h
    have hw : ∀ b ∈ w, (decide (b = 32)) = false := by
      intro b hb
      rw [decide_eq_false_iff_not]
      exact ne_of_mem_of_not_mem hb h.1
    have hrest := ih h.2
    unfold words at hrest ⊢
    unfold spaced at hrest ⊢
    rw [List.flatMap_cons, List.append_assoc, List.singleton_append]
    rw [List.splitOnP_append_cons_of_forall_mem hw 32 (by decide)]
    rw [List.filter_cons, List.filter_cons, hrest]

theorem notMem_spaced {b : UInt8} {args : List Bytes} (h : ∀ w ∈ args, b ∉ w) (hspace : b ≠ 32)
    : b ∉ spaced args := by
  intro hmem
  obtain ⟨w, hw, hb⟩ := List.mem_flatMap.mp hmem
  rw [List.mem_append, List.mem_singleton] at hb
  exact hb.elim (h w hw) hspace

theorem unescape_of_notMem {s : Bytes} (h : 37 ∉ s) : unescape s = some s := by
  induction s using unescape.induct with
  | case1 => rfl
  | case2 b => rfl
  | case3 s ih => simp at h
  | case4 c s hc => simp at h
  | case5 b c s hb ih =>
    rw [List.mem_cons, not_or] at h
    rw [unescape, if_neg hb, ih h.2]
    rfl

theorem mem_of_unescape {s t : Bytes} {b : UInt8} (h : unescape s = some t) (hb : b ∈ t) : b ∈ s := by
  induction s using unescape.induct generalizing t with
  | case1 | case2 c =>
    rw [unescape, Option.some.injEq] at h
    rwa [h]
  | case3 s ih =>
    obtain ⟨t', ht', rfl⟩ := Option.map_eq_some_iff.mp h
    rw [List.mem_cons] at hb
    rcases hb with rfl | hb
    . exact List.mem_cons_self
    . exact List.mem_cons_of_mem _ (List.mem_cons_of_mem _ (ih ht' hb))
  | case4 c s hc =>
    rw [unescape, if_pos rfl, if_neg hc] at h
    contradiction
  | case5 c d s hc ih =>
    rw [unescape, if_neg hc] at h
    obtain ⟨t', ht', rfl⟩ := Option.map_eq_some_iff.mp h
    rw [List.mem_cons] at hb
    rcases hb with rfl | hb
    . exact List.mem_cons_self
    . exact List.mem_cons_of_mem _ (ih ht' hb)

def solid (s : Bytes) : Nat := (s.filter fun b => b ≠ 32).length

theorem solid_cons (b : UInt8) (s : Bytes) : solid (b :: s) = (if b = 32 then 0 else 1) + solid s := by
  unfold solid
  rw [List.filter_cons]
  split <;> simp_all [Nat.add_comm]

theorem solid_unescape_le {s t : Bytes} (h : unescape s = some t) : solid t ≤ solid s := by
  induction s using unescape.induct generalizing t with
  | case1 | case2 b =>
    rw [unescape, Option.some.injEq] at h
    rw [h]
  | case3 s ih =>
    obtain ⟨t', ht', rfl⟩ := Option.map_eq_some_iff.mp h
    have hle := ih ht'
    rw [solid_cons, solid_cons, solid_cons]
    omega
  | case4 c s hc =>
    rw [unescape, if_pos rfl, if_neg hc] at h
    contradiction
  | case5 b c s hb ih =>
    rw [unescape, if_neg hb] at h
    obtain ⟨t', ht', rfl⟩ := Option.map_eq_some_iff.mp h
    have hle := ih ht'
    rw [solid_cons, solid_cons b]
    omega

/--
A percent sign in front of the last byte costs a byte, or is a conversion.
-/
theorem solid_unescape_lt {s t : Bytes} {e : UInt8} (h : unescape (s ++ [e]) = some t) (he : e ≠ 37)
    (hmem : 37 ∈ s) : solid t < solid (s ++ [e]) := by
  induction s using unescape.induct generalizing t with
  | case1 => simp at hmem
  | case2 b =>
    rw [List.mem_singleton] at hmem
    subst hmem
    rw [List.singleton_append, unescape, if_pos rfl, if_neg he] at h
    contradiction
  | case3 s _ =>
    rw [List.cons_append, List.cons_append, unescape, if_pos rfl, if_pos rfl] at h
    obtain ⟨t', ht', rfl⟩ := Option.map_eq_some_iff.mp h
    have hle := solid_unescape_le ht'
    rw [List.cons_append, List.cons_append]
    rw [solid_cons, solid_cons, solid_cons]
    have hpercent : (37 : UInt8) ≠ 32 := by decide
    rw [if_neg hpercent]
    omega
  | case4 c s hc =>
    rw [List.cons_append, List.cons_append, unescape, if_pos rfl, if_neg hc] at h
    contradiction
  | case5 b c s hb ih =>
    rw [List.cons_append, List.cons_append, unescape, if_neg hb] at h
    obtain ⟨t', ht', rfl⟩ := Option.map_eq_some_iff.mp h
    have hrest := ih ht' ((List.mem_cons.mp hmem).resolve_left (Ne.symm hb))
    simp only [List.cons_append] at hrest ⊢
    rw [solid_cons, solid_cons b]
    omega

theorem solid_spaced {args : List Bytes} (h : ∀ w ∈ args, 32 ∉ w)
    : solid (spaced args) = args.flatten.length := by
  rw [solid, ← flatten_words, words_spaced h, flatten_filter_ne_nil]

theorem notMem_of_unescape_spaced {args : List Bytes} {t : Bytes}
    (h : unescape (spaced args) = some t) (hwords : words t = args) {w : Bytes}
    (hw : w ∈ args) : 37 ∉ w := by
  intro hpercent
  have hspace : ∀ w ∈ args, 32 ∉ w := by
    intro w hw
    rw [← hwords] at hw
    exact (clean_of_mem_words hw).2.1
  have hsame : solid t = solid (spaced args) := by
    rw [solid_spaced hspace, ← hwords, flatten_words, solid]
  obtain ⟨before, last, hargs⟩ := (List.eq_nil_or_concat' args).resolve_left (List.ne_nil_of_mem hw)
  have hend : spaced args = (spaced before ++ last) ++ [32] := by
    rw [hargs, spaced, List.flatMap_append, List.append_assoc]
    simp [spaced]
  have hmem : 37 ∈ spaced before ++ last := by
    have hjoined : 37 ∈ spaced args :=
      List.mem_flatMap.mpr ⟨w, hw, List.mem_append_left _ hpercent⟩
    rw [hend, List.mem_append] at hjoined
    exact hjoined.resolve_right (by decide)
  rw [hend] at h hsame
  exact absurd hsame (solid_unescape_lt h (by decide) hmem).ne

end Bytes
end Foundation
