import Mathlib.Algebra.Group.Nat.Defs
import Mathlib.Data.List.Basic
import Mathlib.Data.List.Pairwise
import Mathlib.Logic.Function.Basic

/-!
This module contains byte addressed memory: numbers stored in it in little endian order, regions of
it, and lists that are threaded through it by storing in each node the address of the next.
-/

namespace Foundation

abbrev Memory := Nat → UInt8

namespace Memory

variable {mem mem' : Memory} {a v n x : Nat}

def load (mem : Memory) (a : Nat) : Nat → Nat
  | 0 => 0
  | n + 1 => (mem a).toNat + 256 * load mem (a + 1) n

def store (mem : Memory) (a v : Nat) : Nat → Memory
  | 0 => mem
  | n + 1 => Function.update (store mem (a + 1) (v / 256) n) a (UInt8.ofNat v)

theorem load_congr (h : ∀ x, a ≤ x → x < a + n → mem x = mem' x) : load mem a n = load mem' a n := by
  induction n generalizing a with
  | zero => rfl
  | succ n ih =>
    unfold load
    rw [h a (Nat.le_refl a) (by omega)]
    rw [ih fun x hax hx => h x (by omega) (by omega)]

theorem store_of_lt_or_le (h : x < a ∨ a + n ≤ x) : store mem a v n x = mem x := by
  induction n generalizing a v with
  | zero => rfl
  | succ n ih =>
    unfold store
    rw [Function.update_of_ne (by omega)]
    exact ih (by omega)

theorem load_store (h : v < 256 ^ n) : load (store mem a v n) a n = v := by
  induction n generalizing a v with
  | zero =>
    rw [Nat.pow_zero] at h
    simp only [load]
    omega
  | succ n ih =>
    have hdiv : v / 256 < 256 ^ n := by
      rw [Nat.div_lt_iff_lt_mul (by decide), ← Nat.pow_succ]
      exact h
    unfold load store
    have hrest : load (Function.update (store mem (a + 1) (v / 256) n) a (UInt8.ofNat v)) (a + 1) n
        = load (store mem (a + 1) (v / 256) n) (a + 1) n := by
      apply load_congr
      intro x hax hx
      exact Function.update_of_ne (by omega) _ _
    rw [hrest, ih hdiv, Function.update_self, UInt8.toNat_ofNat']
    omega

attribute [irreducible] load

abbrev Region := Nat × Nat

def Apart (r s : Region) : Prop := r.1 + r.2 ≤ s.1 ∨ s.1 + s.2 ≤ r.1

instance (r s : Region) : Decidable (Apart r s) :=
  inferInstanceAs (Decidable (_ ∨ _))

def Inside (r s : Region) : Prop := s.1 ≤ r.1 ∧ r.1 + r.2 ≤ s.1 + s.2

theorem Apart.symm {r s : Region} (h : Apart r s) : Apart s r := Or.symm h

instance : Std.Symm Apart := ⟨fun _ _ h => h.symm⟩

instance (n : Nat) : Std.Symm fun b c => Apart (b, n) (c, n) := ⟨fun _ _ h => h.symm⟩

theorem Apart.mono {r r' s s' : Region} (h : Apart r s) (hr : Inside r' r) (hs : Inside s' s)
    : Apart r' s' := by
  unfold Apart Inside at *
  omega

theorem Inside.refl (r : Region) : Inside r r := ⟨Nat.le_refl _, Nat.le_refl _⟩

theorem Apart.ne {r s : Region} (h : Apart r s) (hr : 0 < r.2) (hs : 0 < s.2) : r.1 ≠ s.1 := by
  unfold Apart at h
  omega

/--
The first addresses of the `count` blocks of `size` bytes from `base` on.
-/
def tiles (base size count : Nat) : List Nat := (List.range count).map fun i => base + i * size

theorem mem_tiles {base size count b : Nat}
    : b ∈ tiles base size count ↔ ∃ i, i < count ∧ base + i * size = b := by
  simp [tiles]

theorem inside_of_mem_tiles {base size count b : Nat} (h : b ∈ tiles base size count)
    : Inside (b, size) (base, size * count) := by
  obtain ⟨i, hi, rfl⟩ := mem_tiles.mp h
  have hle : (i + 1) * size ≤ count * size := Nat.mul_le_mul_right size hi
  rw [Nat.add_one_mul, Nat.mul_comm count] at hle
  exact ⟨Nat.le_add_right _ _, by dsimp only; omega⟩

theorem apart_tiles {base size i j : Nat} (h : i < j)
    : Apart (base + i * size, size) (base + j * size, size) := by
  have hle : (i + 1) * size ≤ j * size := Nat.mul_le_mul_right size h
  rw [Nat.add_one_mul] at hle
  left
  dsimp only
  omega

theorem pairwise_tiles (base size count : Nat)
    : (tiles base size count).Pairwise fun b c => Apart (b, size) (c, size) := by
  unfold tiles
  rw [List.pairwise_map]
  exact List.pairwise_lt_range.imp fun h => apart_tiles h

/--
The nodes `bs` are threaded through memory from `head` on, in this order, the last one holding 0. An
address has `w` bytes.
-/
def Linked (w : Nat) (mem : Memory) (head : Nat) : List Nat → Prop
  | [] => head = 0
  | b :: bs => head = b ∧ b ≠ 0 ∧ Linked w mem (load mem b w) bs

section Linked

variable {w head b : Nat} {bs : List Nat}

theorem Linked.congr (h : Linked w mem head bs)
    (heq : ∀ b ∈ bs, ∀ x, b ≤ x → x < b + w → mem x = mem' x) : Linked w mem' head bs := by
  induction bs generalizing head with
  | nil => exact h
  | cons b bs ih =>
    obtain ⟨hhead, hb, hrest⟩ := h
    rw [load_congr (heq b List.mem_cons_self)] at hrest
    exact ⟨hhead, hb, ih hrest fun c hc => heq c (List.mem_cons_of_mem _ hc)⟩

theorem Linked.store (h : Linked w mem head bs) (hapart : ∀ c ∈ bs, Apart (b, w) (c, w))
    : Linked w (Memory.store mem b v w) head bs := by
  apply h.congr
  intro c hc x hcx hx
  have hbc := hapart c hc
  unfold Apart at hbc
  rw [store_of_lt_or_le (by omega)]

theorem Linked.push (h : Linked w mem head bs) (hb : b ≠ 0) (hhead : head < 256 ^ w)
    (hapart : ∀ c ∈ bs, Apart (b, w) (c, w)) : Linked w (Memory.store mem b head w) b (b :: bs) := by
  refine ⟨rfl, hb, ?_⟩
  rw [load_store hhead]
  exact h.store hapart

theorem Linked.head_eq_zero_iff (h : Linked w mem head bs) : head = 0 ↔ bs = [] := by
  cases bs with
  | nil => exact iff_of_true h rfl
  | cons b bs =>
    obtain ⟨rfl, hb, _⟩ := h
    exact iff_of_false hb (List.cons_ne_nil _ _)

end Linked

end Memory
end Foundation
