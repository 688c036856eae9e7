import LFGateway.Foundation.Bytes
import Mathlib.Data.Nat.Log

/-!
This module contains numbers as an `ostream` prints a `double` by default: with six significant digits
at most, and with an exponent if it is small or large.
-/

namespace Foundation
namespace Bytes

/--
`a / b` rounded to the nearest integer, ties to even.
-/
def roundDiv (a b : Nat) : Nat :=
  if b < 2 * (a % b) ∨ (2 * (a % b) = b ∧ a / b % 2 = 1) then a / b + 1 else a / b

def leading (num den : Nat) : Int :=
  if den ≤ num then Nat.log 10 (num / den) else -(Nat.clog 10 ((den + num - 1) / num))

/--
Six digits of `num / den`, and the power of ten of the first.
-/
def sixDigits (num den : Nat) : Nat × Int :=
  let e := leading num den
  let m :=
    if e ≤ 5 then
      roundDiv (num * 10 ^ (5 - e).toNat) den
    else
      roundDiv num (den * 10 ^ (e - 5).toNat)
  if m = 10 ^ 6 then (10 ^ 5, e + 1) else (m, e)

def padded (width n : Nat) : Bytes := List.replicate (width - (ofNat n).length) (digit 0) ++ ofNat n

def fraction (width n : Nat) : Bytes :=
  match ((padded width n).reverse.dropWhile (· = digit 0)).reverse with
  | [] => []
  | digits => 46 :: digits

def ofRatio (num den : Nat) : Bytes :=
  if num = 0 then
    [digit 0]
  else
    let (m, e) := sixDigits num den
    if -4 ≤ e ∧ e < 6 then
      let width := (5 - e).toNat
      ofNat (m / 10 ^ width) ++ fraction width (m % 10 ^ width)
    else
      ofNat (m / 10 ^ 5) ++ fraction 5 (m % 10 ^ 5) ++
        [101, if e < 0 then 45 else 43] ++ padded 2 e.natAbs

example : ofRatio 2000 3 = ofAscii "666.667" := by decide

theorem exists_digit_of_mem_padded {b : UInt8} {width n : Nat} (h : b ∈ padded width n)
    : ∃ d < 10, b = digit d := by
  rw [padded, List.mem_append] at h
  cases h with
  | inl hzero => exact ⟨0, by decide, List.eq_of_mem_replicate hzero⟩
  | inr hdigit => exact exists_digit_of_mem_ofNat hdigit

theorem mem_fraction {b : UInt8} {width n : Nat} (h : b ∈ fraction width n)
    : b = 46 ∨ ∃ d < 10, b = digit d := by
  unfold fraction at h
  split at h
  . contradiction
  . rw [List.mem_cons] at h
    apply h.imp_right
    intro hmem
    rw [List.mem_reverse] at hmem
    exact exists_digit_of_mem_padded (List.mem_reverse.mp ((List.dropWhile_sublist _).subset hmem))

theorem mem_ofRatio {b : UInt8} {num den : Nat} (h : b ∈ ofRatio num den)
    : b ∈ [46, 101, 45, 43] ∨ ∃ d < 10, b = digit d := by
  unfold ofRatio at h
  split at h
  . exact .inr ⟨0, by decide, List.mem_singleton.mp h⟩
  . dsimp only at h
    split at h
    . rw [List.mem_append] at h
      rcases h with hwhole | hfraction
      . exact .inr (exists_digit_of_mem_ofNat hwhole)
      . exact (mem_fraction hfraction).imp_left fun heq => by simp [heq]
    . simp only [List.mem_append] at h
      rcases h with ((hwhole | hfraction) | hexponent) | hpadded
      . exact .inr (exists_digit_of_mem_ofNat hwhole)
      . exact (mem_fraction hfraction).imp_left fun heq => by simp [heq]
      . apply Or.inl
        simp only [List.mem_cons, List.not_mem_nil, or_false] at hexponent ⊢
        rcases hexponent with rfl | rfl
        . simp
        . split <;> simp
      . exact .inr (exists_digit_of_mem_padded hpadded)

end Bytes
end Foundation
