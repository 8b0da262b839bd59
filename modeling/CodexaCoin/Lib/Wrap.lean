import Mathlib

/-!
# Signed 64-bit sums

`wrap64 x` is the `int64_t` congruent to `x` modulo `2 ^ 64`. Inside the range it is `x` (`wrap64_eq`); a number that
is not too small can only wrap downwards (`wrap64_le`), by a multiple of `2 ^ 64` (`exists_wrap64_add`).
-/

/-- The value that a signed 64-bit register holds after a computation with exact result `x`. -/
def wrap64 (x : Int) : Int :=
  (x + 2 ^ 63) % 2 ^ 64 - 2 ^ 63

theorem wrap64_eq {x : Int} (h1 : -2 ^ 63 ≤ x) (h2 : x < 2 ^ 63) : wrap64 x = x := by
  unfold wrap64
  omega

theorem wrap64_range (x : Int) : -2 ^ 63 ≤ wrap64 x ∧ wrap64 x < 2 ^ 63 := by
  unfold wrap64
  omega

theorem wrap64_le {x : Int} (h : -2 ^ 63 ≤ x) : wrap64 x ≤ x := by
  unfold wrap64
  omega

theorem exists_wrap64_add {x : Int} (h : -2 ^ 63 ≤ x) : ∃ j : Nat, wrap64 x + 2 ^ 64 * j = x := by
  refine ⟨((x + 2 ^ 63) / 2 ^ 64).toNat, ?_⟩
  unfold wrap64
  omega

theorem wrap64_eq_or_neg {x : Int} (h1 : 0 ≤ x) (h2 : x < 2 ^ 64) : wrap64 x = x ∨ wrap64 x < 0 := by
  unfold wrap64
  omega
