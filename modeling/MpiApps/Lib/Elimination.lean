/-
  MpiApps.Lib.Elimination

  Gaussian elimination in place.

  `eliminate i` subtracts multiples of row `i` from the rows below it and keeps the factor of
  each row where the eliminated entry was.  After `i` such steps the first `i` columns hold
  the factors and the first `i` rows are final, and the original matrix is the product of
  the two, plus the block that is still to be eliminated (`PartialLU`).  At the end the
  block is the last diagonal entry, and the matrix is factored (`PartialLU.product`).
-/

import Mathlib.Algebra.BigOperators.Fin
import Mathlib.Algebra.BigOperators.Intervals
import Mathlib.Data.Matrix.Mul
import Mathlib.Tactic.Ring
import Mathlib.Tactic.FieldSimp

namespace MpiApps.Elimination

variable {K : Type} [Field K]

/-- Subtract from each row below row `i` the multiple of row `i` that makes its entry in
    column `i` zero, and put the factor there. -/
def eliminate (i : ℕ) (a : ℕ → ℕ → K) (r c : ℕ) : K :=
  if i < r ∧ i ≤ c then
    if c = i then a r i / a i i else a r c - a r i / a i i * a i c
  else a r c

/-- The unit lower triangular matrix in `a`: what is below the diagonal. -/
def unitLower (a : ℕ → ℕ → K) (r k : ℕ) : K := if k < r then a r k else if k = r then 1 else 0

/-- The upper triangular matrix in `a`: the diagonal and what is above it. -/
def upper (a : ℕ → ℕ → K) (k c : ℕ) : K := if k ≤ c then a k c else 0

/-- The block from row and column `i` on. -/
def block (i : ℕ) (a : ℕ → ℕ → K) (r c : ℕ) : K := if i ≤ r ∧ i ≤ c then a r c else 0

/-- `a` is the `n` by `n` matrix `a₀` after `i` steps: `a₀` is the product of the first `i`
    columns of the one factor and the first `i` rows of the other, plus the block. -/
def PartialLU (n : ℕ) (a₀ a : ℕ → ℕ → K) (i : ℕ) : Prop :=
  ∀ r c, r < n → c < n →
    a₀ r c = ∑ k ∈ Finset.range i, unitLower a r k * upper a k c + block i a r c

variable {n : ℕ} {a₀ a : ℕ → ℕ → K} {i : ℕ}

theorem PartialLU.zero : PartialLU n a a 0 := by
  intro r c _ _
  rw [Finset.sum_range_zero, zero_add, block, if_pos ⟨Nat.zero_le r, Nat.zero_le c⟩]

/-- Only the entries of the matrix matter. -/
theorem PartialLU.congr {a' : ℕ → ℕ → K} (h : PartialLU n a₀ a i) (hi : i ≤ n)
    (ha : ∀ r c, r < n → c < n → a' r c = a r c) : PartialLU n a₀ a' i := by
  intro r c hr hc
  rw [h r c hr hc]
  congr 1
  · refine Finset.sum_congr rfl fun k hk => ?_
    have hk : k < n := (Finset.mem_range.mp hk).trans_le hi
    rw [unitLower, unitLower, upper, upper, ha r k hr hk, ha k c hk hc]
  · rw [block, block, ha r c hr hc]

/-- A step leaves the finished columns and rows alone. -/
theorem unitLower_eliminate {k : ℕ} (hk : k < i) (r : ℕ) :
    unitLower (eliminate i a) r k = unitLower a r k := by
  have hkeep : eliminate i a r k = a r k := if_neg (by omega)
  rw [unitLower, unitLower, hkeep]

theorem upper_eliminate {k : ℕ} (hk : k ≤ i) (c : ℕ) :
    upper (eliminate i a) k c = upper a k c := by
  have hkeep : eliminate i a k c = a k c := if_neg (by omega)
  rw [upper, upper, hkeep]

/-- Step lemma: the block of step `i` is a product of a column and a row plus the next block,
    provided that the pivot is not zero where it is divided by. -/
theorem block_eliminate {r c : ℕ} (hpivot : i < r → a r i ≠ 0 → a i i ≠ 0) :
    block i a r c =
      unitLower (eliminate i a) r i * upper a i c + block (i + 1) (eliminate i a) r c := by
  rcases lt_trichotomy r i with hr | rfl | hr
  · -- a finished row
    rw [block, if_neg (by omega), block, if_neg (by omega), unitLower, if_neg (by omega),
      if_neg (by omega), zero_mul, zero_add]
  · -- the row of the pivot
    rw [block, block, if_neg (show ¬ (r + 1 ≤ r ∧ r + 1 ≤ c) by omega), unitLower,
      if_neg (Nat.lt_irrefl r), if_pos rfl, one_mul, add_zero, upper]
    simp only [le_refl, true_and]
  · have hlower : unitLower (eliminate i a) r i = a r i / a i i := by
      rw [unitLower, if_pos hr, eliminate, if_pos ⟨hr, le_refl i⟩, if_pos rfl]
    rw [hlower]
    rcases lt_trichotomy c i with hc | rfl | hc
    · -- a finished column
      rw [block, if_neg (by omega), block, if_neg (by omega), upper, if_neg (by omega), mul_zero,
        zero_add]
    · -- the column of the pivot: the factor was chosen for it
      rw [block, if_pos ⟨hr.le, le_refl c⟩, block, if_neg (by omega), upper, if_pos (le_refl c),
        add_zero]
      by_cases hzero : a r c = 0
      · rw [hzero, zero_div, zero_mul]
      · rw [div_mul_cancel₀ _ (hpivot hr hzero)]
    · rw [block, if_pos ⟨hr.le, hc.le⟩, block, if_pos ⟨hr, hc⟩, upper, if_pos hc.le, eliminate,
        if_pos ⟨hr, hc.le⟩, if_neg (by omega)]
      ring

/-- A step takes the factorisation on by one column and one row. -/
theorem PartialLU.eliminate (h : PartialLU n a₀ a i)
    (hpivot : ∀ r, i < r → r < n → a r i ≠ 0 → a i i ≠ 0) :
    PartialLU n a₀ (eliminate i a) (i + 1) := by
  intro r c hr hc
  rw [h r c hr hc, Finset.sum_range_succ, add_assoc, upper_eliminate (le_refl i),
    ← block_eliminate fun hi => hpivot r hi hr]
  congr 1
  refine Finset.sum_congr rfl fun k hk => ?_
  have hk := Finset.mem_range.mp hk
  rw [unitLower_eliminate hk, upper_eliminate hk.le]

/-- After all steps but the last the block is the last diagonal entry, and the factors are
    complete. -/
theorem PartialLU.product (hn : 0 < n) (h : PartialLU n a₀ a (n - 1)) :
    (Matrix.of fun r k : Fin n => unitLower a r k) * (Matrix.of fun k c : Fin n => upper a k c) =
      Matrix.of fun r c : Fin n => a₀ r c := by
  ext r c
  have hlast : block (n - 1) a r c = unitLower a r (n - 1) * upper a (n - 1) c := by
    by_cases hr : (r : ℕ) = n - 1
    · rw [hr, unitLower, if_neg (Nat.lt_irrefl _), if_pos rfl, one_mul, block, upper]
      simp only [le_refl, true_and]
    · rw [block, if_neg (by omega), unitLower, if_neg (by omega), if_neg (Ne.symm hr), zero_mul]
  have hsum := Finset.sum_range_succ (fun k => unitLower a r k * upper a k c) (n - 1)
  rw [Nat.sub_add_cancel hn] at hsum
  rw [Matrix.mul_apply, Matrix.of_apply, h r c r.isLt c.isLt, hlast, ← hsum, Finset.sum_range]
  rfl

end MpiApps.Elimination
