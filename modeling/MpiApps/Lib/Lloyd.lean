/-
  MpiApps.Lib.Lloyd

  The two halves of Lloyd's algorithm, in exact arithmetic.

  Points are assigned to clusters, each cluster has a mean, and the cost is the sum of the
  squared distances of the points to the means of their clusters, coordinate by coordinate.
  Taking the average of a cluster as its mean does not increase the cost, and clusters
  without points do not matter (`spread_average_le`).  A search that keeps the first
  smallest of a list of distances finds a smallest one (`foldl_first_min`).
-/

import Mathlib.Algebra.BigOperators.Field
import Mathlib.Algebra.BigOperators.Ring.Finset
import Mathlib.Algebra.Order.BigOperators.Group.Finset
import Mathlib.Algebra.Order.Field.Basic
import Mathlib.Tactic.FieldSimp
import Mathlib.Tactic.Linarith
import Mathlib.Tactic.Positivity
import Mathlib.Tactic.Ring

namespace MpiApps.Lloyd

variable {K : Type} [Field K] [LinearOrder K] [IsStrictOrderedRing K]

/-! ## Means -/

section Means

variable {κ ι : Type}

/-- What one coordinate contributes to the cost: points `s` with coordinates `x`, assigned by
    `a` to clusters whose means have the coordinates `m`. -/
def spread (s : Finset κ) (x : κ → K) (m : ι → K) (a : κ → ι) : K :=
  ∑ j ∈ s, (x j - m (a j)) ^ 2

/-- Around the average `μ` of some numbers, the squared distances to `m` split off that of
    `μ` to `m`. -/
theorem sum_sq_sub_eq {s : Finset κ} (hs : s.Nonempty) (x : κ → K) (m : K) :
    ∑ j ∈ s, (x j - m) ^ 2 =
      ∑ j ∈ s, (x j - (∑ i ∈ s, x i) / s.card) ^ 2 +
        s.card * ((∑ i ∈ s, x i) / s.card - m) ^ 2 := by
  have hcard : (s.card : K) ≠ 0 := Nat.cast_ne_zero.mpr (Finset.card_ne_zero.mpr hs)
  generalize hμ : (∑ i ∈ s, x i) / (s.card : K) = μ
  -- the deviations from the average add up to zero
  have hdev : ∑ j ∈ s, (x j - μ) = 0 := by
    rw [Finset.sum_sub_distrib, Finset.sum_const, nsmul_eq_mul, ← hμ, mul_div_cancel₀ _ hcard,
      sub_self]
  calc ∑ j ∈ s, (x j - m) ^ 2
      = ∑ j ∈ s, ((x j - μ) ^ 2 + (2 * (μ - m) * (x j - μ) + (μ - m) ^ 2)) :=
        Finset.sum_congr rfl fun j _ => by ring
    _ = ∑ j ∈ s, (x j - μ) ^ 2 + s.card * (μ - m) ^ 2 := by
        rw [Finset.sum_add_distrib, Finset.sum_add_distrib, ← Finset.mul_sum, hdev, mul_zero,
          zero_add, Finset.sum_const, nsmul_eq_mul]

/-- No number has smaller squared distances than the average. -/
theorem sum_sq_sub_average_le {s : Finset κ} (hs : s.Nonempty) (x : κ → K) (m : K) :
    ∑ j ∈ s, (x j - (∑ i ∈ s, x i) / s.card) ^ 2 ≤ ∑ j ∈ s, (x j - m) ^ 2 := by
  have hsplit := sum_sq_sub_eq hs x m
  have hnonneg : 0 ≤ (s.card : K) * ((∑ i ∈ s, x i) / s.card - m) ^ 2 :=
    mul_nonneg (Nat.cast_nonneg _) (sq_nonneg _)
  linarith

/-- With the average of each cluster as its mean the cost is smallest; clusters without points
    may have any mean. -/
theorem spread_average_le [DecidableEq ι] (s : Finset κ) (x : κ → K) {m m' : ι → K}
    {a : κ → ι}
    (hm' : ∀ j ∈ s, m' (a j) =
      (∑ i ∈ s with a i = a j, x i) / ({i ∈ s | a i = a j} : Finset κ).card) :
    spread s x m' a ≤ spread s x m a := by
  have hmaps : ∀ j ∈ s, a j ∈ s.image a := fun j hj => Finset.mem_image_of_mem a hj
  rw [spread, spread, ← Finset.sum_fiberwise_of_maps_to hmaps,
    ← Finset.sum_fiberwise_of_maps_to hmaps]
  refine Finset.sum_le_sum fun c hc => ?_
  obtain ⟨j, hj, rfl⟩ := Finset.mem_image.mp hc
  -- one cluster: all its points have the same mean
  have hsame : ∀ m : ι → K, ∑ i ∈ s with a i = a j, (x i - m (a i)) ^ 2 =
      ∑ i ∈ s with a i = a j, (x i - m (a j)) ^ 2 := fun m =>
    Finset.sum_congr rfl fun i hi => by rw [(Finset.mem_filter.mp hi).2]
  have hne : ({i ∈ s | a i = a j} : Finset κ).Nonempty :=
    ⟨j, Finset.mem_filter.mpr ⟨hj, rfl⟩⟩
  rw [hsame, hsame, hm' j hj]
  exact sum_sq_sub_average_le hne x (m (a j))

end Means

/-! ## The nearest mean -/

omit [Field K] [IsStrictOrderedRing K] in
/-- Going through a list and keeping the first index with the smallest distance so far, the
    index found has a distance that is at most that of all others. -/
theorem foldl_first_min (d : ℕ → K) (js : List ℕ) (k : ℕ) :
    ∃ k', js.foldl (fun min j => if d j < min.2 then (j, d j) else min) (k, d k) = (k', d k') ∧
      k' ∈ k :: js ∧ ∀ j ∈ k :: js, d k' ≤ d j := by
  induction js generalizing k with
  | nil => exact ⟨k, rfl, List.mem_singleton_self k, fun j hj => by rw [List.mem_singleton.mp hj]⟩
  | cons j js ih =>
      rw [List.foldl_cons]
      by_cases hj : d j < d k
      · -- `j` is the new minimum, smaller than the old one
        obtain ⟨k', hfold, hmem, hmin⟩ := ih j
        refine ⟨k', by rw [if_pos hj, hfold], List.mem_cons_of_mem k hmem, ?_⟩
        rintro i (_ | ⟨_, hi⟩)
        · exact (hmin j List.mem_cons_self).trans hj.le
        · exact hmin i hi
      · obtain ⟨k', hfold, hmem, hmin⟩ := ih k
        refine ⟨k', by rw [if_neg hj, hfold], ?_, ?_⟩
        · rcases List.mem_cons.mp hmem with rfl | h
          · exact List.mem_cons_self
          · exact List.mem_cons_of_mem k (List.mem_cons_of_mem j h)
        · rintro i (_ | ⟨_, _ | ⟨_, hi⟩⟩)
          · exact hmin k List.mem_cons_self
          · exact (hmin k List.mem_cons_self).trans (not_lt.mp hj)
          · exact hmin i (List.mem_cons_of_mem k hi)

end MpiApps.Lloyd
