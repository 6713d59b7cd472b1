/-
  MpiApps.Apps.MatMulComp

  `mm_comp`: matrix multiplication with compressed broadcasts.

  The root computes its rows from the matrices themselves, the other ranks from what has been
  decompressed.  So the result depends on the number of ranks, in exactly this way, and on
  nothing else: not on the order of the steps, the random numbers or the retransmissions
  (`mmComp_result`).
-/

import MpiApps.Apps.MatMulAbft
import MpiApps.Transfer.CompressedCalls

namespace MpiApps.MatMulComp

open MpiApps.Codec MpiApps.Fault MpiApps.MatMul MpiApps.MessagePassing MpiApps.Transfer

/-- The rank that computes a row. -/
def owner (rows p : Nat) [NeZero p] (i : Nat) : Fin p := Fin.ofNat p (i / (rows / p))

section Owner

variable {V : Type} [Zero V] [Add V] [Mul V] {rows inner cols p : Nat} [NeZero p]
  {mA mB : Fin p → List V}

theorem owner_of_mem_rowsOf {q : Fin p} {i : Nat} (hi : i ∈ rowsOf rows p q) :
    owner rows p i = q := by
  rw [rowsOf, List.mem_range'_1] at hi
  have hdiv : i / (rows / p) = q := by
    have h : (q : Nat) * (rows / p) + rows / p = ((q : Nat) + 1) * (rows / p) :=
      (Nat.succ_mul ..).symm
    exact Nat.div_eq_of_lt_le hi.1 (by omega)
  apply Fin.ext
  show i / (rows / p) % p = q
  rw [hdiv, Nat.mod_eq_of_lt q.isLt]

/-- An entry at the root comes from the arrays of the rank that has computed it. -/
theorem gathered_getElem? (hp : p ∣ rows) {i j : Nat} (hi : i < rows) (hj : j < cols) :
    (gathered rows inner cols p mA mB 0)[i * cols + j]? =
      some (productEntry inner cols (mA (owner rows p i)) (mB (owner rows p i)) i j) := by
  have hrows : gathered rows inner cols p mA mB 0 = (List.range rows).flatMap fun i =>
      productRow inner cols (mA (owner rows p i)) (mB (owner rows p i)) i := by
    rw [gathered, if_pos rfl, ← flatMap_rowsOf hp]
    refine congrArg (List.flatMap · _) (funext fun q => ?_)
    refine List.flatMap_congr fun i hi => ?_
    rw [owner_of_mem_rowsOf hi]
  rw [hrows]
  exact getElem?_rows _ hi hj

end Owner

/-- Under every `CT` the root of `mm_comp` ends with a matrix whose rows are the product of the
    matrices as the rank has them that has computed the row: in every interleaving, and
    whatever the random numbers are. -/
theorem mmComp_result [NanRule] {crc32 : BitVec 32 → BitVec 8 → BitVec 32}
    (hzlib : crc32 = zlibCrc32) (eb : ErrorBound) (ct : CT) (p : Nat) [NeZero p]
    {m₁ m₂ : MatrixStruct Double} (hshape : m₁.cols = m₂.rows) (hp : p ∣ m₁.rows)
    (hfits : FitsInt m₁.rows m₁.cols m₂.cols) (hsendA : Sendable eb ct m₁.entries)
    (hsendB : Sendable eb ct m₂.entries) (noise : Nat → Fin p → Noise)
    (heap : Nat → Fin p → Nat → Double) (malloc : Fin p → Nat → Nat → Double) :
    ∃ F, Yields (withComp crc32 eb ct noise heap (main p malloc m₁ m₂)) F ∧
      ∀ i j, i < m₁.rows → j < m₂.cols → (F 0)[i * m₂.cols + j]? = some
        (if owner m₁.rows p i = 0 then
          productEntry m₁.cols m₂.cols m₁.entries m₂.entries i j
        else
          productEntry m₁.cols m₂.cols
            (received eb ct (heap 1 (owner m₁.rows p i)) m₁.entries)
            (received eb ct (heap 2 (owner m₁.rows p i)) m₂.entries) i j) := by
  let got (i : Nat) (m : List Double) (r : Fin p) : List Double :=
    if r = 0 then m else received eb ct (heap i r) m
  have hgot : ∀ i m r, (got i m r).length = m.length := by
    intro i m r
    simp only [got]
    split
    · rfl
    · exact received_length eb ct _ m
  have hrun := @runs_main Double _ _ _ p _ m₁ m₂ (CompCallable eb ct) (deliveredAs eb ct heap)
    hshape hp hfits malloc (fun ks => .inl ⟨ks, rfl⟩) (fun m hm ms h0 hlen => ?_)
    (fun _ _ _ => rfl) (got 1 m₁.entries) (got 2 m₂.entries) (fun _ => rfl) (fun _ => rfl)
    (hgot 1 m₁.entries) (hgot 2 m₂.entries)
  · refine ⟨_, yields_withComp hzlib hrun noise, fun i j hi hj => ?_⟩
    rw [gathered_getElem? hp hi hj]
    simp only [got]
    split <;> rfl
  · simp only [List.mem_cons, List.not_mem_nil, or_false] at hm
    refine .inr ⟨ms, rfl, ?_, fun r => (hlen r).trans (hlen 0).symm⟩
    rw [h0]
    rcases hm with rfl | rfl
    · exact hsendA
    · exact hsendB

section Examples

attribute [local instance] NanRule.canonical

/-- Two ranks with one row each, under CRC and Hamming protection. -/
theorem mmComp_result_two : ∃ F,
    Yields (withComp zlibCrc32 absErrorBound .crcHamming (fun _ _ => ⟨fun i => i, false, 0⟩)
      (fun _ _ _ => 0) (main 2 (fun _ _ _ => 0) MatMulAbft.twoRows MatMulAbft.oneEntry)) F ∧
    ∀ i j, i < 2 → j < 1 → (F 0)[i * 1 + j]? = some
      (if owner 2 2 i = 0 then
        productEntry 1 1 MatMulAbft.twoRows.entries MatMulAbft.oneEntry.entries i j
      else
        productEntry 1 1
          (received absErrorBound .crcHamming (fun _ => 0) MatMulAbft.twoRows.entries)
          (received absErrorBound .crcHamming (fun _ => 0) MatMulAbft.oneEntry.entries) i j) :=
  mmComp_result rfl absErrorBound .crcHamming 2 rfl (by decide) (by constructor <;> decide)
    (@sendable_of_total _ absErrorBound .crcHamming 2 (.inl ⟨rfl, by decide⟩) _ (by decide)
      (by decide) (signsClear_canonical (.inl rfl) absErrorBound _))
    (@sendable_of_total _ absErrorBound .crcHamming 2 (.inl ⟨rfl, by decide⟩) _ (by decide)
      (by decide) (signsClear_canonical (.inl rfl) absErrorBound _)) _ _ _

end Examples

end MpiApps.MatMulComp
