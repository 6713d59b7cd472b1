/-
  MpiApps.Apps.MatMulAbft

  Matrix multiplication with `MPI_Bcast_abft`.

  The program is that of `MpiApps.Apps.MatMul`, with double arithmetic and with the two
  matrices broadcast by `MPI_Bcast_abft`.  Flips in the messages leave no trace: the root has
  the same matrix as without them, bit for bit (`mmAbft_faultFree`).
-/

import MpiApps.Apps.MatMul

namespace MpiApps.MatMulAbft

open MpiApps.Codec MpiApps.Fault MpiApps.MatMul MpiApps.MessagePassing

/-- In double arithmetic the root of `mm_abft` ends with the matrix that the root of `mm` has:
    every entry is the sum of its products in the order of the source, for any number of
    ranks that divides the number of rows, in every interleaving, and with a few flips in
    every message at every rank. -/
theorem mmAbft_faultFree {crc32 : BitVec 32 → BitVec 8 → BitVec 32} (hzlib : crc32 = zlibCrc32)
    (p : Nat) [NeZero p] {m₁ m₂ : MatrixStruct Double} (hshape : m₁.cols = m₂.rows)
    (hp : p ∣ m₁.rows) (hfits : FitsInt m₁.rows m₁.cols m₂.cols) (hposA : 1 ≤ m₁.rows * m₁.cols)
    (hposB : 1 ≤ m₁.cols * m₂.cols) (hmostA : m₁.rows * m₁.cols ≤ mostDoubles)
    (hmostB : m₁.cols * m₂.cols ≤ mostDoubles) {corrupt : Nat → Fin p → Payload → Payload}
    (hfew : FewFlipsAlways crc32 corrupt) (malloc : Fin p → Nat → Nat → Double) :
    ∃ F, Yields (withAbft crc32 corrupt (main p malloc m₁ m₂)) F ∧
      Yields (withBcast (main p malloc m₁ m₂)) F ∧
      ∀ i j, i < m₁.rows → j < m₂.cols → (F 0)[i * m₂.cols + j]? =
        some (productEntry m₁.cols m₂.cols m₁.entries m₂.entries i j) := by
  subst hzlib
  have hcallable : ∀ xs ∈ [m₁.entries, m₂.entries], 1 ≤ xs.length ∧ xs.length ≤ mostDoubles := by
    intro xs hxs
    simp only [List.mem_cons, List.not_mem_nil, or_false] at hxs
    rcases hxs with rfl | rfl
    · rw [MatrixStruct.entries_length]
      exact ⟨hposA, hmostA⟩
    · rw [MatrixStruct.entries_length, ← hshape]
      exact ⟨hposB, hmostB⟩
  have h := computes_main hshape hp hfits malloc hcallable
  refine ⟨_, h.yields_withAbft hfew, h.yields_withBcast, fun i j hi hj => ?_⟩
  rw [gathered_root hp]
  exact productMatrix_getElem? m₁ m₂ hi hj

/-- `[[2], [3]]` and `[[5]]`. -/
def twoRows : MatrixStruct Double := ⟨2, 1, [[.ofNat 2], [.ofNat 3]], rfl, by decide⟩

def oneEntry : MatrixStruct Double := ⟨1, 1, [[.ofNat 5]], rfl, by decide⟩

/-- Two ranks, two flips in every message. -/
theorem mmAbft_faultFree_two : ∃ F,
    Yields (withAbft zlibCrc32 (injected fun i r => [i, i + r])
      (main 2 (fun _ _ _ => 0) twoRows oneEntry)) F ∧
    Yields (withBcast (main 2 (fun _ _ _ => 0) twoRows oneEntry)) F ∧
    ∀ i j, i < twoRows.rows → j < oneEntry.cols → (F 0)[i * oneEntry.cols + j]? =
      some (productEntry twoRows.cols oneEntry.cols twoRows.entries oneEntry.entries i j) :=
  mmAbft_faultFree rfl 2 rfl (by decide) (by constructor <;> decide) (by decide) (by decide)
    (by decide) (by decide) (injected_fewFlipsAlways zlibCrc32 fun _ _ => Nat.le_refl _) _

end MpiApps.MatMulAbft
