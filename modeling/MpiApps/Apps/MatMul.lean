/-
  MpiApps.Apps.MatMul

  Matrix multiplication with the rows of the result distributed over the ranks.

  The root lays both matrices out row by row (`mat2DTo1D`) and broadcasts them.  Every rank
  computes the rows from `startrow` to `endrow` into its `result_matrix`, and the root
  gathers the results into `final_matrix`.

  An access outside an array is a fault: `read`, `memcpy` and `subMatrix` give `none` then.
  What is allocated without being filled holds what `malloc` finds.  `result_matrix` is filled
  from the left: it is what has been computed, followed by zeros, and `position` is the length
  of the first part (`foldlM_fill`).

  The numbers of entries are products of `int`s.  As long as they do not wrap (`FitsInt`) no
  index is outside its array, and the root ends with the product of the matrices, with the
  terms of each entry added up in the order of the source (`runs_main`).  The arithmetic may
  be any; over the rationals the entries are those of the matrix product
  (`main_multiplies`).
-/

import MpiApps.Fault.AbftCalls
import Mathlib.Algebra.BigOperators.Fin
import Mathlib.Data.Matrix.Mul
import Mathlib.Data.Rat.Lemmas
import Mathlib.LinearAlgebra.Matrix.Notation

namespace MpiApps.MatMul

open MpiApps.Fault MpiApps.MessagePassing MpiApps.Windows

/-! ## The code -/

/-- `matrix_struct`. -/
structure MatrixStruct (V : Type) where
  rows : Nat
  cols : Nat
  matData : List (List V)
  length_rows : matData.length = rows
  length_cols : ∀ row ∈ matData, row.length = cols

section Code

variable {V : Type}

/-- What `malloc` gives for `size` entries; there is no array for a negative size. -/
def alloc (malloc : Nat → V) (size : Int) : List V := (List.range size.toNat).map malloc

/-- `m[i]`. -/
def read (m : List V) (i : Int) : Option V := if 0 ≤ i then m[i.toNat]? else none

/-- `memcpy(dst + off, src, ..)` of a whole array `src`. -/
def memcpy (dst : List V) (off : Nat) (src : List V) : Option (List V) :=
  if off + src.length ≤ dst.length then some (setWindow off src dst) else none

/-- Copy arrays one after the other, the `i`-th one to `off i`. -/
def copyRows (off : Nat → Nat) : Nat → List (List V) → List V → Option (List V)
  | _, [], dst => some dst
  | i, row :: rows, dst => do
    let dst ← memcpy dst (off i) row
    copyRows off (i + 1) rows dst

/-- `mat_2D_to_1D`; its products are of `unsigned int`s. -/
def mat2DTo1D (malloc : Nat → V) (m : MatrixStruct V) : Option (List V) :=
  let matrix := alloc malloc (m.rows * m.cols % 4294967296 : Nat)
  copyRows (fun i => i * m.cols % 4294967296) 0 m.matData matrix

variable [Zero V] [Add V] [Mul V]

/-- `result_matrix[position] += m_a[..] * m_b[..]`. -/
def addProduct (colsA colsB : Int) (mA mB : List V) (i : Int) (j position : Nat)
    (resultMatrix : List V) (k : Nat) : Option (List V) := do
  let a ← read mA (asInt (asInt (i * colsA) + k))
  let b ← read mB (asInt (asInt (k * colsB) + j))
  let c ← resultMatrix[position]?
  some (resultMatrix.set position (c + a * b))

/-- `result_matrix` and `position` after the loop over `k`. -/
def computeEntry (colsA rowsB colsB : Int) (mA mB : List V) (i : Int) (s : List V × Nat)
    (j : Nat) : Option (List V × Nat) := do
  let resultMatrix ←
    (List.range rowsB.toNat).foldlM (addProduct colsA colsB mA mB i j s.2) s.1
  some (resultMatrix, s.2 + 1)

/-- `result_matrix` and `position` after the loop over `j`. -/
def computeRow (colsA rowsB colsB : Int) (mA mB : List V) (s : List V × Nat) (i : Int) :
    Option (List V × Nat) :=
  (List.range colsB.toNat).foldlM (computeEntry colsA rowsB colsB mA mB i) s

/-- `number_of_rows`. -/
def numberOfRows (rowsA colsB : Int) (numWorker : Nat) : Int :=
  (asInt (rowsA * colsB)).tdiv numWorker

/-- The rows from `startrow` to `endrow`. -/
def rowsFrom (rowsA : Int) (numWorker rank : Nat) : List Int :=
  let startrow := rank * rowsA.tdiv numWorker
  -- `startrow - 1` when there is no row to compute
  let endrow := (rank + 1) * rowsA.tdiv numWorker - 1
  (List.range (endrow + 1 - startrow).toNat).map fun x : Nat => startrow + x

/-- `result_matrix` of a rank. -/
def subMatrix (rowsA colsA rowsB colsB : Int) (numWorker rank : Nat) (mA mB : List V) :
    Option (List V) := do
  -- `calloc` gives `NULL` for a negative number
  let resultMatrix := List.replicate (numberOfRows rowsA colsB numWorker).toNat 0
  let s ← (rowsFrom rowsA numWorker rank).foldlM (computeRow colsA rowsB colsB mA mB)
    (resultMatrix, 0)
  some s.1

variable (p : Nat) [NeZero p]

/-- From the first broadcast on, at rank `r`; `matrix_properties` is sent as its bits.  A
    negative count is an error of MPI.  The result is `final_matrix`, which only the root
    has. -/
def calculate (malloc : Nat → Nat → V) (r : Fin p) (matrixProperties : List Nat)
    (mA mB : List V) : Prog (Fin p) (Buffer V) (List V) :=
  .bcast 0 (.ints matrixProperties) fun
    | .ints [rowsA, colsA, rowsB, colsB] =>
      let rowsA := asInt rowsA
      let colsA := asInt colsA
      let rowsB := asInt rowsB
      let colsB := asInt colsB
      let sizeA := asInt (rowsA * colsA)
      let sizeB := asInt (rowsB * colsB)
      let sizeRes := asInt (rowsA * colsB)
      let count := numberOfRows rowsA colsB p
      if sizeA < 0 ∨ sizeB < 0 then .abort
      else
        let mA := if r = 0 then mA else alloc (malloc 0) sizeA
        let mB := if r = 0 then mB else alloc (malloc 1) sizeB
        .bcast 0 (.doubles mA) fun
          | .doubles mA =>
            .bcast 0 (.doubles mB) fun
              | .doubles mB =>
                match subMatrix rowsA colsA rowsB colsB p r mA mB with
                | none => .abort
                | some resultMatrix =>
                  if count < 0 then .abort
                  else
                    .gather 0 (.doubles resultMatrix) fun bufs =>
                      if r = 0 then
                        let results := bufs.map fun
                          | .doubles xs => xs
                          | .ints _ => []
                        match copyRows (fun q => q * count.toNat) 0 results
                            (alloc (malloc 2) sizeRes) with
                        | none => .abort
                        | some finalMatrix => .ret finalMatrix
                      else .ret []
              | .ints _ => .abort
          | .ints _ => .abort
    | _ => .abort

/-- `main` at rank `r`, for the matrices in the two files; it exits when the shapes do not
    fit or the rows cannot be distributed. -/
def main (malloc : Fin p → Nat → Nat → V) (m₁ m₂ : MatrixStruct V) (r : Fin p) :
    Prog (Fin p) (Buffer V) (List V) :=
  if r = 0 then
    if m₁.cols ≠ m₂.rows then .abort
    else if m₁.rows % p ≠ 0 then .abort
    else
      match mat2DTo1D (malloc r 0) m₁, mat2DTo1D (malloc r 1) m₂ with
      | some mA, some mB =>
        calculate p (malloc r) r [m₁.rows, m₁.cols, m₂.rows, m₂.cols] mA mB
      | _, _ => .abort
  else calculate p (malloc r) r [] [] []

/-- An entry of the product, with the terms added up in order. -/
def productEntry (inner cols : Nat) (mA mB : List V) (i j : Nat) : V :=
  (List.range inner).foldl (fun c k => c + mA.getD (i * inner + k) 0 * mB.getD (k * cols + j) 0) 0

end Code

/-- The dimensions of the matrices and the numbers of their entries fit an `int`. -/
structure FitsInt (rows inner cols : Nat) : Prop where
  rows_lt : rows < 2147483648
  inner_lt : inner < 2147483648
  cols_lt : cols < 2147483648
  sizeA_lt : rows * inner < 2147483648
  sizeB_lt : inner * cols < 2147483648
  sizeRes_lt : rows * cols < 2147483648

/-! ## Arrays -/

section Arrays

theorem offset_lt {m n i j : Nat} (hi : i < m) (hj : j < n) : i * n + j < m * n := by
  have h := Nat.mul_le_mul_right n hi
  rw [Nat.succ_mul] at h
  omega

theorem asInt_natCast {x : Nat} (h : x < 2147483648) : asInt x = x := asInt_eq (by omega) (by omega)

theorem asInt_mul {x y : Nat} (h : x * y < 2147483648) :
    asInt ((x : Int) * y) = (x * y : Nat) := by
  rw [← Nat.cast_mul]
  exact asInt_natCast h

variable {V : Type}

@[simp] theorem alloc_length (malloc : Nat → V) (size : Int) :
    (alloc malloc size).length = size.toNat := by
  simp [alloc]

/-- An entry of an array with `m` rows of length `n`. -/
theorem read_offset [Zero V] {xs : List V} {m n i j : Nat} (hlen : xs.length = m * n)
    (hfits : m * n < 2147483648) (hi : i < m) (hj : j < n) :
    read xs (asInt (asInt ((i : Int) * n) + j)) = some (xs.getD (i * n + j) 0) := by
  have hlt := offset_lt hi hj
  rw [asInt_mul (by omega), ← Nat.cast_add, asInt_natCast (by omega), read,
    if_pos (Int.natCast_nonneg _), Int.toNat_natCast, List.getD_eq_getElem?_getD,
    List.getElem?_eq_getElem (by omega), Option.getD_some]

/-- A copy to the left end of what is unset. -/
theorem memcpy_append {done src rest : List V} (off : Nat) (hoff : off = done.length)
    (hlen : src.length ≤ rest.length) :
    memcpy (done ++ rest) off src = some (done ++ src ++ rest.drop src.length) := by
  subst hoff
  rw [memcpy, if_pos (by rw [List.length_append]; omega), setWindow, List.take_left,
    List.drop_append, List.drop_eq_nil_of_le (by omega), List.nil_append, Nat.add_sub_cancel_left]

/-- Rows of equal length fill the array from the left. -/
theorem copyRows_append {off : Nat → Nat} {len m : Nat} (hoff : ∀ i < m, off i = i * len)
    (rows : List (List V)) (hrows : ∀ row ∈ rows, row.length = len) {i : Nat}
    (hm : i + rows.length = m) (done rest : List V) (hdone : done.length = i * len)
    (hrest : rest.length = rows.length * len) :
    copyRows off i rows (done ++ rest) = some (done ++ rows.flatten) := by
  induction rows generalizing i done rest with
  | nil =>
      rw [List.length_nil, Nat.zero_mul] at hrest
      rw [copyRows, List.eq_nil_of_length_eq_zero hrest, List.flatten_nil]
  | cons row rows ih =>
      have hrow := hrows row (List.mem_cons_self ..)
      rw [List.length_cons] at hm
      rw [List.length_cons, Nat.succ_mul] at hrest
      rw [copyRows, hoff i (by omega), memcpy_append (i * len) hdone.symm (by omega)]
      refine (ih (fun row' h => hrows row' (List.mem_cons_of_mem _ h)) (by omega) (done ++ row) _
        (by rw [List.length_append, hdone, hrow, Nat.succ_mul])
        (by rw [List.length_drop]; omega)).trans ?_
      rw [List.flatten_cons, List.append_assoc]

/-- The rows fill an array that is allocated for them. -/
theorem copyRows_eq_flatten {off : Nat → Nat} {len : Nat} {rows : List (List V)} {dst : List V}
    (hoff : ∀ i < rows.length, off i = i * len) (hrows : ∀ row ∈ rows, row.length = len)
    (hdst : dst.length = rows.length * len) : copyRows off 0 rows dst = some rows.flatten :=
  copyRows_append hoff rows hrows (Nat.zero_add _) [] dst (Nat.zero_mul len).symm hdst

/-- The entries, row by row. -/
def MatrixStruct.entries (m : MatrixStruct V) : List V := m.matData.flatten

theorem length_flatten_of_rows {rows : List (List V)} {n : Nat}
    (h : ∀ row ∈ rows, row.length = n) : rows.flatten.length = rows.length * n := by
  rw [List.length_flatten, List.map_congr_left h, List.map_const', List.sum_replicate, smul_eq_mul]

theorem MatrixStruct.entries_length (m : MatrixStruct V) : m.entries.length = m.rows * m.cols := by
  rw [entries, length_flatten_of_rows m.length_cols, m.length_rows]

theorem mat2DTo1D_eq (malloc : Nat → V) {m : MatrixStruct V} (h : m.rows * m.cols < 2147483648) :
    mat2DTo1D malloc m = some m.entries := by
  have hsize : m.rows * m.cols % 4294967296 = m.rows * m.cols := Nat.mod_eq_of_lt (by omega)
  refine copyRows_eq_flatten (fun i hi => ?_) m.length_cols ?_
  · rw [m.length_rows] at hi
    have hle := Nat.mul_le_mul_right m.cols hi.le
    exact Nat.mod_eq_of_lt (by omega)
  · rw [alloc_length, Int.toNat_natCast, hsize, m.length_rows]

end Arrays

/-! ## One rank -/

/-- A loop whose passes append `n` entries each, in the place of zeros. -/
theorem foldlM_fill {V β : Type} [Zero V] {step : List V × Nat → β → Option (List V × Nat)}
    {f : β → List V} {n : Nat} (xs : List β)
    (hstep : ∀ x ∈ xs, ∀ done rest, step (done ++ (List.replicate n 0 ++ rest), done.length) x =
      some (done ++ f x ++ rest, (done ++ f x).length)) (done rest : List V) :
    xs.foldlM step (done ++ (List.replicate (xs.length * n) 0 ++ rest), done.length) =
      some (done ++ xs.flatMap f ++ rest, (done ++ xs.flatMap f).length) := by
  induction xs generalizing done with
  | nil => simp
  | cons x xs ih =>
      rw [List.length_cons, Nat.succ_mul, Nat.add_comm, List.replicate_add, List.append_assoc,
        List.foldlM_cons, hstep x List.mem_cons_self]
      refine (ih (fun y h => hstep y (.tail _ h)) (done ++ f x)).trans ?_
      rw [List.flatMap_cons, List.append_assoc done]

section SubMatrix

variable {V : Type} [Zero V] [Add V] [Mul V] {rows inner cols p : Nat} {mA mB : List V}

/-- Step lemma of the loop over `k`: the entry at `position` grows by one product. -/
theorem addProduct_eq (hfits : FitsInt rows inner cols) (hA : mA.length = rows * inner)
    (hB : mB.length = inner * cols) {i j k : Nat} (hi : i < rows) (hj : j < cols) (hk : k < inner)
    (done rest : List V) (c : V) :
    addProduct inner cols mA mB i j done.length (done ++ c :: rest) k =
      some (done ++
        (c + mA.getD (i * inner + k) 0 * mB.getD (k * cols + j) 0) :: rest) := by
  rw [addProduct, read_offset hA hfits.sizeA_lt hi hk, read_offset hB hfits.sizeB_lt hk hj]
  simp

/-- The entry at `position` after the loop over `k`. -/
theorem foldlM_addProduct (hfits : FitsInt rows inner cols) (hA : mA.length = rows * inner)
    (hB : mB.length = inner * cols) {i j : Nat} (hi : i < rows) (hj : j < cols) (ks : List Nat)
    (hks : ∀ k ∈ ks, k < inner) (done rest : List V) (c : V) :
    ks.foldlM (addProduct inner cols mA mB i j done.length) (done ++ c :: rest) =
      some (done ++ (ks.foldl (fun c k =>
        c + mA.getD (i * inner + k) 0 * mB.getD (k * cols + j) 0) c) :: rest) := by
  induction ks generalizing c with
  | nil => rfl
  | cons k ks ih =>
      rw [List.foldlM_cons, addProduct_eq hfits hA hB hi hj (hks k List.mem_cons_self)]
      exact ih (fun k h => hks k (.tail _ h)) _

/-- Step lemma of the loop over `j`: one more entry of the product. -/
theorem computeEntry_eq (hfits : FitsInt rows inner cols) (hA : mA.length = rows * inner)
    (hB : mB.length = inner * cols) {i j : Nat} (hi : i < rows) (hj : j < cols)
    (done rest : List V) :
    computeEntry inner inner cols mA mB i (done ++ (List.replicate 1 0 ++ rest), done.length) j =
      some (done ++ [productEntry inner cols mA mB i j] ++ rest,
        (done ++ [productEntry inner cols mA mB i j]).length) := by
  have hloop := foldlM_addProduct hfits hA hB hi hj (List.range inner)
    (fun k hk => List.mem_range.mp hk) done rest 0
  rw [computeEntry, Int.toNat_natCast]
  refine (congrArg (· >>= _) hloop).trans ?_
  simp [productEntry]

/-- Row `i` of the product. -/
def productRow (inner cols : Nat) (mA mB : List V) (i : Nat) : List V :=
  (List.range cols).map (productEntry inner cols mA mB i)

/-- Step lemma of the loop over `i`: one more row of the product. -/
theorem computeRow_eq (hfits : FitsInt rows inner cols) (hA : mA.length = rows * inner)
    (hB : mB.length = inner * cols) {i : Nat} (hi : i < rows) (done rest : List V) :
    computeRow inner inner cols mA mB
        (done ++ (List.replicate cols 0 ++ rest), done.length) i =
      some (done ++ productRow inner cols mA mB i ++ rest,
        (done ++ productRow inner cols mA mB i).length) := by
  have h := foldlM_fill (f := fun j => [productEntry inner cols mA mB i j]) (List.range cols)
    (fun j hj => computeEntry_eq hfits hA hB hi (List.mem_range.mp hj)) done rest
  rw [List.length_range, Nat.mul_one, ← List.map_eq_flatMap] at h
  exact h

/-- The rows that a rank computes. -/
def rowsOf (rows p r : Nat) : List Nat := List.range' (r * (rows / p)) (rows / p)

theorem rowsFrom_eq (rows p r : Nat) :
    rowsFrom rows p r = (rowsOf rows p r).map fun i : Nat => (i : Int) := by
  have hcount : (((r : Int) + 1) * (rows / p : Nat) - 1 + 1 - r * (rows / p : Nat)).toNat =
      rows / p := by
    rw [Int.sub_add_cancel, Int.add_mul, Int.one_mul, add_sub_cancel_left, Int.toNat_natCast]
  rw [rowsFrom, ← Int.ofNat_tdiv, hcount, rowsOf, List.range'_eq_map_range, List.map_map]
  refine List.map_congr_left fun x _ => ?_
  show (r : Int) * (rows / p : Nat) + x = ((r * (rows / p) + x : Nat) : Int)
  push_cast
  rfl

theorem mem_rowsOf {r : Fin p} {i : Nat} (hi : i ∈ rowsOf rows p r) : i < rows := by
  rw [rowsOf, List.mem_range'_1] at hi
  have hlast := Nat.mul_le_mul_right (rows / p) (show (r : Nat) + 1 ≤ p from r.isLt)
  have hdiv := Nat.mul_div_le rows p
  rw [Nat.succ_mul] at hlast
  omega

theorem numberOfRows_eq (hfits : FitsInt rows inner cols) (hp : p ∣ rows) :
    numberOfRows rows cols p = (rows / p * cols : Nat) := by
  rw [numberOfRows, asInt_mul hfits.sizeRes_lt, ← Int.ofNat_tdiv, Nat.div_mul_right_comm hp]

/-- No index of a rank is outside its array, and its result is its rows of the product. -/
theorem subMatrix_eq (hfits : FitsInt rows inner cols) (hA : mA.length = rows * inner)
    (hB : mB.length = inner * cols) (hp : p ∣ rows) (r : Fin p) :
    subMatrix rows inner inner cols p r mA mB =
      some ((rowsOf rows p r).flatMap (productRow inner cols mA mB)) := by
  have h := @foldlM_fill V Nat _ (fun s i => computeRow inner inner cols mA mB s i) _ _
    (rowsOf rows p r) (fun i hi => computeRow_eq hfits hA hB (mem_rowsOf hi)) [] []
  have hlength : (rowsOf rows p r).length = rows / p := List.length_range' ..
  rw [hlength] at h
  rw [subMatrix, numberOfRows_eq hfits hp, Int.toNat_natCast, rowsFrom_eq, List.foldlM_map]
  simp only [List.nil_append, List.append_nil, List.length_nil] at h
  rw [h]
  rfl

end SubMatrix

/-! ## The rows of all ranks -/

section Rows

variable {V : Type} [Zero V] [Add V] [Mul V] {rows inner cols p : Nat} [NeZero p]

omit [NeZero p] in
/-- The rows of all ranks, one after the other. -/
theorem flatMap_rowsOf (hp : p ∣ rows) {β : Type} (f : Nat → List β) :
    ((List.finRange p).flatMap fun r : Fin p => (rowsOf rows p r).flatMap f) =
      (List.range rows).flatMap f := by
  have hrange : (List.finRange p).flatMap (fun r : Fin p => rowsOf rows p r) =
      List.range rows := by
    have h := flatMap_chunks id (rows / p) p
    rw [Nat.mul_div_cancel' hp, List.map_id] at h
    rw [← h]
    refine congrArg (List.flatMap · _) (funext fun r => ?_)
    rw [rowsOf, List.range'_eq_map_range]
    rfl
  rw [← List.flatMap_assoc, hrange]

theorem flatMap_productRow_length (mA mB : List V) (is : List Nat) :
    (is.flatMap (productRow inner cols mA mB)).length = is.length * cols := by
  induction is with
  | nil => simp
  | cons i is ih =>
      rw [List.flatMap_cons, List.length_append, ih, productRow, List.length_map,
        List.length_range, List.length_cons, Nat.succ_mul, Nat.add_comm]

/-- The entry at row `i` and column `j` of rows that lie one after the other. -/
theorem getElem?_rows {β : Type} (e : Nat → Nat → β) {i j : Nat} (hi : i < rows) (hj : j < cols) :
    ((List.range rows).flatMap fun i => (List.range cols).map (e i))[i * cols + j]? =
      some (e i j) := by
  have hdivMod : ∀ a b : Nat, b < cols → (a * cols + b) / cols = a ∧ (a * cols + b) % cols = b := by
    intro a b hb
    rw [Nat.mul_comm, Nat.mul_add_div (by omega), Nat.div_eq_of_lt hb, Nat.add_zero,
      Nat.mul_add_mod, Nat.mod_eq_of_lt hb]
    exact ⟨rfl, rfl⟩
  have hflat : ((List.range rows).flatMap fun i => (List.range cols).map (e i)) =
      (List.range (rows * cols)).map fun x => e (x / cols) (x % cols) := by
    rw [← flatMap_chunks, ← @List.map_coe_finRange_eq_range rows, List.flatMap_map]
    refine congrArg (List.flatMap · _) (funext fun i => ?_)
    refine List.map_congr_left fun j hj => ?_
    rw [(hdivMod i j (List.mem_range.mp hj)).1, (hdivMod i j (List.mem_range.mp hj)).2]
  rw [hflat, List.getElem?_map, List.getElem?_range (offset_lt hi hj), Option.map_some,
    (hdivMod i j hj).1, (hdivMod i j hj).2]

/-- What the ranks end with when rank `q` has received the arrays `mA q` and `mB q`: the root
    has all rows. -/
def gathered (rows inner cols p : Nat) [NeZero p] (mA mB : Fin p → List V) (r : Fin p) : List V :=
  if r = 0 then
    (List.finRange p).flatMap fun q : Fin p =>
      (rowsOf rows p q).flatMap (productRow inner cols (mA q) (mB q))
  else []

/-- The gathered results fill `final_matrix`. -/
theorem copyRows_results (hp : p ∣ rows) (mA mB : Fin p → List V) {finalMatrix : List V}
    (hlen : finalMatrix.length = rows * cols) :
    copyRows (fun q => q * (rows / p * cols)) 0 ((List.finRange p).map fun q : Fin p =>
        (rowsOf rows p q).flatMap (productRow inner cols (mA q) (mB q))) finalMatrix =
      some (gathered rows inner cols p mA mB 0) := by
  rw [gathered, if_pos rfl, List.flatMap_def]
  refine copyRows_eq_flatten (fun _ _ => rfl) (fun row hrow => ?_) ?_
  · obtain ⟨q, -, rfl⟩ := List.mem_map.mp hrow
    rw [flatMap_productRow_length, rowsOf, List.length_range']
  · rw [hlen, List.length_map, List.length_finRange, ← Nat.mul_assoc, Nat.mul_div_cancel' hp]

/-- The product of two matrices. -/
def productMatrix (m₁ m₂ : MatrixStruct V) : MatrixStruct V where
  rows := m₁.rows
  cols := m₂.cols
  matData := (List.range m₁.rows).map (productRow m₁.cols m₂.cols m₁.entries m₂.entries)
  length_rows := by simp
  length_cols := by simp [productRow]

theorem entries_productMatrix (m₁ m₂ : MatrixStruct V) :
    (productMatrix m₁ m₂).entries =
      (List.range m₁.rows).flatMap (productRow m₁.cols m₂.cols m₁.entries m₂.entries) :=
  List.flatMap_def.symm

/-- When all ranks have the same arrays, the root has the product. -/
theorem gathered_root {m₁ m₂ : MatrixStruct V} (hp : p ∣ m₁.rows) :
    gathered m₁.rows m₁.cols m₂.cols p (fun _ => m₁.entries) (fun _ => m₂.entries) 0 =
      (productMatrix m₁ m₂).entries := by
  rw [gathered, if_pos rfl, flatMap_rowsOf hp, entries_productMatrix]

theorem productMatrix_getElem? (m₁ m₂ : MatrixStruct V) {i j : Nat} (hi : i < m₁.rows)
    (hj : j < m₂.cols) :
    (productMatrix m₁ m₂).entries[i * m₂.cols + j]? =
      some (productEntry m₁.cols m₂.cols m₁.entries m₂.entries i j) := by
  rw [entries_productMatrix]
  exact getElem?_rows _ hi hj

end Rows

/-! ## The run of all ranks -/

section Run

variable {V : Type} [Zero V] [Add V] [Mul V] {p : Nat} [NeZero p] {m₁ m₂ : MatrixStruct V}

/-- Matrices that pass the checks are laid out by the root, and all ranks calculate. -/
theorem main_eq_calculate (hshape : m₁.cols = m₂.rows) (hp : p ∣ m₁.rows)
    (hfits : FitsInt m₁.rows m₁.cols m₂.cols) (malloc : Fin p → Nat → Nat → V) :
    main p malloc m₁ m₂ = fun r =>
      calculate p (malloc r) r (if r = 0 then [m₁.rows, m₁.cols, m₁.cols, m₂.cols] else [])
        (if r = 0 then m₁.entries else []) (if r = 0 then m₂.entries else []) := by
  have hsizeB := hfits.sizeB_lt
  rw [hshape] at hsizeB
  funext r
  by_cases hr : r = 0
  · subst hr
    simp only [main, if_true, ne_eq, hshape, not_true_eq_false, if_false,
      Nat.mod_eq_zero_of_dvd hp, mat2DTo1D_eq _ hfits.sizeA_lt, mat2DTo1D_eq _ hsizeB]
  · simp only [main, hr, if_false]

/-- The program for any broadcast that delivers integers as they are and arrays in their
    length. -/
theorem runs_main {ok : Fin p → (Fin p → Buffer V) → Prop}
    {deliver : Nat → Fin p → Fin p → Buffer V → Buffer V} (hshape : m₁.cols = m₂.rows)
    (hp : p ∣ m₁.rows) (hfits : FitsInt m₁.rows m₁.cols m₂.cols)
    (malloc : Fin p → Nat → Nat → V)
    (hints : ∀ ks : Fin p → List Nat, ok 0 fun r => .ints (ks r))
    (hdoubles : ∀ xs ∈ [m₁.entries, m₂.entries], ∀ bufs : Fin p → List V, bufs 0 = xs →
      (∀ r, (bufs r).length = xs.length) → ok 0 fun r => .doubles (bufs r))
    (hkept : ∀ i r ks, deliver i 0 r (.ints ks) = .ints ks) {mA mB : Fin p → List V}
    (hgotA : ∀ r, deliver 1 0 r (.doubles m₁.entries) = .doubles (mA r))
    (hgotB : ∀ r, deliver 2 0 r (.doubles m₂.entries) = .doubles (mB r))
    (hlenA : ∀ r, (mA r).length = m₁.entries.length)
    (hlenB : ∀ r, (mB r).length = m₂.entries.length) :
    Runs (List.finRange p) ok deliver 0 (main p malloc m₁ m₂)
      (gathered m₁.rows m₁.cols m₂.cols p mA mB) := by
  rw [m₁.entries_length] at hlenA
  rw [m₂.entries_length, ← hshape] at hlenB
  have hlen : ∀ (xs : List V) (size : Nat) (malloc : Fin p → Nat → V), xs.length = size →
      ∀ r : Fin p, (if r = 0 then (if r = 0 then xs else []) else alloc (malloc r) size).length =
        xs.length := by
    intro xs size malloc hxs r
    split <;> simp [hxs]
  have hpos : ∀ n : Nat, ¬ (n : Int) < 0 := fun n => Int.not_lt.mpr (Int.natCast_nonneg n)
  rw [main_eq_calculate hshape hp hfits]
  refine .bcast (hints _) ?_
  simp only [if_true, hkept, asInt_natCast hfits.rows_lt, asInt_natCast hfits.inner_lt,
    asInt_natCast hfits.cols_lt, asInt_mul hfits.sizeA_lt, asInt_mul hfits.sizeB_lt,
    asInt_mul hfits.sizeRes_lt, numberOfRows_eq hfits hp, hpos, or_self, if_false]
  refine .bcast (hdoubles m₁.entries (.head _) _ rfl
    (hlen _ _ (fun r => malloc r 0) m₁.entries_length)) ?_
  simp only [if_true, hgotA]
  refine .bcast (hdoubles m₂.entries (.tail _ (.head _)) _ rfl
    (hlen _ _ (fun r => malloc r 1) (by rw [m₂.entries_length, hshape]))) ?_
  simp only [if_true, hgotB, fun r => subMatrix_eq hfits (hlenA r) (hlenB r) hp r]
  refine .gather ?_
  refine cast (congrArg (fun P => Runs _ _ _ 3 P _) (funext fun r => ?_)) (Runs.ret _)
  by_cases hr : r = 0
  · subst hr
    simp only [if_true, List.map_map, Function.comp_def, Int.toNat_natCast]
    rw [copyRows_results hp mA mB (by rw [alloc_length, Int.toNat_natCast])]
  · simp only [hr, if_false, gathered]

/-- With a broadcast that delivers the arrays, the root gets the product. -/
theorem computes_main {most : Nat} (hshape : m₁.cols = m₂.rows) (hp : p ∣ m₁.rows)
    (hfits : FitsInt m₁.rows m₁.cols m₂.cols) (malloc : Fin p → Nat → Nat → V)
    (hcallable : ∀ xs ∈ [m₁.entries, m₂.entries], 1 ≤ xs.length ∧ xs.length ≤ most) :
    Computes most (main p malloc m₁ m₂)
      (gathered m₁.rows m₁.cols m₂.cols p (fun _ => m₁.entries) fun _ => m₂.entries) :=
  runs_main hshape hp hfits malloc (fun ks => .inl ⟨ks, rfl⟩)
    (fun xs hxs _ _ hlen => callable_doubles (hcallable xs hxs).1 (hcallable xs hxs).2 hlen)
    (fun _ _ _ => rfl) (fun _ => rfl) (fun _ => rfl) (fun _ => rfl) fun _ => rfl

/-- With `MPI_Bcast` it gets the product of any matrices that fit. -/
theorem main_yields (hshape : m₁.cols = m₂.rows) (hp : p ∣ m₁.rows)
    (hfits : FitsInt m₁.rows m₁.cols m₂.cols) (malloc : Fin p → Nat → Nat → V) :
    ∃ F, Yields (withBcast (main p malloc m₁ m₂)) F ∧
      F 0 = (productMatrix m₁ m₂).entries := by
  have hrun := @runs_main V _ _ _ p _ m₁ m₂ (fun _ _ => True) (fun _ _ _ m => m) hshape hp hfits
    malloc (fun _ => trivial) (fun _ _ _ _ _ => trivial) (fun _ _ _ => rfl) (fun _ => m₁.entries)
    (fun _ => m₂.entries) (fun _ => rfl) (fun _ => rfl) (fun _ => rfl) fun _ => rfl
  have hproj : ∀ m : Buffer V, some (id m) = some m := fun _ => rfl
  exact ⟨_, (hrun.reaches (List.nodup_finRange p) List.mem_finRange hproj Tag.bcast
    delivers_withBcast).determined, gathered_root hp⟩

end Run

/-! ## The product over the rationals -/

/-- A matrix as `matrix_struct`. -/
def MatrixStruct.ofMatrix {m n : Nat} (A : Matrix (Fin m) (Fin n) ℚ) : MatrixStruct ℚ where
  rows := m
  cols := n
  matData := List.ofFn fun i => List.ofFn (A i)
  length_rows := List.length_ofFn
  length_cols row hrow := by
    obtain ⟨i, rfl⟩ := (List.mem_ofFn' _ _).mp hrow
    exact List.length_ofFn

section Rationals

variable {m n inner : Nat}

theorem entries_ofMatrix (A : Matrix (Fin m) (Fin n) ℚ) (i : Fin m) (j : Fin n) :
    (MatrixStruct.ofMatrix A).entries.getD (i * n + j) 0 = A i j := by
  let e (i j : Nat) : ℚ := if h : i < m ∧ j < n then A ⟨i, h.1⟩ ⟨j, h.2⟩ else 0
  have he : ∀ (i : Fin m) (j : Fin n), e i j = A i j := fun i j =>
    dif_pos (show (i : Nat) < m ∧ (j : Nat) < n from ⟨i.isLt, j.isLt⟩)
  have hentries : (MatrixStruct.ofMatrix A).entries =
      (List.range m).flatMap fun i => (List.range n).map (e i) := by
    show (List.ofFn fun i => List.ofFn (A i)).flatten = _
    rw [List.flatMap_def, List.ofFn_eq_map, ← @List.map_coe_finRange_eq_range m, List.map_map]
    refine congrArg List.flatten (List.map_congr_left fun i _ => ?_)
    rw [Function.comp_apply, List.ofFn_eq_map, ← List.map_coe_finRange_eq_range, List.map_map]
    exact List.map_congr_left fun j _ => (he i j).symm
  rw [hentries, List.getD_eq_getElem?_getD, getElem?_rows e i.isLt j.isLt]
  exact he i j

/-- The terms of an entry, added up in order. -/
theorem productEntry_ofMatrix (A : Matrix (Fin m) (Fin inner) ℚ) (B : Matrix (Fin inner) (Fin n) ℚ)
    (i : Fin m) (j : Fin n) :
    productEntry inner n (MatrixStruct.ofMatrix A).entries (MatrixStruct.ofMatrix B).entries i j =
      (A * B) i j := by
  have hfold : ∀ (ks : List (Fin inner)) (c : ℚ), (ks.map Fin.val).foldl (fun c k =>
      c + (MatrixStruct.ofMatrix A).entries.getD (i * inner + k) 0 *
        (MatrixStruct.ofMatrix B).entries.getD (k * n + j) 0) c =
      c + (ks.map fun k => A i k * B k j).sum := by
    intro ks
    induction ks with
    | nil => simp
    | cons k ks ih =>
        intro c
        rw [List.map_cons, List.foldl_cons, ih, entries_ofMatrix, entries_ofMatrix, List.map_cons,
          List.sum_cons, add_assoc]
  rw [productEntry, ← List.map_coe_finRange_eq_range, hfold, zero_add, Matrix.mul_apply,
    ← List.ofFn_eq_map, List.sum_ofFn]

end Rationals

/-- Matrices that fit, with any number of ranks that divides the number of rows, and sizes that
    fit an `int`: no index is outside its array at any rank, and in every complete run the root
    ends with the product. -/
theorem main_multiplies (rows inner cols p : Nat) [NeZero p] (hp : p ∣ rows)
    (hfits : FitsInt rows inner cols) (A : Matrix (Fin rows) (Fin inner) ℚ)
    (B : Matrix (Fin inner) (Fin cols) ℚ) (malloc : Fin p → Nat → Nat → ℚ) :
    (∃ mA mB, mat2DTo1D (malloc 0 0) (.ofMatrix A) = some mA ∧
      mat2DTo1D (malloc 0 1) (.ofMatrix B) = some mB ∧
      ∀ r : Fin p, (subMatrix rows inner inner cols p r mA mB).isSome) ∧
    ∃ finalMatrix : Fin p → List ℚ,
      Yields (withBcast (main p malloc (.ofMatrix A) (.ofMatrix B))) finalMatrix ∧
      (finalMatrix 0).length = rows * cols ∧
      ∀ (i : Fin rows) (j : Fin cols),
        (finalMatrix 0)[(i : Nat) * cols + j]? = some ((A * B) i j) := by
  obtain ⟨F, hyields, hroot⟩ := @main_yields ℚ _ _ _ p _ (.ofMatrix A) (.ofMatrix B) rfl hp hfits
    malloc
  refine ⟨⟨_, _, mat2DTo1D_eq _ hfits.sizeA_lt, mat2DTo1D_eq _ hfits.sizeB_lt, fun r => ?_⟩, F,
    hyields, ?_, fun i j => ?_⟩
  · rw [subMatrix_eq hfits (MatrixStruct.entries_length _) (MatrixStruct.entries_length _) hp r]
    rfl
  · rw [hroot, MatrixStruct.entries_length]
    rfl
  · rw [hroot, ← productEntry_ofMatrix]
    exact productMatrix_getElem? (.ofMatrix A) (.ofMatrix B) i.isLt j.isLt

/-- Two rows, one for each of two ranks. -/
theorem main_multiplies_two : ∃ finalMatrix : Fin 2 → List ℚ,
    Yields (withBcast (main 2 (fun _ _ _ => 7) (.ofMatrix !![2; 3])
      (.ofMatrix !![1, 10, 100]))) finalMatrix ∧ (finalMatrix 0)[3]? = some 3 := by
  obtain ⟨-, F, hyields, -, hentry⟩ :=
    main_multiplies 2 1 3 2 (dvd_refl 2) (by constructor <;> decide) !![2; 3] !![1, 10, 100]
      fun _ _ _ => 7
  have h := hentry 1 0
  exact ⟨F, hyields, h.trans (by norm_num [Matrix.mul_apply])⟩

/-- Without an entry in `result_matrix` the first access is outside. -/
theorem subMatrix_eq_none {V : Type} [Zero V] [Add V] [Mul V] {rowsA colsA rowsB colsB : Int}
    {numWorker rank : Nat} (hrows : 1 ≤ rowsA.tdiv numWorker) (hinner : 1 ≤ rowsB)
    (hcols : 1 ≤ colsB) (hnone : numberOfRows rowsA colsB numWorker ≤ 0) (mA mB : List V) :
    subMatrix rowsA colsA rowsB colsB numWorker rank mA mB = none := by
  have hfirst : ∀ n : Int, 1 ≤ n → List.range n.toNat = 0 :: List.range' 1 (n.toNat - 1) := by
    intro n hn
    rw [List.range_eq_range', ← Nat.sub_add_cancel (show 1 ≤ n.toNat by omega), List.range'_succ,
      Nat.add_sub_cancel]
  have hcount : 1 ≤ ((rank : Int) + 1) * rowsA.tdiv numWorker - 1 + 1 -
      rank * rowsA.tdiv numWorker := by
    rw [Int.sub_add_cancel, Int.add_mul, Int.one_mul, add_sub_cancel_left]
    exact hrows
  have hadd : ∀ i : Int, addProduct colsA colsB mA mB i 0 0 [] 0 = none := by
    intro i
    simp [addProduct]
  have hrow : ∀ i : Int, computeRow colsA rowsB colsB mA mB ([], 0) i = none := by
    intro i
    simp [computeRow, computeEntry, hfirst _ hcols, hfirst _ hinner, hadd]
  simp only [subMatrix, rowsFrom, Int.toNat_of_nonpos hnone, List.replicate_zero,
    hfirst _ hcount, List.map_cons, List.foldlM_cons, hrow]
  rfl

/-- `46341 * 46341` does not fit an `int`: a column times a row of 46341 zeros is read and
    laid out, and then the first access to `result_matrix` is outside. -/
theorem main_overflows :
    (mat2DTo1D (fun _ => 0) (.ofMatrix (0 : Matrix (Fin 46341) (Fin 1) ℚ))).isSome ∧
    (mat2DTo1D (fun _ => 0) (.ofMatrix (0 : Matrix (Fin 1) (Fin 46341) ℚ))).isSome ∧
    ∀ mA mB : List ℚ, subMatrix (46341 : Nat) (1 : Nat) (1 : Nat) (46341 : Nat) 1 0 mA mB =
      none := by
  refine ⟨?_, ?_, subMatrix_eq_none (by decide) (by decide) (by decide) ?_⟩
  · rw [mat2DTo1D_eq _ (show 46341 * 1 < 2147483648 by decide)]
    rfl
  · rw [mat2DTo1D_eq _ (show 1 * 46341 < 2147483648 by decide)]
    rfl
  · unfold numberOfRows asInt
    decide

end MpiApps.MatMul
