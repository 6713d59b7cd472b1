/-
  MpiApps.Apps.Lu

  LU factorisation with the rows distributed cyclically over the ranks.

  Every rank holds the whole matrix.  In step `i` rank `id` eliminates the rows `j > i` with
  `j % p = id`, then each row is broadcast by the rank that has eliminated it.  No row that is
  read in a step is written in it, so after the broadcasts every replica is what one
  rank alone would have computed (`reaches_mainLoop`), for any number of ranks.  What one rank
  computes is Gaussian elimination in place (`entries_elimRows`), and the factors are those
  of `MpiApps.Lib.Elimination`.
-/

import MpiApps.Lib.Collectives
import MpiApps.Lib.Elimination
import Mathlib.Data.Rat.Defs

namespace MpiApps.Lu

open MpiApps.MessagePassing MpiApps.Elimination

/-! ## The code -/

section Code

variable (mxSize p : Nat)

/-- `forw_elim`, with the two row pointers as positions in the matrix. -/
def forwElim (origin masterRow dim : Nat) (A : Nat → ℚ) : Nat → ℚ :=
  if A origin = 0 then A
  else
    let k := A origin / A masterRow
    let A := (List.range' 1 (dim - 1)).foldl (fun A i =>
      Function.update A (origin + i) (A (origin + i) - k * A (masterRow + i))) A
    Function.update A origin k

/-- The rows `j` of the two inner loops. -/
def rowsBelow (diagRef : Nat) : List Nat := List.range' (diagRef + 1) (mxSize - (diagRef + 1))

/-- The first inner loop at rank `id`. -/
def elimRows (id diagRef : Nat) (js : List Nat) (A : Nat → ℚ) : Nat → ℚ :=
  js.foldl (fun A j =>
    if j % p = id then
      forwElim (j * mxSize + diagRef) (diagRef * mxSize + diagRef) (mxSize - diagRef) A
    else A) A

/-- The `size` doubles from `save` on, as they are sent. -/
def load (save size : Nat) (A : Nat → ℚ) : List ℚ := (List.range size).map fun c => A (save + c)

/-- Doubles received into `save`. -/
def store (save : Nat) (row : List ℚ) (A : Nat → ℚ) : Nat → ℚ := fun x =>
  if save ≤ x ∧ x < save + row.length then row.getD (x - save) 0 else A x

variable [NeZero p]

/-- The second inner loop at rank `id`, and what follows it. -/
def bcastRows (id : Fin p) (diagRef : Nat) : List Nat → (Nat → ℚ) →
    ((Nat → ℚ) → Proc (Fin p) Unit (List ℚ) (Nat → ℚ)) → Proc (Fin p) Unit (List ℚ) (Nat → ℚ)
  | [], A, k => k A
  | j :: js, A, k =>
    let save := j * mxSize + diagRef
    bcast (List.finRange p) (Fin.ofNat p j) id () (load save (mxSize - diagRef) A) fun row =>
      bcastRows id diagRef js (store save row A) k

/-- The outer loop at rank `id`, up to the matrix on return. -/
def mainLoop (id : Fin p) : List Nat → (Nat → ℚ) → Proc (Fin p) Unit (List ℚ) (Nat → ℚ)
  | [], A => .ret A
  | i :: is, A =>
    bcastRows mxSize p id i (rowsBelow mxSize i) (elimRows mxSize p id i (rowsBelow mxSize i) A)
      fun A => mainLoop id is A

/-- All ranks before the outer loop, with the same matrix. -/
def luSys (A : Nat → ℚ) : Sys (Fin p) Unit (List ℚ) (Nat → ℚ) :=
  Sys.start fun id => mainLoop mxSize p id (List.range (mxSize - 1)) A

end Code

/-- What `L_print` prints. -/
def lPrint (dim : Nat) (M : Nat → ℚ) : Matrix (Fin dim) (Fin dim) ℚ := fun i j =>
  if j > i then 0 else if i = j then 1 else M (i * dim + j)

/-- What `U_print` prints. -/
def uPrint (dim : Nat) (M : Nat → ℚ) : Matrix (Fin dim) (Fin dim) ℚ := fun i j =>
  if j ≥ i then M (i * dim + j) else 0

/-! ## Rows in memory -/

/-- The entry in row `r` and column `c`. -/
def entries (n : Nat) (A : Nat → ℚ) (r c : Nat) : ℚ := A (r * n + c)

/-- A position with its row and column lies in the part of row `j` from column `i` on exactly
    if it is in this row and not before this column. -/
theorem mem_row_iff {n i j r c : Nat} (hi : i < n) (hc : c < n) :
    j * n + i ≤ r * n + c ∧ r * n + c < j * n + i + (n - i) ↔ r = j ∧ i ≤ c := by
  rcases lt_trichotomy r j with h | rfl | h
  · have := Nat.mul_le_mul_right n h
    rw [Nat.succ_mul] at this
    omega
  · omega
  · have := Nat.mul_le_mul_right n h
    rw [Nat.succ_mul] at this
    omega

theorem ext_entries {n : Nat} (hn : 0 < n) {A B : Nat → ℚ}
    (h : ∀ r c, c < n → entries n A r c = entries n B r c) : A = B := by
  funext x
  have hx := h (x / n) (x % n) (Nat.mod_lt x hn)
  rw [entries, entries, Nat.div_add_mod'] at hx
  exact hx

/-! ## One row -/

theorem foldl_update (origin masterRow : Nat) (k : ℚ) (A : Nat → ℚ) {m : Nat}
    (h : masterRow + m ≤ origin) (x : Nat) :
    ((List.range' 1 m).foldl (fun A i =>
      Function.update A (origin + i) (A (origin + i) - k * A (masterRow + i))) A) x =
      if origin < x ∧ x ≤ origin + m then A x - k * A (masterRow + (x - origin)) else A x := by
  induction m generalizing x with
  | zero => rw [if_neg (by omega)]; rfl
  | succ m ih =>
      rw [List.range'_1_concat, List.foldl_append, List.foldl_cons, List.foldl_nil]
      by_cases hx : x = origin + (1 + m)
      · -- the entry of this round; neither it nor its partner was written before
        rw [hx, Function.update_self, ih (by omega), ih (by omega), if_neg (by omega),
          if_neg (by omega), if_pos (by omega), show origin + (1 + m) - origin = 1 + m by omega]
      · rw [Function.update_of_ne hx, ih (by omega)]
        by_cases hin : origin < x ∧ x ≤ origin + m
        · rw [if_pos hin, if_pos (by omega)]
        · rw [if_neg hin, if_neg (by omega)]

/-- `forw_elim` on rows that do not overlap; a zero entry has the factor zero. -/
theorem forwElim_apply {origin masterRow dim : Nat} (hdim : 0 < dim)
    (h : masterRow + dim ≤ origin) (A : Nat → ℚ) (x : Nat) :
    forwElim origin masterRow dim A x =
      if origin ≤ x ∧ x < origin + dim then
        if x = origin then A origin / A masterRow
        else A x - A origin / A masterRow * A (masterRow + (x - origin))
      else A x := by
  -- the source skips a row whose factor is 0
  by_cases hzero : A origin = 0
  · rw [forwElim, if_pos hzero, hzero, zero_div, zero_mul, sub_zero]
    split_ifs with hin hx
    · rw [hx, hzero]
    · rfl
    · rfl
  · simp only [forwElim, hzero, if_false]
    by_cases hx : x = origin
    · rw [hx, Function.update_self, if_pos (by omega), if_pos rfl]
    · rw [Function.update_of_ne hx, foldl_update _ _ _ _ (by omega)]
      by_cases hin : origin ≤ x ∧ x < origin + dim
      · rw [if_pos (by omega), if_pos hin, if_neg hx]
      · rw [if_neg (by omega), if_neg hin]

theorem entries_forwElim {n i j r c : Nat} (hi : i < n) (hij : i < j) (hc : c < n)
    (A : Nat → ℚ) :
    entries n (forwElim (j * n + i) (i * n + i) (n - i) A) r c =
      if r = j then eliminate i (entries n A) r c else entries n A r c := by
  -- row j lies behind row i, so the two windows are disjoint
  have hrows := Nat.mul_le_mul_right n hij
  rw [Nat.succ_mul] at hrows
  have hrow := @mem_row_iff n i j r c hi hc
  rw [entries, forwElim_apply (by omega) (by omega), eliminate]
  by_cases hr : r = j
  · subst hr
    rw [if_pos rfl]
    by_cases hic : i ≤ c
    · rw [if_pos (hrow.mpr ⟨rfl, hic⟩), if_pos (show i < r ∧ i ≤ c from ⟨hij, hic⟩)]
      by_cases hci : c = i
      · rw [if_pos hci, if_pos (show r * n + c = r * n + i by rw [hci])]
        rfl
      · rw [if_neg hci, if_neg (show ¬ r * n + c = r * n + i by omega),
          show i * n + i + (r * n + c - (r * n + i)) = i * n + c by omega]
        rfl
    · rw [if_neg fun h => hic (hrow.mp h).2, if_neg (show ¬ (i < r ∧ i ≤ c) from fun h => hic h.2)]
      rfl
  · rw [if_neg fun h => hr (hrow.mp h).1, if_neg hr]
    rfl

/-! ## All rows -/

/-- A rank eliminates the rows it owns and leaves the others alone. -/
theorem entries_elimRows {n p id i r c : Nat} (hi : i < n) (hc : c < n) {js : List Nat}
    (hjs : js.Nodup) (hlt : ∀ j ∈ js, i < j) (A : Nat → ℚ) :
    entries n (elimRows n p id i js A) r c =
      if r ∈ js ∧ r % p = id then eliminate i (entries n A) r c else entries n A r c := by
  induction js generalizing A with
  | nil =>
      rw [if_neg fun h => List.not_mem_nil h.1]
      rfl
  | cons j js ih =>
      obtain ⟨hj, hjs⟩ := List.nodup_cons.mp hjs
      have hij := hlt j List.mem_cons_self
      have hrest := fun B => ih hjs (fun j hj => hlt j (List.mem_cons_of_mem _ hj)) B
      rw [elimRows, List.foldl_cons]
      by_cases hown : j % p = id
      · rw [if_pos hown]
        refine (hrest _).trans ?_
        have hentry := fun r c hc => @entries_forwElim n i j r c hi hij hc A
        by_cases hr : r = j
        · subst hr
          rw [if_neg fun h => hj h.1, hentry r c hc, if_pos rfl,
            if_pos ⟨List.mem_cons_self, hown⟩]
        · by_cases hin : r ∈ js ∧ r % p = id
          · -- neither this row nor the row of the pivot was written in this round
            rw [if_pos hin, if_pos ⟨List.mem_cons_of_mem _ hin.1, hin.2⟩, eliminate, eliminate]
            rw [hentry r i hi, hentry i i hi, hentry r c hc, hentry i c hc]
            simp only [hr, hij.ne, if_false]
          · rw [if_neg hin, hentry r c hc, if_neg hr, if_neg]
            rintro ⟨hmem, hp⟩
            exact (List.mem_cons.mp hmem).elim hr fun h => hin ⟨h, hp⟩
      · rw [if_neg hown]
        refine (hrest A).trans ?_
        have hiff : r ∈ js ∧ r % p = id ↔ r ∈ j :: js ∧ r % p = id := by
          constructor
          · exact fun h => ⟨List.mem_cons_of_mem _ h.1, h.2⟩
          · rintro ⟨hmem, hp⟩
            rcases List.mem_cons.mp hmem with rfl | h
            · exact absurd hp hown
            · exact ⟨h, hp⟩
        exact if_congr hiff rfl rfl

theorem mem_rowsBelow {n i j : Nat} : j ∈ rowsBelow n i ↔ i < j ∧ j < n := by
  rw [rowsBelow, List.mem_range'_1]
  omega

theorem rowsBelow_nodup (n i : Nat) : (rowsBelow n i).Nodup := List.nodup_range'

/-- The matrix after the first inner loop of one rank alone. -/
def stage (n i : Nat) (A : Nat → ℚ) : Nat → ℚ := elimRows n 1 0 i (rowsBelow n i) A

theorem entries_stage {n i r c : Nat} (hi : i < n) (hc : c < n) (A : Nat → ℚ) :
    entries n (stage n i A) r c =
      if i < r ∧ r < n then eliminate i (entries n A) r c else entries n A r c := by
  rw [stage, entries_elimRows hi hc (rowsBelow_nodup n i) fun j hj => (mem_rowsBelow.mp hj).1]
  simp only [mem_rowsBelow, Nat.mod_one, and_true]

/-! ## The broadcasts -/

/-- The replicas after the broadcasts of the rows `js`. -/
def bcastAll (n p i : Nat) [NeZero p] (js : List Nat) (B : Fin p → Nat → ℚ) : Fin p → Nat → ℚ :=
  js.foldl (fun B j r =>
    store (j * n + i) (load (j * n + i) (n - i) (B (Fin.ofNat p j))) (B r)) B

theorem entries_store {n i j r c : Nat} (hi : i < n) (hc : c < n) (A B : Nat → ℚ) :
    entries n (store (j * n + i) (load (j * n + i) (n - i) A) B) r c =
      if r = j ∧ i ≤ c then entries n A r c else entries n B r c := by
  have hrow := @mem_row_iff n i j r c hi hc
  have hlen : (load (j * n + i) (n - i) A).length = n - i := by simp [load]
  rw [entries, store, hlen]
  by_cases h : r = j ∧ i ≤ c
  · have hin := hrow.mpr h
    have hlt : r * n + c - (j * n + i) < n - i := by omega
    rw [if_pos hin, if_pos h, load, List.getD_eq_getElem?_getD, List.getElem?_map,
      List.getElem?_range hlt]
    show A (j * n + i + (r * n + c - (j * n + i))) = A (r * n + c)
    rw [Nat.add_sub_cancel' hin.1]
  · rw [if_neg fun hin => h (hrow.mp hin), if_neg h]
    rfl

/-- Each row comes from the rank that has eliminated it. -/
theorem entries_bcastAll {n p i r c : Nat} [NeZero p] (hi : i < n) (hc : c < n) {js : List Nat}
    (hjs : js.Nodup) (B : Fin p → Nat → ℚ) (q : Fin p) :
    entries n (bcastAll n p i js B q) r c =
      if r ∈ js ∧ i ≤ c then entries n (B (Fin.ofNat p r)) r c else entries n (B q) r c := by
  induction js generalizing B with
  | nil =>
      rw [if_neg fun h => List.not_mem_nil h.1]
      rfl
  | cons j js ih =>
      obtain ⟨hj, hjs⟩ := List.nodup_cons.mp hjs
      rw [bcastAll, List.foldl_cons]
      refine (ih hjs _).trans ?_
      simp only [entries_store hi hc]
      by_cases hr : r = j
      · subst hr
        rw [if_neg fun h => hj h.1]
        simp only [true_and, List.mem_cons_self]
      · simp only [List.mem_cons, hr, false_and, false_or, if_false]

/-- After the broadcasts every replica is the matrix of one rank alone. -/
theorem bcastAll_elimRows {n p i : Nat} [NeZero p] (hi : i < n) (A : Nat → ℚ) (q : Fin p) :
    bcastAll n p i (rowsBelow n i) (fun r => elimRows n p r i (rowsBelow n i) A) q =
      stage n i A := by
  have hnodup := rowsBelow_nodup n i
  have hlt : ∀ j ∈ rowsBelow n i, i < j := fun j hj => (mem_rowsBelow.mp hj).1
  refine ext_entries (Nat.zero_lt_of_lt hi) fun r c hc => ?_
  rw [entries_bcastAll hi hc hnodup, entries_stage hi hc]
  have hrank : ∀ q : Fin p, entries n (elimRows n p q i (rowsBelow n i) A) r c =
      if r ∈ rowsBelow n i ∧ r % p = q then eliminate i (entries n A) r c else entries n A r c :=
    fun q => entries_elimRows hi hc hnodup hlt A
  rw [hrank, hrank]
  simp only [mem_rowsBelow, Fin.val_ofNat, and_true]
  by_cases hr : i < r ∧ r < n
  · by_cases hic : i ≤ c
    · rw [if_pos ⟨hr, hic⟩]
    · -- columns before the pivot are not sent, and not changed
      have hkeep : eliminate i (entries n A) r c = entries n A r c := if_neg fun h => hic h.2
      rw [if_neg fun h => hic h.2, hkeep, ite_self, ite_self]
  · rw [if_neg fun h => hr h.1, if_neg fun h => hr h.1, if_neg hr]

/-! ## The program -/

section Program

variable {n p : Nat} [NeZero p]

theorem reaches_bcastRows (i : Nat) (js : List Nat) (B : Fin p → Nat → ℚ)
    (k : Fin p → (Nat → ℚ) → Proc (Fin p) Unit (List ℚ) (Nat → ℚ)) :
    Reaches (fun r => bcastRows n p r i js (B r) (k r)) (fun r => k r (bcastAll n p i js B r)) := by
  induction js generalizing B with
  | nil => exact .refl _
  | cons j js ih =>
      have hfirst := reaches_bcast (List.nodup_finRange p) (fun r => List.mem_finRange r)
        (Fin.ofNat p j) () (fun r => load (j * n + i) (n - i) (B r))
        fun r row => bcastRows n p r i js (store (j * n + i) row (B r)) (k r)
      exact hfirst.trans (ih _)

/-- Run lemma: every rank returns what one rank alone computes. -/
theorem reaches_mainLoop {is : List Nat} (his : ∀ i ∈ is, i < n) (A : Nat → ℚ) :
    Reaches (fun r => mainLoop n p r is A)
      (fun _ => .ret (is.foldl (fun A i => stage n i A) A)) := by
  induction is generalizing A with
  | nil => exact .refl _
  | cons i is ih =>
      have hi := his i List.mem_cons_self
      have hrows := @reaches_bcastRows n p _ i (rowsBelow n i)
        (fun r : Fin p => elimRows n p r i (rowsBelow n i) A) fun r A => mainLoop n p r is A
      simp only [bcastAll_elimRows hi] at hrows
      exact hrows.trans (ih (fun i hi => his i (List.mem_cons_of_mem _ hi)) _)

end Program

/-! ## The factors -/

/-- The matrix of one rank alone after `i` rounds. -/
def stages (n : Nat) (A : Nat → ℚ) (i : Nat) : Nat → ℚ :=
  (List.range i).foldl (fun A i => stage n i A) A

theorem stages_succ (n : Nat) (A : Nat → ℚ) (i : Nat) :
    stages n A (i + 1) = stage n i (stages n A i) := by
  rw [stages, List.range_succ, List.foldl_append]
  rfl

/-- No division that `forw_elim` executes has a zero divisor: in round `i` it divides for each
    row below row `i` whose entry in column `i` is not zero. -/
def DivisionsDefined (n : Nat) (A : Nat → ℚ) : Prop :=
  ∀ i j, i < n - 1 → i < j → j < n → stages n A i (j * n + i) ≠ 0 → stages n A i (i * n + i) ≠ 0

/-- Invariant: after `i` rounds the matrix is factored up to column `i`. -/
theorem partialLU_stages {n : Nat} {A : Nat → ℚ} (hdiv : DivisionsDefined n A) {i : Nat}
    (hi : i ≤ n - 1) : PartialLU n (entries n A) (entries n (stages n A i)) i := by
  induction i with
  | zero => exact .zero
  | succ i ih =>
      have hlt : i < n := by omega
      have hstep := (ih (by omega)).eliminate fun r hr hrn => hdiv i r (by omega) hr hrn
      refine hstep.congr hlt fun r c hr hc => ?_
      rw [stages_succ, entries_stage hlt hc]
      by_cases hir : i < r
      · rw [if_pos ⟨hir, hr⟩]
      · have hkeep : eliminate i (entries n (stages n A i)) r c = entries n (stages n A i) r c :=
          if_neg fun h => hir h.1
        rw [if_neg fun h => hir h.1, hkeep]

theorem lPrint_eq (n : Nat) (M : Nat → ℚ) :
    lPrint n M = Matrix.of fun r k : Fin n => unitLower (entries n M) r k := by
  ext r k
  rw [lPrint, Matrix.of_apply, unitLower]
  rcases lt_trichotomy r k with h | rfl | h
  · rw [if_pos h, if_neg (by omega), if_neg (by omega)]
  · simp
  · rw [if_neg (by omega), if_neg h.ne', if_pos (show (k : Nat) < r from h)]
    rfl

theorem uPrint_eq (n : Nat) (M : Nat → ℚ) :
    uPrint n M = Matrix.of fun k c : Fin n => upper (entries n M) k c := by
  ext k c
  rfl

/-- With any number of ranks all replicas end as the matrix that one rank alone computes, in
    every complete run, and the printed factors have the initial matrix as their product. -/
theorem lu_correct (n p : Nat) [NeZero p] (hn : 1 ≤ n) (A : Nat → ℚ) :
    ∃ M,
      (∃ t, Outcome (luSys n p A) t (fun _ => M) ∧
        ∀ u m, Run (luSys n p A) u m → (∃ k, Run u t k) ∧ (u.Terminal → u = t)) ∧
      (∃ t, Outcome (luSys n 1 A) t fun _ => M) ∧
      (DivisionsDefined n A →
        lPrint n M * uPrint n M = Matrix.of fun r c : Fin n => A (r * n + c)) := by
  have hrounds : ∀ i ∈ List.range (n - 1), i < n := fun i hi => by
    have := List.mem_range.mp hi
    omega
  refine ⟨stages n A (n - 1), (reaches_mainLoop hrounds A).determined, ?_, fun hdiv => ?_⟩
  · obtain ⟨t, ht, _⟩ := (@reaches_mainLoop n 1 _ _ hrounds A).determined
    exact ⟨t, ht⟩
  · rw [lPrint_eq, uPrint_eq]
    exact (partialLU_stages hdiv (Nat.le_refl _)).product hn

/-- `[[2, 1], [6, 5]]` in row-major order. -/
def twoByTwo (x : Nat) : ℚ := [2, 1, 6, 5].getD x 0

/-- Three ranks, one of which owns no row. -/
theorem lu_correct_two : ∃ M,
    (∃ t, Outcome (luSys 2 3 twoByTwo) t fun _ => M) ∧
    lPrint 2 M * uPrint 2 M = Matrix.of fun r c : Fin 2 => twoByTwo (r * 2 + c) := by
  obtain ⟨M, ⟨t, ht, _⟩, _, hproduct⟩ := @lu_correct 2 3 ⟨by decide⟩ (by decide) twoByTwo
  refine ⟨M, ⟨t, ht⟩, hproduct ?_⟩
  intro i j hi _ _ _
  obtain rfl : i = 0 := by omega
  show (2 : ℚ) ≠ 0
  exact two_ne_zero

end MpiApps.Lu
