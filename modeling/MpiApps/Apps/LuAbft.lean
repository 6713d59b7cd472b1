/-
  MpiApps.Apps.LuAbft

  LU factorisation in any arithmetic, and with `MPI_Bcast_abft`.

  Nothing in the rows that a rank eliminates depends on the rows of another one, so the
  replicas agree after the broadcasts whatever the arithmetic is: with doubles the matrix is
  that of one rank alone, bit for bit (`computes_lu`).  The rows may be broadcast by
  `MPI_Bcast_abft`, with flips in every message (`luAbft_faultFree`).  In exact arithmetic the
  program is the one of `MpiApps.Apps.Lu` (`forwElim_rat`).
-/

import MpiApps.Apps.Lu
import MpiApps.Fault.AbftCalls
import MpiApps.Lib.Replicas

namespace MpiApps.LuAbft

open MpiApps.Codec MpiApps.Fault MpiApps.Lu MpiApps.MessagePassing MpiApps.Replicas

/-! ## The code -/

/-- The operations of `forw_elim`. -/
class LuArith (V : Type) extends Sub V, Mul V, Div V where
  /-- `x == 0` -/
  isZero : V → Bool

instance : LuArith Double where
  isZero := Ieee.isZero

section Code

variable {V : Type} [LuArith V] (mxSize p : Nat)

/-- `forw_elim`, with the two row pointers as positions in the matrix. -/
def forwElim (origin masterRow dim : Nat) (A : Nat → V) : Nat → V :=
  if LuArith.isZero (A origin) then A
  else
    let k := A origin / A masterRow
    let A := (List.range' 1 (dim - 1)).foldl (fun A i =>
      Function.update A (origin + i) (A (origin + i) - k * A (masterRow + i))) A
    Function.update A origin k

/-- The first inner loop at rank `id`. -/
def elimRows (id diagRef : Nat) (js : List Nat) (A : Nat → V) : Nat → V :=
  js.foldl (fun A j =>
    if j % p = id then
      forwElim (j * mxSize + diagRef) (diagRef * mxSize + diagRef) (mxSize - diagRef) A
    else A) A

/-- The `size` doubles from `save` on. -/
def load (save size : Nat) (A : Nat → V) : List V := (List.range size).map fun c => A (save + c)

/-- Doubles received into `save`. -/
def store (save : Nat) (row : List V) (A : Nat → V) : Nat → V := fun x =>
  if save ≤ x then row.getD (x - save) (A x) else A x

variable [NeZero p]

/-- The second inner loop at a rank, and what follows it. -/
def bcastRows (diagRef : Nat) : List Nat → (Nat → V) →
    ((Nat → V) → Prog (Fin p) (Buffer V) (Nat → V)) → Prog (Fin p) (Buffer V) (Nat → V)
  | [], A, k => k A
  | j :: js, A, k =>
    let save := j * mxSize + diagRef
    .bcast (Fin.ofNat p j) (.doubles (load save (mxSize - diagRef) A)) fun
      | .doubles row => bcastRows diagRef js (store save row A) k
      | .ints _ => .abort

/-- The outer loop at rank `id`, up to the matrix on return. -/
def mainLoop (id : Fin p) : List Nat → (Nat → V) → Prog (Fin p) (Buffer V) (Nat → V)
  | [], A => .ret A
  | i :: is, A =>
    bcastRows mxSize p i (rowsBelow mxSize i) (elimRows mxSize p id i (rowsBelow mxSize i) A)
      fun A => mainLoop id is A

/-- The program from the outer loop on. -/
def lu (A : Nat → V) (id : Fin p) : Prog (Fin p) (Buffer V) (Nat → V) :=
  mainLoop mxSize p id (List.range (mxSize - 1)) A

end Code

/-! ## Rows -/

section Rows

variable {V : Type} [LuArith V]

theorem foldl_update (origin masterRow : Nat) (k : V) (A : Nat → V) {m : Nat}
    (h : masterRow + m ≤ origin) (x : Nat) :
    ((List.range' 1 m).foldl (fun A i =>
      Function.update A (origin + i) (A (origin + i) - k * A (masterRow + i))) A) x =
      if origin < x ∧ x ≤ origin + m then A x - k * A (masterRow + (x - origin)) else A x := by
  induction m generalizing x with
  | zero => rw [if_neg (by omega)]; rfl
  | succ m ih =>
      rw [List.range'_1_concat, List.foldl_append, List.foldl_cons, List.foldl_nil]
      by_cases hx : x = origin + (1 + m)
      · rw [hx, Function.update_self, ih (by omega), ih (by omega), if_neg (by omega),
          if_neg (by omega), if_pos (by omega), show origin + (1 + m) - origin = 1 + m by omega]
      · rw [Function.update_of_ne hx, ih (by omega)]
        by_cases hin : origin < x ∧ x ≤ origin + m
        · rw [if_pos hin, if_pos (by omega)]
        · rw [if_neg hin, if_neg (by omega)]

/-- `forw_elim` on rows that do not overlap, at one position. -/
theorem forwElim_apply {origin masterRow dim : Nat} (hdim : 0 < dim)
    (h : masterRow + dim ≤ origin) (A : Nat → V) (x : Nat) :
    forwElim origin masterRow dim A x =
      if LuArith.isZero (A origin) = false ∧ origin ≤ x ∧ x < origin + dim then
        if x = origin then A origin / A masterRow
        else A x - A origin / A masterRow * A (masterRow + (x - origin))
      else A x := by
  cases hzero : LuArith.isZero (A origin) with
  | true => simp [forwElim, hzero]
  | false =>
      simp only [forwElim, hzero, Bool.false_eq_true, if_false, true_and]
      by_cases hx : x = origin
      · rw [hx, Function.update_self, if_pos (by omega), if_pos rfl]
      · rw [Function.update_of_ne hx, foldl_update _ _ _ _ (by omega)]
        by_cases hin : origin ≤ x ∧ x < origin + dim
        · rw [if_pos (by omega), if_pos hin, if_neg hx]
        · rw [if_neg (by omega), if_neg hin]

/-- The row below row `i` that a position lies in, from column `i` on. -/
def rowPart (n i x : Nat) : Option Nat :=
  if i < x / n ∧ i ≤ x % n then some (x / n) else none

theorem rowPart_eq_iff {n i j x : Nat} (hi : i < n) (hij : i < j) :
    rowPart n i x = some j ↔ j * n + i ≤ x ∧ x < j * n + i + (n - i) := by
  have hrow := @mem_row_iff n i j (x / n) (x % n) hi (Nat.mod_lt x (by omega))
  rw [Nat.div_add_mod'] at hrow
  rw [rowPart, hrow]
  constructor
  · intro h
    split at h
    · next hx => exact ⟨Option.some.inj h, hx.2⟩
    · cases h
  · rintro ⟨rfl, hc⟩
    exact if_pos ⟨hij, hc⟩

theorem rowPart_pivot {n i x : Nat} (hx : i * n ≤ x) (hlt : x < i * n + n) :
    rowPart n i x = none := by
  have hdiv : x / n = i := Nat.div_eq_of_lt_le (by omega) (by rw [Nat.succ_mul]; omega)
  rw [rowPart, hdiv, if_neg fun h => Nat.lt_irrefl i h.1]

/-- Round `i`: every row below row `i` is eliminated from itself and row `i`. -/
def rounds (V : Type) [LuArith V] {n i : Nat} (hi : i < n) : Parts Nat V Nat where
  part := rowPart n i
  op j A := if i < j then forwElim (j * n + i) (i * n + i) (n - i) A else A
  kept j A x hx := by
    split
    · next hij =>
        have hrows := Nat.mul_le_mul_right n hij
        rw [Nat.succ_mul] at hrows
        rw [forwElim_apply (by omega) (by omega), if_neg]
        exact fun h => hx ((rowPart_eq_iff hi hij).mpr h.2)
    · rfl
  reads j A B hAB x hx := by
    have hij : i < j := by
      rw [rowPart] at hx
      split at hx
      · next h => exact Option.some.inj hx ▸ h.1
      · cases hx
    have hrows := Nat.mul_le_mul_right n hij
    rw [Nat.succ_mul] at hrows
    have hin := (rowPart_eq_iff hi hij).mp hx
    -- the row itself and row `i` are what is read
    have hrow : ∀ y, j * n + i ≤ y → y < j * n + i + (n - i) → A y = B y :=
      fun y h1 h2 => hAB y (.inr ((rowPart_eq_iff hi hij).mpr ⟨h1, h2⟩))
    have hpivot : ∀ y, i * n ≤ y → y < i * n + n → A y = B y :=
      fun y h1 h2 => hAB y (.inl (rowPart_pivot h1 h2))
    rw [if_pos hij, if_pos hij, forwElim_apply (by omega) (by omega),
      forwElim_apply (by omega) (by omega), hrow (j * n + i) (by omega) (by omega),
      hrow x hin.1 hin.2, hpivot (i * n + i) (by omega) (by omega),
      hpivot (i * n + i + (x - (j * n + i))) (by omega) (by omega)]

/-- The matrix after the first inner loop of one rank alone. -/
def stage (n i : Nat) (A : Nat → V) : Nat → V := elimRows n 1 0 i (rowsBelow n i) A

theorem elimRows_eq {n i : Nat} (hi : i < n) (p id : Nat) (A : Nat → V) :
    elimRows n p id i (rowsBelow n i) A =
      (rounds V hi).own (fun j => decide (j % p = id)) (rowsBelow n i) A := by
  refine List.foldl_ext _ _ _ fun A j hj => ?_
  have hij : i < j := (mem_rowsBelow.mp hj).1
  show _ = if decide (j % p = id) then
    (if i < j then forwElim (j * n + i) (i * n + i) (n - i) A else A) else A
  rw [if_pos hij]
  simp

theorem store_load {n i j : Nat} (hi : i < n) (hij : i < j) (A B : Nat → V) :
    store (j * n + i) (load (j * n + i) (n - i) B) A = (rounds V hi).copyPart j B A := by
  funext x
  have hpart := @rowPart_eq_iff n i j x hi hij
  show store (j * n + i) (load (j * n + i) (n - i) B) A x =
    if rowPart n i x = some j then B x else A x
  rw [if_congr hpart rfl rfl, store]
  by_cases hle : j * n + i ≤ x
  · rw [if_pos hle, load, List.getD_eq_getElem?_getD, List.getElem?_map]
    by_cases hlt : x < j * n + i + (n - i)
    · rw [List.getElem?_range (by omega), if_pos ⟨hle, hlt⟩]
      show B (j * n + i + (x - (j * n + i))) = B x
      rw [Nat.add_sub_cancel' hle]
    · rw [List.getElem?_eq_none (by rw [List.length_range]; omega), if_neg fun h => hlt h.2]
      rfl
  · rw [if_neg hle, if_neg fun h => hle h.1]

end Rows

/-! ## The program -/

section Program

variable {V : Type} [LuArith V] {n p : Nat} [NeZero p] {most : Nat}

theorem computes_bcastRows {i : Nat} (hi : i < n) (hmost : n ≤ most) {js : List Nat}
    (hjs : ∀ j ∈ js, i < j) (B : Fin p → Nat → V) {count : Nat}
    {k : Fin p → (Nat → V) → Prog (Fin p) (Buffer V) (Nat → V)} {a : Fin p → Nat → V}
    (h : Runs (List.finRange p) (Callable most) (fun _ _ _ m => m) (count + js.length)
      (fun r => k r ((rounds V hi).exchange (Fin.ofNat p) js B r)) a) :
    Runs (List.finRange p) (Callable most) (fun _ _ _ m => m) count
      (fun r => bcastRows n p i js (B r) (k r)) a := by
  induction js generalizing B count with
  | nil => exact h
  | cons j js ih =>
      have hij := hjs j List.mem_cons_self
      have hlen : ∀ A : Nat → V, (load (j * n + i) (n - i) A).length = n - i := fun A => by
        simp [load]
      refine .bcast (callable_doubles (by omega) (by omega) fun r => hlen (B r)) ?_
      rw [List.length_cons, ← Nat.add_assoc, Nat.add_right_comm] at h
      have hrest := ih (fun j hj => hjs j (List.mem_cons_of_mem _ hj))
        (fun r => (rounds V hi).copyPart j (B (Fin.ofNat p j)) (B r)) h
      simp only [← store_load hi hij] at hrest
      exact hrest

/-- Round lemma: after the broadcasts every replica is the matrix of one rank alone. -/
theorem exchange_elimRows {i : Nat} (hi : i < n) (A : Nat → V) (r : Fin p) :
    (rounds V hi).exchange (Fin.ofNat p) (rowsBelow n i)
      (fun q => elimRows n p q i (rowsBelow n i) A) r = stage n i A := by
  have hown : ∀ q : Fin p, elimRows n p q i (rowsBelow n i) A =
      (rounds V hi).own (fun j => decide (Fin.ofNat p j = q)) (rowsBelow n i) A := by
    intro q
    rw [elimRows_eq hi]
    congr 1
    funext j
    exact decide_eq_decide.mpr ⟨fun h => Fin.ext h, fun h => congrArg Fin.val h⟩
  have halone : stage n i A = (rounds V hi).own (fun _ => true) (rowsBelow n i) A := by
    rw [stage, elimRows_eq hi]
    congr 1
    funext j
    simp [Nat.mod_one]
  rw [halone, funext hown]
  exact (rounds V hi).exchange_own (Fin.ofNat p) (rowsBelow_nodup n i) A r

/-- Run lemma: all ranks compute what one rank alone computes. -/
theorem computes_mainLoop (hmost : n ≤ most) {is : List Nat} (his : ∀ i ∈ is, i < n)
    (A : Nat → V) (count : Nat) :
    Runs (List.finRange p) (Callable most) (fun _ _ _ m => m) count
      (fun r => mainLoop n p r is A) fun _ => is.foldl (fun A i => stage n i A) A := by
  induction is generalizing A count with
  | nil => exact .ret _
  | cons i is ih =>
      have hi := his i List.mem_cons_self
      refine computes_bcastRows hi hmost (fun j hj => (mem_rowsBelow.mp hj).1) _ ?_
      simp only [exchange_elimRows hi]
      exact ih (fun i hi => his i (List.mem_cons_of_mem _ hi)) (stage n i A) _

/-- The matrix of one rank alone. -/
def factored (n : Nat) (A : Nat → V) : Nat → V :=
  (List.range (n - 1)).foldl (fun A i => stage n i A) A

theorem computes_lu (hmost : n ≤ most) (A : Nat → V) :
    Computes most (lu n p A) fun _ => factored n A :=
  computes_mainLoop hmost (fun i hi => by
    have := List.mem_range.mp hi
    omega) A 0

end Program

/-- In double arithmetic every rank of `lu_abft` ends with the matrix that a single rank
    computes without flips, and so does every rank of `lu`: for any number of ranks, in
    every interleaving, and with a few flips in every message at every rank. -/
theorem luAbft_faultFree {crc32 : BitVec 32 → BitVec 8 → BitVec 32} (hzlib : crc32 = zlibCrc32)
    (n p : Nat) [NeZero p] (hn : n ≤ mostDoubles) {corrupt : Nat → Fin p → Payload → Payload}
    (hfew : FewFlipsAlways crc32 corrupt) (A : Nat → Double) :
    ∃ M, Yields (withAbft crc32 corrupt (lu n p A)) (fun _ => M) ∧
      Yields (withBcast (lu n p A)) (fun _ => M) ∧ Yields (withBcast (lu n 1 A)) fun _ => M := by
  subst hzlib
  exact ⟨factored n A, (computes_lu hn A).yields_withAbft hfew,
    (computes_lu hn A).yields_withBcast, (computes_lu hn A).yields_withBcast⟩

/-- `[[2, 1], [6, 5]]` in row-major order. -/
def twoByTwo (x : Nat) : Double := ([2, 1, 6, 5].map .ofNat).getD x 0

/-- Three ranks, two flips in every message. -/
theorem luAbft_faultFree_two : ∃ M,
    Yields (withAbft zlibCrc32 (injected fun i r => [i, i + r]) (lu 2 3 twoByTwo)) (fun _ => M) ∧
      Yields (withBcast (lu 2 3 twoByTwo)) (fun _ => M) ∧
      Yields (withBcast (lu 2 1 twoByTwo)) fun _ => M :=
  luAbft_faultFree rfl 2 3 (by decide)
    (injected_fewFlipsAlways zlibCrc32 fun _ _ => Nat.le_refl _) twoByTwo

/-! ## Exact arithmetic -/

instance : LuArith ℚ where
  isZero x := decide (x = 0)

theorem forwElim_rat (origin masterRow dim : Nat) (A : Nat → ℚ) :
    forwElim origin masterRow dim A = Lu.forwElim origin masterRow dim A := by
  rw [forwElim, Lu.forwElim]
  exact if_congr decide_eq_true_iff rfl rfl

/-- The matrix of one rank alone is that of `MpiApps.Apps.Lu`. -/
theorem factored_rat (n : Nat) (A : Nat → ℚ) : factored n A = Lu.stages n A (n - 1) := by
  have hstage : ∀ i (A : Nat → ℚ), stage n i A = Lu.stage n i A := by
    intro i A
    refine List.foldl_ext _ _ _ fun A j _ => ?_
    rw [forwElim_rat]
  exact List.foldl_ext _ _ _ fun A i _ => hstage i A

end MpiApps.LuAbft
