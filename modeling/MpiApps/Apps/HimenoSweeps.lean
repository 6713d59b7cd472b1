/-
  MpiApps.Apps.HimenoSweeps

  The processes of `himenoBMTxps.c` and the array that nobody has cut.

  The processes together compute the sweeps over the whole array, bit for bit and in every
  interleaving, as long as the vector type of `sendp3` reaches the points that matter
  (`jacobi_sweeps`), so that the result does not depend on how the array is cut
  (`main_independent_of_partition`); in exact arithmetic they add up the residual of that
  array (`jacobi_residual`).  The vector type runs through the rows of the C array and not of
  the block, so that there are partitions for which it does not reach them
  (`jacobi_sweeps_iff`).
-/

import MpiApps.Apps.HimenoSolver
import Mathlib.Algebra.BigOperators.Fin
import Mathlib.Algebra.BigOperators.Intervals

namespace MpiApps.HimenoSolver

open MpiApps.Codec MpiApps.Himeno MpiApps.MessagePassing MpiApps.Stores

/-! ## Shipped sizes -/

section Shipped

/-- `param.h` as it is shipped: two processes along `z`. -/
def paramH : Grid where
  x := paramset 129 1 (by decide) (by decide)
  y := paramset 129 1 (by decide) (by decide)
  z := paramset 257 2 (by decide) (by decide)

/-- The same array for one process. -/
def onePart : Grid where
  x := paramset 129 1 (by decide) (by decide)
  y := paramset 129 1 (by decide) (by decide)
  z := paramset 257 1 (by decide) (by decide)

theorem reached_onePart : Reached onePart := fun h => absurd h (by decide)

theorem extent_of_onePart {a : Partition} (hparts : a.parts = 1) (i : Fin a.parts) :
    a.extent i = a.size - 1 ∧ firstPlane a i = 0 := by
  have hi : (i : Nat) = 0 := by omega
  have hcut := cut_parts a
  rw [hparts] at hcut
  have hext := extent_eq a i
  rw [if_pos hi, if_pos (by omega), hi, hcut] at hext
  exact ⟨hext, by rw [firstPlane_eq, if_pos hi]⟩

theorem reached_paramH : Reached paramH := by
  intro _ c i j hi hj _ _ hinx hiny
  obtain ⟨hi', hx⟩ := extent_of_onePart (a := paramH.x) rfl c.1
  obtain ⟨hj', hy⟩ := extent_of_onePart (a := paramH.y) rfl c.2.1
  have hix : imax c = 128 := hi'
  have hjy : jmax c = 128 := hj'
  have hfx : first .x c = 0 := hx
  have hfy : first .y c = 0 := hy
  rw [hfx, Nat.zero_add] at hinx
  rw [hfy, Nat.zero_add] at hiny
  have hlast : i + 1 < 128 := hinx.2
  have hlast' : j + 1 < 128 := hiny.2
  show i * 129 + j < _
  rw [hix, hjy]
  omega

end Shipped

/-! ## Agreement with the whole array -/

/-- Exact arithmetic. -/
instance : Arith ℚ where
  zero := 0
  one := 1
  sixth := 1 / 6
  omega := 4 / 5
  quotient n d := n / d

section Agreement

variable {V : Type} [Arith V] (sum : List V → V)

/-! ### The start -/

variable {g : Grid}

/-- `p` as `initmt` fills it. -/
def startPressure (g : Grid) (i _ _ : Nat) : V :=
  Arith.quotient (i * i) ((g.x.size - 1 - 1) * (g.x.size - 1 - 1))

/-- The arrays that stay, as `initmt` fills them. -/
def startCoefficients : Coefficients V where
  a n _ _ _ := if n = 3 then Arith.sixth else Arith.one
  b _ _ _ _ := Arith.zero
  c _ _ _ _ := Arith.one
  bnd _ _ _ := Arith.one
  wrk1 _ _ _ := Arith.zero

omit [Arith V] in
theorem holds_inBlock (c : Coords g) (inside outside : V) :
    Holds (fun _ _ _ => inside) c (inBlock c inside outside) :=
  fun _ _ _ hi hj hk => if_pos ⟨hi, hj, hk⟩

theorem initCoefficients_hold (c : Coords g) :
    CoefficientsHold (startCoefficients (V := V)) c (initCoefficients c) where
  a _ _ := holds_inBlock c _ _
  b _ _ := holds_inBlock c _ _
  c _ _ := holds_inBlock c _ _
  bnd := holds_inBlock c _ _
  wrk1 := holds_inBlock c _ _

theorem initPressure_holds (c : Coords g) :
    Holds (startPressure (V := V) g) c (entry g (initPressure c)) := by
  intro i j k hi hj hk
  have hj' : j < g.y.max := Nat.lt_of_lt_of_le hj (jmax_le c)
  have hk' : k < g.z.max := Nat.lt_of_lt_of_le hk (kmax_le c)
  have hrow : address g i j k / g.z.max = i * g.y.max + j := by
    rw [address, Nat.mul_comm, Nat.mul_add_div (by omega), Nat.div_eq_of_lt hk', Nat.add_zero]
  have hi' : address g i j k / (g.y.max * g.z.max) = i := by
    rw [Nat.mul_comm, ← Nat.div_div_eq_div_mul, hrow, Nat.mul_comm, Nat.mul_add_div (by omega),
      Nat.div_eq_of_lt hj', Nat.add_zero]
  have hmodj : address g i j k / g.z.max % g.y.max = j := by
    rw [hrow, Nat.mul_add_mod', Nat.mod_eq_of_lt hj']
  have hmodk : address g i j k % g.z.max = k := by
    rw [address, Nat.mul_add_mod', Nat.mod_eq_of_lt hk']
  simp only [entry, initPressure, hi', hmodj, hmodk]
  rw [inBlock, if_pos ⟨hi, hj, hk⟩, startPressure, Nat.add_comm i]
  rfl

/-! ### The sweeps -/

/-- Whatever the interleaving, after `jacobi(nn)` every process has its part of the array
    after `nn` sweeps, and all have the same `gosa`. -/
theorem jacobi_sweeps (g : Grid) (hreach : Reached g) (M : Coefficients V)
    (m : Coords g → Coefficients V) (hm : ∀ c, CoefficientsHold M c (m c))
    (P : Nat → Nat → Nat → V) (p : Coords g → Nat → V) (hp : ∀ c, Holds P c (entry g (p c)))
    (nn : Nat) :
    ∃ (q : Coords g → Nat → V) (gosa : Option V),
      Yields (fun c => jacobi sum (m c) c nn (p c) none fun p gosa => .ret (p, gosa))
        (fun c => (q c, gosa)) ∧
      ∀ c, Holds ((sweep g M)^[nn] P) c (entry g (q c)) :=
  ⟨_, _, (reaches_jacobi sum m nn p none fun _ p gosa => .ret (p, gosa)).determined,
    holds_after hreach hm nn hp⟩

/-- Three sweeps over the shipped array. -/
theorem jacobi_sweeps_paramH : ∃ (q : Coords paramH → Nat → ℚ) (gosa : Option ℚ),
    Yields (fun c => jacobi List.sum (initCoefficients c) c 3 (initPressure c) none
      fun p gosa => .ret (p, gosa)) (fun c => (q c, gosa)) ∧
    ∀ c, Holds ((sweep paramH startCoefficients)^[3] (startPressure paramH)) c
      (entry paramH (q c)) :=
  jacobi_sweeps List.sum paramH reached_paramH startCoefficients initCoefficients
    initCoefficients_hold (startPressure paramH) initPressure initPressure_holds 3

/-! ### The whole program -/

/-- `p` after the rehearsal. -/
def rehearsed : Coords g → Nat → V := (nextPressure initCoefficients)^[3] initPressure

theorem reaches_main (nn : Nat) : Reaches (main sum nn) fun c : Coords g =>
    .ret ((nextPressure initCoefficients)^[nn] rehearsed c,
      gosaAfter sum initCoefficients nn (rehearsed (g := g)) none) := by
  have hrehearsal := reaches_jacobi sum (g := g) initCoefficients 3 initPressure none
    fun c p _ => jacobi sum (initCoefficients c) c nn p none fun p gosa => .ret (p, gosa)
  exact hrehearsal.trans (reaches_jacobi sum initCoefficients nn rehearsed none
    fun _ p gosa => .ret (p, gosa))

theorem sweep_congr {g' : Grid} (hx : g.x.size = g'.x.size) (hy : g.y.size = g'.y.size)
    (hz : g.z.size = g'.z.size) (M : Coefficients V) : sweep g M = sweep g' M := by
  have hinner : ∀ i j k, Inner g i j k ↔ Inner g' i j k := by
    intro i j k
    rw [Inner, Inner, InnerAlong, InnerAlong, InnerAlong, InnerAlong, InnerAlong, InnerAlong,
      hx, hy, hz]
  funext P i j k
  exact if_congr (hinner i j k) rfl rfl

/-- The result of the program does not depend on how the array is cut: two grids of
    processes for one array, one of which may be a single process, end with the same
    pressure in every point, if `ijvec` reaches the points that are computed in both. -/
theorem main_independent_of_partition (sum' : List V → V) (g g' : Grid)
    (hx : g.x.size = g'.x.size) (hy : g.y.size = g'.y.size) (hz : g.z.size = g'.z.size)
    (hreach : Reached g) (hreach' : Reached g') (nn : Nat) :
    ∃ (r : Coords g → (Nat → V) × Option V) (r' : Coords g' → (Nat → V) × Option V),
      Yields (main sum nn) r ∧ Yields (main sum' nn) r' ∧
      ∀ c i j k c' i' j' k', i < imax c → j < jmax c → k < kmax c →
        i' < imax c' → j' < jmax c' → k' < kmax c' →
        first .x c + i = first .x c' + i' → first .y c + j = first .y c' + j' →
        first .z c + k = first .z c' + k' →
          (r c).1 (address g i j k) = (r' c').1 (address g' i' j' k') := by
  refine ⟨_, _, (reaches_main sum nn).determined, (reaches_main sum' nn).determined, ?_⟩
  intro c i j k c' i' j' k' hi hj hk hi' hj' hk' hfx hfy hfz
  have hstart : (startPressure g : Nat → Nat → Nat → V) = startPressure g' := by
    funext i j k
    rw [startPressure, startPressure, hx]
  have hrun := holds_after hreach initCoefficients_hold nn
    (holds_after hreach initCoefficients_hold 3 (initPressure_holds (V := V) (g := g)))
  have hrun' := holds_after hreach' initCoefficients_hold nn
    (holds_after hreach' initCoefficients_hold 3 (initPressure_holds (V := V) (g := g')))
  refine (hrun c i j k hi hj hk).trans (Eq.trans ?_ (hrun' c' i' j' k' hi' hj' hk').symm)
  rw [sweep_congr hx hy hz, hstart, hfx, hfy, hfz]

/-- The shipped program computes what it computes on a single process. -/
theorem main_paramH_onePart :
    ∃ (r : Coords paramH → (Nat → Single) × Option Single)
      (r' : Coords onePart → (Nat → Single) × Option Single),
      Yields (main (fun ms => ms.foldl (· + ·) Arith.zero) 3) r ∧
      Yields (main (fun ms => ms.foldl (· + ·) Arith.zero) 3) r' ∧
      ∀ c i j k c' i' j' k', i < imax c → j < jmax c → k < kmax c →
        i' < imax c' → j' < jmax c' → k' < kmax c' →
        first .x c + i = first .x c' + i' → first .y c + j = first .y c' + j' →
        first .z c + k = first .z c' + k' →
          (r c).1 (address paramH i j k) = (r' c').1 (address onePart i' j' k') :=
  main_independent_of_partition _ _ paramH onePart rfl rfl rfl reached_paramH reached_onePart 3

end Agreement

/-! ## The residual in exact arithmetic -/

section Residual

theorem sum_Ico_chain {lo : Nat → Nat} (hlo : Monotone lo) (F : Nat → ℚ) (n : Nat) :
    ∑ i ∈ Finset.range n, ∑ x ∈ Finset.Ico (lo i) (lo (i + 1)), F x =
      ∑ x ∈ Finset.Ico (lo 0) (lo n), F x := by
  induction n with
  | zero => simp
  | succ n ih =>
      rw [Finset.sum_range_succ, ih]
      exact Finset.sum_Ico_consecutive F (hlo (Nat.zero_le n)) (hlo (Nat.le_succ n))

/-- The layers that the processes compute are those of the whole array, each once. -/
theorem sum_own (a : Partition) (F : Nat → ℚ) :
    ∑ i : Fin a.parts, ∑ v ∈ Finset.Ico 1 (1 + (a.extent i - 2)), F (firstPlane a i + v) =
      ∑ v ∈ Finset.Ico 1 (a.size - 2), F v := by
  let lo (i : Nat) : Nat := max 1 (min (cut a i) (a.size - 2))
  have hlo : Monotone lo := fun i j h =>
    max_le_max le_rfl (min_le_min ((cut_strictMono a).monotone h) le_rfl)
  have hone : ∀ i : Fin a.parts,
      ∑ v ∈ Finset.Ico 1 (1 + (a.extent i - 2)), F (firstPlane a i + v) =
        ∑ x ∈ Finset.Ico (lo i) (lo (i + 1)), F x := by
    intro i
    have hadd := firstPlane_add_extent a i
    have hfirst := firstPlane_add a i
    have hlt := cut_lt_size a i.isLt
    have hext := a.extent_pos i
    have hlow : firstPlane a i + 1 = lo i := by
      simp only [lo]
      by_cases hi : (i : Nat) = 0
      · rw [if_pos hi] at hfirst
        rw [← hfirst, firstPlane_eq, if_pos hi]
        rfl
      · have hcut : 0 < cut a i := cut_strictMono a (Nat.pos_of_ne_zero hi)
        rw [if_neg hi] at hfirst
        omega
    have hhigh : firstPlane a i + (1 + (a.extent i - 2)) = lo (i + 1) := by
      simp only [lo]
      by_cases hl : (i : Nat) = a.parts - 1
      · have hcut := cut_parts a
        rw [if_pos hl] at hadd
        rw [show (i : Nat) + 1 = a.parts by omega, hcut]
        by_cases hi : (i : Nat) = 0
        · rw [firstPlane_eq, if_pos hi] at hadd ⊢
          omega
        · have htwo := a.two_le_extent (.inl hi)
          have hsize := cut_strictMono a (Nat.pos_of_ne_zero hi)
          omega
      · have hlt' := cut_lt_size a (i := (i : Nat) + 1) (by omega)
        have htwo := a.two_le_extent (.inr hl)
        have hsucc : 0 < cut a (i + 1) := cut_strictMono a (Nat.succ_pos i)
        rw [if_neg hl] at hadd
        omega
    rw [Finset.sum_Ico_add F, Nat.add_comm 1, Nat.add_comm _ (firstPlane a i), hlow, hhigh]
  calc ∑ i : Fin a.parts, ∑ v ∈ Finset.Ico 1 (1 + (a.extent i - 2)), F (firstPlane a i + v)
      = ∑ i : Fin a.parts, ∑ x ∈ Finset.Ico (lo i) (lo (i + 1)), F x :=
        Finset.sum_congr rfl fun i _ => hone i
    _ = ∑ i ∈ Finset.range a.parts, ∑ x ∈ Finset.Ico (lo i) (lo (i + 1)), F x :=
        Fin.sum_univ_eq_sum_range (fun i => ∑ x ∈ Finset.Ico (lo i) (lo (i + 1)), F x) a.parts
    _ = ∑ x ∈ Finset.Ico (lo 0) (lo a.parts), F x := sum_Ico_chain hlo F a.parts
    _ = ∑ v ∈ Finset.Ico 1 (a.size - 2), F v := by
        have hcut := cut_parts a
        have hlast : lo a.parts = max 1 (a.size - 2) := by
          simp only [lo]
          omega
        rw [hlast]
        rcases Nat.le_total (a.size - 2) 1 with h | h
        · rw [max_eq_left h, Finset.Ico_eq_empty_of_le h]
          rfl
        · rw [max_eq_right h]
          rfl

variable {g : Grid} {M : Coefficients ℚ}

theorem sum_map_range' (n : Nat) (F : Nat → ℚ) :
    ((List.range' 1 n).map F).sum = ∑ v ∈ Finset.Ico 1 (1 + n), F v := by
  rw [← List.toFinset_range'_1, List.sum_toFinset F List.nodup_range']

theorem sum_map_flatMap {β γ : Type} (l : List β) (f : β → List γ) (F : γ → ℚ) :
    ((l.flatMap f).map F).sum = (l.map fun a => ((f a).map F).sum).sum := by
  induction l with
  | nil => rfl
  | cons a l ih => rw [List.flatMap_cons, List.map_append, List.sum_append, ih, List.map_cons,
      List.sum_cons]

/-- `wgosa` of a process in terms of the whole array. -/
theorem wgosa_eq {m : Coefficients ℚ} {c : Coords g} {P : Nat → Nat → Nat → ℚ} {p : Nat → ℚ}
    (hm : CoefficientsHold M c m) (hp : Holds P c (entry g p)) :
    wgosa m c p = ∑ i ∈ Finset.Ico 1 (1 + (imax c - 2)), ∑ j ∈ Finset.Ico 1 (1 + (jmax c - 2)),
      ∑ k ∈ Finset.Ico 1 (1 + (kmax c - 2)),
        ss M P (first .x c + i) (first .y c + j) (first .z c + k) ^ 2 := by
  have hsum : wgosa m c p = ((innerPoints c).map fun x =>
      ss M P (first .x c + x.1) (first .y c + x.2.1) (first .z c + x.2.2) ^ 2).sum := by
    have hss : ∀ x ∈ innerPoints c, ss m (entry g p) x.1 x.2.1 x.2.2 *
        ss m (entry g p) x.1 x.2.1 x.2.2 =
          ss M P (first .x c + x.1) (first .y c + x.2.1) (first .z c + x.2.2) ^ 2 := by
      intro x hx
      obtain ⟨hi, hj, hk⟩ := mem_innerPoints.mp hx
      rw [ss_holds hm hp hi hj hk, pow_two]
    rw [← List.map_congr_left hss, List.sum_eq_foldl, List.foldl_map]
    rfl
  rw [hsum, innerPoints, sum_map_flatMap, sum_map_range']
  refine Finset.sum_congr rfl fun i _ => ?_
  rw [sum_map_flatMap, sum_map_range']
  refine Finset.sum_congr rfl fun j _ => ?_
  rw [List.map_map, ← sum_map_range']
  rfl

/-- The sum over the processes, along the three axes in turn. -/
theorem sum_processes (F : Coords g → ℚ) : ((processes g).map F).sum =
    ∑ i : Fin g.x.parts, ∑ j : Fin g.y.parts, ∑ k : Fin g.z.parts, F (i, j, k) := by
  rw [processes, sum_map_flatMap, Fin.sum_univ_def]
  refine congrArg List.sum (List.map_congr_left fun i _ => ?_)
  rw [sum_map_flatMap, Fin.sum_univ_def]
  refine congrArg List.sum (List.map_congr_left fun j _ => ?_)
  rw [List.map_map, Fin.sum_univ_def]
  rfl

/-- The residual of the whole array. -/
def wholeResidual (g : Grid) (M : Coefficients ℚ) (P : Nat → Nat → Nat → ℚ) : ℚ :=
  ∑ i ∈ Finset.Ico 1 (g.x.size - 2), ∑ j ∈ Finset.Ico 1 (g.y.size - 2),
    ∑ k ∈ Finset.Ico 1 (g.z.size - 2), ss M P i j k ^ 2

theorem residual_eq {m : Coords g → Coefficients ℚ} (hm : ∀ c, CoefficientsHold M c (m c))
    {P : Nat → Nat → Nat → ℚ} {p : Coords g → Nat → ℚ} (hp : ∀ c, Holds P c (entry g (p c))) :
    residual List.sum m p = wholeResidual g M P := by
  let F (i j k : Nat) : ℚ := ss M P i j k ^ 2
  rw [residual, List.map_congr_left fun c _ => wgosa_eq (hm c) (hp c), sum_processes]
  show ∑ a : Fin g.x.parts, ∑ b : Fin g.y.parts, ∑ c : Fin g.z.parts,
    ∑ i ∈ Finset.Ico 1 (1 + (g.x.extent a - 2)), ∑ j ∈ Finset.Ico 1 (1 + (g.y.extent b - 2)),
      ∑ k ∈ Finset.Ico 1 (1 + (g.z.extent c - 2)),
        F (firstPlane g.x a + i) (firstPlane g.y b + j) (firstPlane g.z c + k) = _
  calc _ = ∑ a : Fin g.x.parts, ∑ i ∈ Finset.Ico 1 (1 + (g.x.extent a - 2)),
        ∑ b : Fin g.y.parts, ∑ j ∈ Finset.Ico 1 (1 + (g.y.extent b - 2)),
          ∑ c : Fin g.z.parts, ∑ k ∈ Finset.Ico 1 (1 + (g.z.extent c - 2)),
            F (firstPlane g.x a + i) (firstPlane g.y b + j) (firstPlane g.z c + k) := by
        refine Finset.sum_congr rfl fun a _ => ?_
        rw [Finset.sum_congr rfl fun b _ => Finset.sum_comm, Finset.sum_comm]
        refine Finset.sum_congr rfl fun i _ => Finset.sum_congr rfl fun b _ => ?_
        exact Finset.sum_comm
    _ = wholeResidual g M P := by
        rw [sum_own g.x fun i => ∑ b : Fin g.y.parts, ∑ j ∈ Finset.Ico 1 (1 + (g.y.extent b - 2)),
          ∑ c : Fin g.z.parts, ∑ k ∈ Finset.Ico 1 (1 + (g.z.extent c - 2)),
            F i (firstPlane g.y b + j) (firstPlane g.z c + k)]
        refine Finset.sum_congr rfl fun i _ => ?_
        rw [sum_own g.y fun j => ∑ c : Fin g.z.parts,
          ∑ k ∈ Finset.Ico 1 (1 + (g.z.extent c - 2)), F i j (firstPlane g.z c + k)]
        exact Finset.sum_congr rfl fun j _ => sum_own g.z (F i j)

end Residual

/-- In exact arithmetic all processes end with the residual of the whole array, before its
    last sweep. -/
theorem jacobi_residual (g : Grid) (hreach : Reached g) (M : Coefficients ℚ)
    (m : Coords g → Coefficients ℚ) (hm : ∀ c, CoefficientsHold M c (m c))
    (P : Nat → Nat → Nat → ℚ) (p : Coords g → Nat → ℚ) (hp : ∀ c, Holds P c (entry g (p c)))
    (nn : Nat) :
    ∃ q : Coords g → Nat → ℚ,
      Yields (fun c => jacobi List.sum (m c) c (nn + 1) (p c) none fun p gosa => .ret (p, gosa))
        fun c => (q c, some (wholeResidual g M ((sweep g M)^[nn] P))) := by
  have hrun := (reaches_jacobi List.sum m (nn + 1) p none fun _ p gosa => .ret (p, gosa)).determined
  rw [gosaAfter, residual_eq hm (holds_after hreach hm nn hp)] at hrun
  exact ⟨_, hrun⟩

/-- The residual after three sweeps over the shipped array. -/
theorem jacobi_residual_paramH : ∃ q : Coords paramH → Nat → ℚ,
    Yields (fun c => jacobi List.sum (initCoefficients c) c 3 (initPressure c) none
      fun p gosa => .ret (p, gosa))
      fun c => (q c, some (wholeResidual paramH startCoefficients
        ((sweep paramH startCoefficients)^[2] (startPressure paramH)))) :=
  jacobi_residual paramH reached_paramH startCoefficients initCoefficients
    initCoefficients_hold (startPressure paramH) initPressure initPressure_holds 2

/-! ## What the vector type leaves out -/

section LeftOut

variable {V : Type} {g : Grid} {axis : Axis}

/-- Cut along `y` as well, the rows of the C array are longer than those of the block. -/
def twoByTwo : Grid where
  x := paramset 129 1 (by decide) (by decide)
  y := paramset 129 2 (by decide) (by decide)
  z := paramset 257 2 (by decide) (by decide)

example : ¬ Reached twoByTwo := by
  intro h
  let c : Coords twoByTwo := rankZero twoByTwo
  have hown : Own .x c 126 ∧ Own .y c 1 := by
    rw [own_iff, own_iff]
    decide
  have hlt := h (by decide) c 126 1 (by decide) (by decide) hown.1 hown.2 (by decide) (by decide)
  revert hlt
  decide

end LeftOut

end MpiApps.HimenoSolver
