/-
  MpiApps.Apps.KmeansAbft

  k-means in any arithmetic, and with `MPI_Bcast_abft`.

  The means are broadcast in every iteration, and the assignments travel by scatter and gather.
  What the root has after an iteration is one step of Lloyd's algorithm on all points that the
  chunks cover (`roundLocals_root`), computed in the order of the source, so that with doubles
  the result is that of one process, bit for bit.  The means may be broadcast by
  `MPI_Bcast_abft`, with flips in every message (`kmeansAbft_faultFree`).  In exact arithmetic
  a step is the iteration of `MpiApps.Apps.Kmeans` (`lloydStep_reals`).
-/

import MpiApps.Apps.Kmeans
import MpiApps.Fault.AbftCalls
import Mathlib.Analysis.Real.Sqrt

namespace MpiApps.KmeansAbft

open MpiApps.Codec MpiApps.Fault MpiApps.MessagePassing MpiApps.Windows

/-! ## The code -/

/-- The operations of `assign2Cluster` and `calcKmeans`. -/
class KmeansArith (V : Type) extends Zero V, Add V, Sub V, Mul V, Div V where
  fabs : V → V
  sqrt : V → V
  lt : V → V → Bool
  /-- the conversion of `numOfpoints` -/
  ofNat : Nat → V

instance : KmeansArith Double where
  fabs := Ieee.fabs
  sqrt := Ieee.sqrt
  lt := Ieee.lt
  ofNat := Ieee.ofNat

/-- `k_means_x`, `k_means_y` and `k_assignment`. -/
structure Clustering (V : Type) where
  kMeansX : List V
  kMeansY : List V
  kAssignment : List Nat

/-- The arrays of a rank; `k_assignment` is in use at the root only. -/
structure Locals (V : Type) where
  clustering : Clustering V
  recvX : List V
  recvY : List V

section Code

variable {V : Type} [KmeansArith V] (numOfClusters numOfElements : Nat)

/-- `sqrt((x*x) + (y*y))` for mean `j`. -/
def dist (kX kY : List V) (recvX recvY : V) (j : Nat) : V :=
  let x := KmeansArith.fabs (recvX - kX.getD j 0)
  let y := KmeansArith.fabs (recvY - kY.getD j 0)
  KmeansArith.sqrt (x * x + y * y)

/-- `k_min_index` after the loop over the means. -/
def kMinIndex (kX kY : List V) (recvX recvY : V) : Nat :=
  let dist := dist kX kY recvX recvY
  ((List.range' 1 (numOfClusters - 1)).foldl
    (fun min j => if KmeansArith.lt (dist j) min.2 then (j, dist j) else min) (0, dist 0)).1

/-- `assign2Cluster`: the array `assign` with its first `chunk` entries written. -/
def assign2Cluster (chunk : Nat) (kX kY recvX recvY : List V) (assign : List Nat) : List Nat :=
  (List.range chunk).map (fun i =>
    kMinIndex numOfClusters kX kY (recvX.getD i 0) (recvY.getD i 0)) ++ assign.drop chunk

/-- `total_x`, `total_y` and `numOfpoints` of cluster `i`. -/
def clusterTotals (dataX dataY : List V) (kAssignment : List Nat) (i : Nat) : V × V × Nat :=
  (List.range numOfElements).foldl (fun total j =>
    if kAssignment.getD j 0 = i then
      (total.1 + dataX.getD j 0, total.2.1 + dataY.getD j 0, total.2.2 + 1)
    else total) (0, 0, 0)

/-- `calcKmeans`: a cluster without points keeps its mean. -/
def calcKmeans (dataX dataY : List V) (s : Clustering V) : Clustering V :=
  let totals := clusterTotals numOfElements dataX dataY s.kAssignment
  { s with
    kMeansX := (List.range numOfClusters).map fun i =>
      if (totals i).2.2 ≠ 0 then (totals i).1 / KmeansArith.ofNat (totals i).2.2
      else s.kMeansX.getD i 0
    kMeansY := (List.range numOfClusters).map fun i =>
      if (totals i).2.2 ≠ 0 then (totals i).2.1 / KmeansArith.ofNat (totals i).2.2
      else s.kMeansY.getD i 0 }

/-- `k_assignment` after the chunks in `bufs` have been gathered into it. -/
def gathered (bufs : List (Buffer V)) (kAssignment : List Nat) : List Nat :=
  let chunks := bufs.flatMap fun
    | .ints ks => ks
    | .doubles _ => []
  chunks ++ kAssignment.drop chunks.length

variable (p : Nat) [NeZero p] (dataX dataY : List V)

/-- The main loop at rank `r` for the remaining iterations. -/
def mainLoop (r : Fin p) : Nat → Locals V → Prog (Fin p) (Buffer V) (Locals V)
  | 0, l => .ret l
  | count + 1, l =>
    let chunk := numOfElements / p
    .bcast 0 (.doubles l.clustering.kMeansX) fun
      | .doubles kX =>
        .bcast 0 (.doubles l.clustering.kMeansY) fun
          | .doubles kY =>
            .scatter 0 (fun d => .ints (window (d * chunk) chunk l.clustering.kAssignment)) fun
              | .ints recvAssign =>
                .gather 0
                  (.ints (assign2Cluster numOfClusters chunk kX kY l.recvX l.recvY recvAssign))
                  fun bufs =>
                    let s : Clustering V := ⟨kX, kY, l.clustering.kAssignment⟩
                    let s :=
                      if r = 0 then
                        calcKmeans numOfClusters numOfElements dataX dataY
                          { s with kAssignment := gathered bufs s.kAssignment }
                      else s
                    mainLoop r count { l with clustering := s }
              | .doubles _ => .abort
          | .ints _ => .abort
      | .ints _ => .abort

/-- From the distribution of the points on, at rank `r`. -/
def kmeans (count : Nat) (init : Fin p → Locals V) (r : Fin p) :
    Prog (Fin p) (Buffer V) (Locals V) :=
  let chunk := numOfElements / p
  .scatter 0 (fun d => .doubles (window (d * chunk) chunk dataX)) fun
    | .doubles recvX =>
      .scatter 0 (fun d => .doubles (window (d * chunk) chunk dataY)) fun
        | .doubles recvY =>
          mainLoop numOfClusters numOfElements p dataX dataY r count
            { init r with recvX := recvX, recvY := recvY }
        | .ints _ => .abort
    | .ints _ => .abort

/-- The assignment of the first `m` points, each by means of its own, and the new means of all
    clusters. -/
def stepWith (m : Nat) (kX kY : Nat → List V) (s : Clustering V) : Clustering V :=
  calcKmeans numOfClusters numOfElements dataX dataY
    { s with kAssignment :=
        (List.range m).map (fun j =>
          kMinIndex numOfClusters (kX j) (kY j) (dataX.getD j 0) (dataY.getD j 0)) ++
        s.kAssignment.drop m }

/-- One step of Lloyd's algorithm for the first `m` points: the nearest means, then the new
    means of all clusters. -/
def lloydStep (m : Nat) (s : Clustering V) : Clustering V :=
  stepWith numOfClusters numOfElements dataX dataY m (fun _ => s.kMeansX) (fun _ => s.kMeansY) s

end Code

/-! ## The run of all ranks -/

section Run

variable {V : Type} [KmeansArith V] {K n p most : Nat} [NeZero p] {dataX dataY : List V}

/-- The arrays of all ranks after an iteration in which rank `q` has received the means `kX q`
    and `kY q`. -/
def roundLocals (K n : Nat) (dataX dataY : List V) (kX kY : Fin p → List V)
    (L : Fin p → Locals V) (r : Fin p) : Locals V :=
  let chunk := n / p
  let s : Clustering V := ⟨kX r, kY r, (L r).clustering.kAssignment⟩
  let recvAssign (q : Fin p) := assign2Cluster K chunk (kX q) (kY q) (L q).recvX (L q).recvY
    (window (q * chunk) chunk (L 0).clustering.kAssignment)
  let bufs : List (Buffer V) := (List.finRange p).map fun q => .ints (recvAssign q)
  { L r with
    clustering :=
      if r = 0 then
        calcKmeans K n dataX dataY { s with kAssignment := gathered bufs s.kAssignment }
      else s }

/-- The rank that assigns a point to its cluster. -/
def owner (n p : Nat) [NeZero p] (j : Nat) : Fin p := Fin.ofNat p (j / (n / p))

/-- Every rank has its chunk of the points and room for the means. -/
structure Distributed (K n : Nat) (dataX dataY : List V) (L : Fin p → Locals V) : Prop where
  recvX : ∀ q, (L q).recvX = window (q * (n / p)) (n / p) dataX
  recvY : ∀ q, (L q).recvY = window (q * (n / p)) (n / p) dataY
  kMeansX : ∀ q, (L q).clustering.kMeansX.length = K
  kMeansY : ∀ q, (L q).clustering.kMeansY.length = K

theorem Distributed.round {L : Fin p → Locals V} (h : Distributed K n dataX dataY L)
    {kX kY : Fin p → List V} (hX : ∀ q, (kX q).length = K) (hY : ∀ q, (kY q).length = K) :
    Distributed K n dataX dataY (roundLocals K n dataX dataY kX kY L) where
  recvX := h.recvX
  recvY := h.recvY
  kMeansX q := by
    simp only [roundLocals]
    split
    · simp [calcKmeans]
    · exact hX q
  kMeansY q := by
    simp only [roundLocals]
    split
    · simp [calcKmeans]
    · exact hY q

/-- The chunks of the ranks are the points one after another. -/
theorem roundLocals_root {L : Fin p → Locals V} (h : Distributed K n dataX dataY L)
    {kX kY : Fin p → List V} (hX : kX 0 = (L 0).clustering.kMeansX)
    (hY : kY 0 = (L 0).clustering.kMeansY) :
    (roundLocals K n dataX dataY kX kY L 0).clustering =
      stepWith K n dataX dataY (p * (n / p)) (fun j => kX (owner n p j))
        (fun j => kY (owner n p j)) (L 0).clustering := by
  let s := (L 0).clustering
  have hchunks : (List.finRange p).flatMap (fun q : Fin p =>
      assign2Cluster K (n / p) (kX q) (kY q) (window (q * (n / p)) (n / p) dataX)
        (window (q * (n / p)) (n / p) dataY) (window (q * (n / p)) (n / p) s.kAssignment)) =
      (List.range (p * (n / p))).map fun j => kMinIndex K (kX (owner n p j)) (kY (owner n p j))
        (dataX.getD j 0) (dataY.getD j 0) := by
    rw [← flatMap_chunks]
    congr 1
    funext q
    rw [assign2Cluster, List.drop_eq_nil_of_le (by rw [window]; exact List.length_take_le _ _),
      List.append_nil]
    refine List.map_congr_left fun i hi => ?_
    have hi' := List.mem_range.mp hi
    have howner : owner n p ((q : Nat) * (n / p) + i) = q := by
      have hdiv : ((q : Nat) * (n / p) + i) / (n / p) = q := by
        rw [Nat.mul_comm, Nat.mul_add_div (by omega), Nat.div_eq_of_lt hi', Nat.add_zero]
      rw [owner, hdiv]
      exact Fin.ext (Nat.mod_eq_of_lt q.isLt)
    rw [getD_window hi', getD_window hi', howner]
  have hflat : ∀ f : Fin p → List Nat,
      ((List.finRange p).map fun q => (Buffer.ints (f q) : Buffer V)).flatMap
        (fun | .ints ks => ks | .doubles _ => []) = (List.finRange p).flatMap f := by
    intro f
    rw [List.flatMap_map]
  simp only [roundLocals, if_true, gathered, hflat, h.recvX, h.recvY]
  rw [hchunks, List.length_map, List.length_range, hX, hY]
  rfl

/-- Step lemma: one iteration takes all ranks to their next arrays, for any broadcast that
    delivers the means. -/
theorem runs_round {ok : Fin p → (Fin p → Buffer V) → Prop}
    {deliver : Nat → Fin p → Fin p → Buffer V → Buffer V} {L : Fin p → Locals V}
    {i count : Nat} {a : Fin p → Locals V} {kX kY : Fin p → List V}
    (hokX : ok 0 fun r => .doubles (L r).clustering.kMeansX)
    (hokY : ok 0 fun r => .doubles (L r).clustering.kMeansY)
    (hgotX : ∀ r, deliver i 0 r (.doubles (L 0).clustering.kMeansX) = .doubles (kX r))
    (hgotY : ∀ r, deliver (i + 1) 0 r (.doubles (L 0).clustering.kMeansY) = .doubles (kY r))
    (h : Runs (List.finRange p) ok deliver (i + 2)
      (fun r => mainLoop K n p dataX dataY r count (roundLocals K n dataX dataY kX kY L r)) a) :
    Runs (List.finRange p) ok deliver i
      (fun r => mainLoop K n p dataX dataY r (count + 1) (L r)) a := by
  refine .bcast hokX ?_
  simp only [hgotX]
  refine .bcast hokY ?_
  simp only [hgotY]
  refine .scatter (.gather ?_)
  refine cast (congrArg (fun P => Runs _ _ _ (i + 2) P a) (funext fun r => ?_)) h
  by_cases hr : r = 0
  · subst hr
    simp only [if_true, roundLocals]
  · simp only [hr, if_false, roundLocals]

/-- Run lemma: after `count` iterations. -/
theorem computes_mainLoop (hK : 1 ≤ K) (hmost : K ≤ most) (count : Nat) {L : Fin p → Locals V}
    (hL : Distributed K n dataX dataY L) (i : Nat) :
    ∃ L' : Fin p → Locals V,
      Runs (List.finRange p) (Callable most) (fun _ _ _ m => m) i
        (fun r => mainLoop K n p dataX dataY r count (L r)) L' ∧
      (L' 0).clustering = (lloydStep K n dataX dataY (p * (n / p)))^[count] (L 0).clustering := by
  induction count generalizing L i with
  | zero => exact ⟨L, .ret L, rfl⟩
  | succ count ih =>
      have hround := hL.round (fun _ => hL.kMeansX 0) fun _ => hL.kMeansY 0
      obtain ⟨L', hrun, hroot⟩ := ih hround (i + 2)
      rw [roundLocals_root hL rfl rfl, ← lloydStep, ← Function.iterate_succ_apply] at hroot
      exact ⟨L', runs_round (callable_doubles hK hmost hL.kMeansX)
        (callable_doubles hK hmost hL.kMeansY) (fun _ => rfl) (fun _ => rfl) hrun, hroot⟩

theorem computes_kmeans (hK : 1 ≤ K) (hmost : K ≤ most) (count : Nat) {init : Fin p → Locals V}
    (hX : ∀ r, (init r).clustering.kMeansX.length = K)
    (hY : ∀ r, (init r).clustering.kMeansY.length = K) :
    ∃ L, Computes most (kmeans K n p dataX dataY count init) L ∧
      (L 0).clustering =
        (lloydStep K n dataX dataY (p * (n / p)))^[count] (init 0).clustering := by
  obtain ⟨L, hrun, hroot⟩ := @computes_mainLoop V _ K n p most _ dataX dataY hK hmost count
    (fun q => { init q with
      recvX := window (q * (n / p)) (n / p) dataX
      recvY := window (q * (n / p)) (n / p) dataY }) ⟨fun _ => rfl, fun _ => rfl, hX, hY⟩ 0
  exact ⟨L, .scatter (.scatter hrun), hroot⟩

end Run

/-- In double arithmetic the root of `kmeans_abft` ends with what that of `kmeans` has: after
    each iteration the next step of Lloyd's algorithm on the points that the chunks cover, in
    every interleaving, and with a few flips in every message at every rank. -/
theorem kmeansAbft_faultFree {crc32 : BitVec 32 → BitVec 8 → BitVec 32}
    (hzlib : crc32 = zlibCrc32) (K n p count : Nat) [NeZero p] (hK : 1 ≤ K)
    (hmost : K ≤ mostDoubles) {corrupt : Nat → Fin p → Payload → Payload}
    (hfew : FewFlipsAlways crc32 corrupt) (dataX dataY : List Double)
    {init : Fin p → Locals Double} (hX : ∀ r, (init r).clustering.kMeansX.length = K)
    (hY : ∀ r, (init r).clustering.kMeansY.length = K) :
    ∃ L, Yields (withAbft crc32 corrupt (kmeans K n p dataX dataY count init)) L ∧
      Yields (withBcast (kmeans K n p dataX dataY count init)) L ∧
      (L 0).clustering =
        (lloydStep K n dataX dataY (p * (n / p)))^[count] (init 0).clustering := by
  subst hzlib
  obtain ⟨L, hrun, hroot⟩ :=
    @computes_kmeans Double _ K n p mostDoubles _ dataX dataY hK hmost count init hX hY
  exact ⟨L, hrun.yields_withAbft hfew, hrun.yields_withBcast, hroot⟩

/-- Two clusters, before the first iteration. -/
def twoClusters (r : Fin 2) : Locals Double where
  clustering := ⟨[0, .ofNat 4], [0, 0], if (r : Nat) = 0 then [0, 0, 0, 0] else []⟩
  recvX := []
  recvY := []

/-- Four points, two ranks and two flips in every message. -/
theorem kmeansAbft_faultFree_four : ∃ L,
    Yields (withAbft zlibCrc32 (injected fun i r => [i, i + r]) (kmeans 2 4 2
      ([0, 1, 4, 5].map .ofNat) [0, 0, 0, 0] 3 twoClusters)) L ∧
    Yields (withBcast (kmeans 2 4 2 ([0, 1, 4, 5].map .ofNat) [0, 0, 0, 0] 3 twoClusters)) L ∧
    (L 0).clustering = (lloydStep 2 4 ([0, 1, 4, 5].map .ofNat) [0, 0, 0, 0] (2 * (4 / 2)))^[3]
      (twoClusters 0).clustering :=
  kmeansAbft_faultFree rfl 2 4 2 3 (by decide) (by decide)
    (injected_fewFlipsAlways zlibCrc32 fun _ _ => Nat.le_refl _) _ _ (by decide) (by decide)

/-! ## Exact arithmetic -/

noncomputable instance : KmeansArith ℝ where
  fabs x := |x|
  sqrt := Real.sqrt
  lt x y := decide (x < y)
  ofNat n := n

section Reals

/-- Rational numbers as real ones. -/
noncomputable def reals (xs : List ℚ) : List ℝ := xs.map fun x : ℚ => (x : ℝ)

/-- A clustering of `MpiApps.Apps.Kmeans` with real means. -/
noncomputable def ofKmeans (s : Kmeans.Clustering) : Clustering ℝ :=
  ⟨reals s.kMeansX, reals s.kMeansY, s.kAssignment⟩

theorem reals_getD (xs : List ℚ) (i : Nat) : (reals xs).getD i 0 = (xs.getD i 0 : ℚ) := by
  rw [reals, ← Rat.cast_zero (α := ℝ)]
  exact List.getD_map _ _ fun x : ℚ => (x : ℝ)

/-- The roots are compared as their squares are. -/
theorem lt_dist_reals (kX kY : List ℚ) (x y : ℚ) (i j : Nat) :
    KmeansArith.lt (dist (reals kX) (reals kY) (x : ℝ) y i)
        (dist (reals kX) (reals kY) (x : ℝ) y j) =
      decide (Kmeans.sqDist kX kY x y i < Kmeans.sqDist kX kY x y j) := by
  have hdist : ∀ j, dist (reals kX) (reals kY) (x : ℝ) y j =
      √((Kmeans.sqDist kX kY x y j : ℚ) : ℝ) := by
    intro j
    simp only [dist, Kmeans.sqDist, KmeansArith.fabs, KmeansArith.sqrt, reals_getD]
    push_cast
    rfl
  have hnonneg : (0 : ℝ) ≤ (Kmeans.sqDist kX kY x y i : ℚ) := by
    rw [Kmeans.sqDist]
    exact_mod_cast add_nonneg (mul_self_nonneg _) (mul_self_nonneg _)
  rw [hdist, hdist]
  exact decide_eq_decide.mpr ((Real.sqrt_lt_sqrt_iff hnonneg).trans Rat.cast_lt)

theorem kMinIndex_reals (K : Nat) (kX kY : List ℚ) (x y : ℚ) :
    kMinIndex K (reals kX) (reals kY) (x : ℝ) y = Kmeans.kMinIndex K kX kY x y := by
  let d := dist (reals kX) (reals kY) (x : ℝ) y
  let sq := Kmeans.sqDist kX kY x y
  have hloop : ∀ (js : List Nat) (m : Nat),
      (js.foldl (fun min j => if KmeansArith.lt (d j) min.2 then (j, d j) else min) (m, d m)).1 =
        (js.foldl (fun min j => if sq j < min.2 then (j, sq j) else min) (m, sq m)).1 := by
    intro js
    induction js with
    | nil => exact fun _ => rfl
    | cons j js ih =>
        intro m
        have hlt : KmeansArith.lt (d j) (d m) = decide (sq j < sq m) :=
          lt_dist_reals kX kY x y j m
        rw [List.foldl_cons, List.foldl_cons]
        by_cases h : sq j < sq m
        · rw [if_pos (hlt.trans (decide_eq_true h)), if_pos h]
          exact ih j
        · rw [if_neg (by rw [hlt]; simpa using h), if_neg h]
          exact ih m
  exact hloop _ 0

theorem clusterTotals_reals (n : Nat) (dataX dataY : List ℚ) (kAssignment : List Nat) (i : Nat) :
    clusterTotals n (reals dataX) (reals dataY) kAssignment i =
      (((Kmeans.clusterTotals n dataX dataY kAssignment i).1 : ℝ),
        ((Kmeans.clusterTotals n dataX dataY kAssignment i).2.1 : ℝ),
        (Kmeans.clusterTotals n dataX dataY kAssignment i).2.2) := by
  rw [clusterTotals, Kmeans.clusterTotals]
  refine List.foldl_rel
    (r := fun (s : ℝ × ℝ × Nat) (t : ℚ × ℚ × Nat) => s = ((t.1 : ℝ), (t.2.1 : ℝ), t.2.2))
    (by simp) fun j _ s t hst => ?_
  subst hst
  split
  · simp only [reals_getD]
    push_cast
    rfl
  · rfl

theorem calcKmeans_reals (K n : Nat) (dataX dataY : List ℚ) (s : Kmeans.Clustering) :
    calcKmeans K n (reals dataX) (reals dataY) (ofKmeans s) =
      ofKmeans (Kmeans.calcKmeans K n dataX dataY s) := by
  have hmap : ∀ (f : Nat → ℝ) (g : Nat → ℚ), (∀ i, f i = g i) →
      (List.range K).map f = reals ((List.range K).map g) := by
    intro f g hfg
    rw [reals, List.map_map]
    exact List.map_congr_left fun i _ => hfg i
  simp only [calcKmeans, Kmeans.calcKmeans, ofKmeans, clusterTotals_reals]
  -- a cluster without points keeps its mean
  congr 1
  · refine hmap _ _ fun i => ?_
    split
    · push_cast
      rfl
    · exact reals_getD _ _
  · refine hmap _ _ fun i => ?_
    split
    · push_cast
      rfl
    · exact reals_getD _ _

/-- With real numbers a step is the iteration of `MpiApps.Apps.Kmeans`, whose `sqDist` leaves
    the root out. -/
theorem lloydStep_reals (K n p : Nat) (dataX dataY : List ℚ) (s : Kmeans.Clustering) :
    lloydStep K n (reals dataX) (reals dataY) (p * (n / p)) (ofKmeans s) =
      ofKmeans (Kmeans.iteration K n p dataX dataY s) := by
  rw [Kmeans.iteration_eq, ← calcKmeans_reals]
  simp only [lloydStep, stepWith, ofKmeans, reals_getD, kMinIndex_reals]

end Reals

end MpiApps.KmeansAbft
