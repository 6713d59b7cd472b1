/-
  MpiApps.Apps.Kmeans

  k-means with the points distributed over the ranks.

  The root broadcasts the means, every rank assigns its chunk of the points to the nearest
  means, the root gathers the assignments and recomputes the means.  A chunk has
  `numOfElements / num_of_processes` points; points behind the last chunk keep the assignment
  they have.  The run of all ranks is a sequence of `iteration`s at the root
  (`reaches_kmeans`), and an iteration never increases the cost (`cost_iteration_le`).

  The number of ranks enters only through the number of points that the chunks cover
  (`iteration_eq`).
-/

import MpiApps.Lib.Collectives
import MpiApps.Lib.Lloyd
import MpiApps.Lib.Windows
import Mathlib.Data.Rat.Lemmas

namespace MpiApps.Kmeans

open MpiApps.MessagePassing MpiApps.Lloyd MpiApps.Windows

/-! ## The code -/

/-- The MPI buffers that are sent: `MPI_DOUBLE` and `MPI_INT`. -/
inductive Buffer
  | doubles (xs : List ℚ)
  | ints (ks : List Nat)
  deriving DecidableEq

/-- `k_means_x`, `k_means_y` and `k_assignment`. -/
structure Clustering where
  kMeansX : List ℚ
  kMeansY : List ℚ
  kAssignment : List Nat
  deriving DecidableEq

/-- The arrays of a rank; `k_assignment` is in use at the root only. -/
structure Locals where
  clustering : Clustering
  recvX : List ℚ
  recvY : List ℚ
  recvAssign : List Nat

section Code

variable (numOfClusters numOfElements : Nat)

/-- The square of the distance of a point to mean `j`; the code compares the roots. -/
def sqDist (kX kY : List ℚ) (recvX recvY : ℚ) (j : Nat) : ℚ :=
  let x := |recvX - kX.getD j 0|
  let y := |recvY - kY.getD j 0|
  x * x + y * y

/-- `k_min_index` after the loop over the means. -/
def kMinIndex (kX kY : List ℚ) (recvX recvY : ℚ) : Nat :=
  let dist := sqDist kX kY recvX recvY
  ((List.range' 1 (numOfClusters - 1)).foldl
    (fun min j => if dist j < min.2 then (j, dist j) else min) (0, dist 0)).1

/-- `assign2Cluster`: the array `assign` with its first `chunk` entries written. -/
def assign2Cluster (chunk : Nat) (kX kY recvX recvY : List ℚ) (assign : List Nat) : List Nat :=
  (List.range chunk).map (fun i =>
    kMinIndex numOfClusters kX kY (recvX.getD i 0) (recvY.getD i 0)) ++ assign.drop chunk

/-- `total_x`, `total_y` and `numOfpoints` of cluster `i`. -/
def clusterTotals (dataX dataY : List ℚ) (kAssignment : List Nat) (i : Nat) : ℚ × ℚ × Nat :=
  (List.range numOfElements).foldl (fun total j =>
    if kAssignment.getD j 0 = i then
      (total.1 + dataX.getD j 0, total.2.1 + dataY.getD j 0, total.2.2 + 1)
    else total) (0, 0, 0)

/-- `calcKmeans`: a cluster without points keeps its mean. -/
def calcKmeans (dataX dataY : List ℚ) (s : Clustering) : Clustering :=
  let totals := clusterTotals numOfElements dataX dataY s.kAssignment
  { s with
    kMeansX := (List.range numOfClusters).map fun i =>
      if (totals i).2.2 ≠ 0 then (totals i).1 / (totals i).2.2 else s.kMeansX.getD i 0
    kMeansY := (List.range numOfClusters).map fun i =>
      if (totals i).2.2 ≠ 0 then (totals i).2.1 / (totals i).2.2 else s.kMeansY.getD i 0 }

/-- `k_assignment` after the chunks in `bufs` have been gathered into it. -/
def gathered (bufs : List Buffer) (kAssignment : List Nat) : List Nat :=
  let chunks := bufs.flatMap fun
    | .ints ks => ks
    | .doubles _ => []
  chunks ++ kAssignment.drop chunks.length

variable (p : Nat) [NeZero p] (dataX dataY : List ℚ)

/-- The main loop at rank `r` for the remaining iterations. -/
def mainLoop (r : Fin p) : Nat → Locals → Proc (Fin p) Unit Buffer Locals
  | 0, l => .ret l
  | count + 1, l =>
    let chunk := numOfElements / p
    bcast (List.finRange p) 0 r () (.doubles l.clustering.kMeansX) fun
      | .doubles kX =>
        bcast (List.finRange p) 0 r () (.doubles l.clustering.kMeansY) fun
          | .doubles kY =>
            scatter (List.finRange p) 0 r ()
              (fun d => .ints (window (d * chunk) chunk l.clustering.kAssignment)) fun
              | .ints recvAssign =>
                let recvAssign :=
                  assign2Cluster numOfClusters chunk kX kY l.recvX l.recvY recvAssign
                gather (List.finRange p) 0 r () (.ints recvAssign) fun bufs =>
                  let s : Clustering := ⟨kX, kY, l.clustering.kAssignment⟩
                  let s :=
                    if r = 0 then
                      calcKmeans numOfClusters numOfElements dataX dataY
                        { s with kAssignment := gathered bufs s.kAssignment }
                    else s
                  mainLoop r count { l with clustering := s, recvAssign := recvAssign }
              | _ => .abort
          | _ => .abort
      | _ => .abort

/-- From the distribution of the points on, at rank `r`. -/
def kmeans (r : Fin p) (count : Nat) (l : Locals) : Proc (Fin p) Unit Buffer Locals :=
  let chunk := numOfElements / p
  scatter (List.finRange p) 0 r () (fun d => .doubles (window (d * chunk) chunk dataX)) fun
    | .doubles recvX =>
      scatter (List.finRange p) 0 r () (fun d => .doubles (window (d * chunk) chunk dataY)) fun
        | .doubles recvY =>
          mainLoop numOfClusters numOfElements p dataX dataY r count
            { l with recvX := recvX, recvY := recvY }
        | _ => .abort
    | _ => .abort

/-- All ranks before the points are distributed; only the root has initialised its arrays. -/
def kmeansSys (init : Fin p → Locals) (count : Nat) : Sys (Fin p) Unit Buffer Locals :=
  Sys.start fun r => kmeans numOfClusters numOfElements p dataX dataY r count (init r)

/-- What the root starts with: the means are points of the data, and every point is in
    cluster 0. -/
def initialClustering : Clustering where
  kMeansX := (List.range numOfClusters).map fun i =>
    dataX.getD (numOfElements / numOfClusters * i) 0
  kMeansY := (List.range numOfClusters).map fun i =>
    dataY.getD (numOfElements / numOfClusters * i) 0
  kAssignment := List.replicate numOfElements 0

/-- One iteration, as the root sees it. -/
def iteration (s : Clustering) : Clustering :=
  let chunk := numOfElements / p
  let chunks := (List.finRange p).flatMap fun q : Fin p =>
    assign2Cluster numOfClusters chunk s.kMeansX s.kMeansY (window (q * chunk) chunk dataX)
      (window (q * chunk) chunk dataY) (window (q * chunk) chunk s.kAssignment)
  calcKmeans numOfClusters numOfElements dataX dataY
    { s with kAssignment := chunks ++ s.kAssignment.drop chunks.length }

end Code

/-! ## The run of all ranks -/

section Run

variable {K n p : Nat} [NeZero p] {dataX dataY : List ℚ}

/-- The arrays of all ranks after one iteration. -/
def roundLocals (K n : Nat) (dataX dataY : List ℚ) (L : Fin p → Locals) (r : Fin p) : Locals :=
  let chunk := n / p
  let s := (L 0).clustering
  let recvAssign (q : Fin p) := assign2Cluster K chunk s.kMeansX s.kMeansY (L q).recvX (L q).recvY
    (window (q * chunk) chunk s.kAssignment)
  { L r with
    clustering :=
      if r = 0 then
        calcKmeans K n dataX dataY
          { s with kAssignment :=
              gathered ((List.finRange p).map fun q => .ints (recvAssign q)) s.kAssignment }
      else ⟨s.kMeansX, s.kMeansY, (L r).clustering.kAssignment⟩
    recvAssign := recvAssign r }

/-- Step lemma: one iteration takes all ranks to their next arrays. -/
theorem reaches_round (count : Nat) (L : Fin p → Locals) :
    Reaches (fun r => mainLoop K n p dataX dataY r (count + 1) (L r))
      (fun r => mainLoop K n p dataX dataY r count (roundLocals K n dataX dataY L r)) := by
  have hnodup := List.nodup_finRange p
  have hmem := fun r : Fin p => List.mem_finRange r
  refine (reaches_bcast hnodup hmem 0 () _ _).trans ?_
  refine (reaches_bcast hnodup hmem 0 () _ _).trans ?_
  refine (reaches_scatter hnodup hmem 0 () _ _).trans ?_
  refine (reaches_gather hnodup hmem 0 () _ _).trans ?_
  refine cast (congrArg (Reaches _) (funext fun r => ?_)) (Reaches.refl _)
  by_cases hr : r = 0
  · subst hr
    simp only [if_true, roundLocals]
  · simp only [hr, if_false, roundLocals]

/-- The chunks of the points are at their ranks. -/
def Distributed (n : Nat) (dataX dataY : List ℚ) (L : Fin p → Locals) : Prop :=
  ∀ q, (L q).recvX = window (q * (n / p)) (n / p) dataX ∧
    (L q).recvY = window (q * (n / p)) (n / p) dataY

theorem Distributed.round {L : Fin p → Locals} (h : Distributed n dataX dataY L) :
    Distributed n dataX dataY (roundLocals K n dataX dataY L) := h

theorem round_clustering {L : Fin p → Locals} (h : Distributed n dataX dataY L) :
    (roundLocals K n dataX dataY L 0).clustering =
      iteration K n p dataX dataY (L 0).clustering := by
  have hflat : ∀ f : Fin p → List Nat,
      ((List.finRange p).map fun q => Buffer.ints (f q)).flatMap
        (fun | .ints ks => ks | .doubles _ => []) = (List.finRange p).flatMap f := by
    intro f
    rw [List.flatMap_map]
  simp only [roundLocals, if_true, iteration, gathered, hflat, fun q => (h q).1,
    fun q => (h q).2]

/-- Run lemma: after `count` iterations. -/
theorem reaches_mainLoop (count : Nat) (L : Fin p → Locals) (h : Distributed n dataX dataY L) :
    ∃ L' : Fin p → Locals,
      Reaches (fun r => mainLoop K n p dataX dataY r count (L r)) (fun r => .ret (L' r)) ∧
      (L' 0).clustering = (iteration K n p dataX dataY)^[count] (L 0).clustering := by
  induction count generalizing L with
  | zero => exact ⟨L, .refl _, rfl⟩
  | succ count ih =>
      obtain ⟨L', hreach, hroot⟩ := ih (roundLocals K n dataX dataY L) h.round
      rw [round_clustering h, ← Function.iterate_succ_apply] at hroot
      exact ⟨L', (reaches_round count L).trans hreach, hroot⟩

/-- In every complete run the root ends with the iterates of its initial arrays. -/
theorem reaches_kmeans (K n : Nat) (dataX dataY : List ℚ) (init : Fin p → Locals) (count : Nat) :
    ∃ L, (∃ t, Outcome (kmeansSys K n p dataX dataY init count) t L ∧
        ∀ u m, Run (kmeansSys K n p dataX dataY init count) u m →
          (∃ k, Run u t k) ∧ (u.Terminal → u = t)) ∧
      (L 0).clustering = (iteration K n p dataX dataY)^[count] (init 0).clustering := by
  have hnodup := List.nodup_finRange p
  have hmem := fun r : Fin p => List.mem_finRange r
  obtain ⟨L, hreach, hroot⟩ := @reaches_mainLoop K n p _ dataX dataY count
    (fun q => { init q with
      recvX := window (q * (n / p)) (n / p) dataX
      recvY := window (q * (n / p)) (n / p) dataY }) fun q => ⟨rfl, rfl⟩
  refine ⟨L, Reaches.determined ?_, hroot⟩
  refine (reaches_scatter hnodup hmem 0 () _ _).trans ?_
  exact (reaches_scatter hnodup hmem 0 () _ _).trans hreach

end Run

/-! ## One iteration -/

section Iteration

variable {K n p : Nat} {dataX dataY : List ℚ}

/-- The assignment after an iteration: the nearest mean for every point that the chunks
    cover, what it was before for the others. -/
theorem iteration_eq (s : Clustering) :
    iteration K n p dataX dataY s =
      calcKmeans K n dataX dataY
        { s with kAssignment :=
            (List.range (p * (n / p))).map (fun j =>
              kMinIndex K s.kMeansX s.kMeansY (dataX.getD j 0) (dataY.getD j 0)) ++
            s.kAssignment.drop (p * (n / p)) } := by
  -- the chunks of the ranks are the points one after another
  have hchunks : (List.finRange p).flatMap (fun q : Fin p =>
      assign2Cluster K (n / p) s.kMeansX s.kMeansY (window (q * (n / p)) (n / p) dataX)
        (window (q * (n / p)) (n / p) dataY) (window (q * (n / p)) (n / p) s.kAssignment)) =
      (List.range (p * (n / p))).map fun j =>
        kMinIndex K s.kMeansX s.kMeansY (dataX.getD j 0) (dataY.getD j 0) := by
    rw [← flatMap_chunks]
    congr 1
    funext q
    rw [assign2Cluster, List.drop_eq_nil_of_le (by rw [window]; exact List.length_take_le _ _),
      List.append_nil]
    refine List.map_congr_left fun i hi => ?_
    rw [getD_window (List.mem_range.mp hi), getD_window (List.mem_range.mp hi)]
  rw [iteration, hchunks, List.length_map, List.length_range]

/-! ## The cost -/

/-- The sum over all points of the squared distance to the mean of their cluster. -/
def cost (n : Nat) (dataX dataY : List ℚ) (s : Clustering) : ℚ :=
  ∑ j ∈ Finset.range n,
    ((dataX.getD j 0 - s.kMeansX.getD (s.kAssignment.getD j 0) 0) ^ 2 +
      (dataY.getD j 0 - s.kMeansY.getD (s.kAssignment.getD j 0) 0) ^ 2)

/-- The arrays are allocated as the code does, and every point has a cluster. -/
structure Clustering.Valid (K n : Nat) (s : Clustering) : Prop where
  meansX : s.kMeansX.length = K
  meansY : s.kMeansY.length = K
  points : s.kAssignment.length = n
  clusters : ∀ k ∈ s.kAssignment, k < K

theorem Clustering.Valid.getD_lt {s : Clustering} (h : s.Valid K n) {j : Nat} (hj : j < n) :
    s.kAssignment.getD j 0 < K := by
  have hj' : j < s.kAssignment.length := by rw [h.points]; exact hj
  rw [List.getD_eq_getElem?_getD, List.getElem?_eq_getElem hj']
  exact h.clusters _ (List.getElem_mem hj')

theorem sqDist_eq (kX kY : List ℚ) (x y : ℚ) (j : Nat) :
    sqDist kX kY x y j = (x - kX.getD j 0) ^ 2 + (y - kY.getD j 0) ^ 2 := by
  rw [sqDist, abs_mul_abs_self, abs_mul_abs_self, sq, sq]

/-- The mean that is found is one of the means, and none is nearer. -/
theorem kMinIndex_spec (hK : 0 < K) (kX kY : List ℚ) (x y : ℚ) :
    kMinIndex K kX kY x y < K ∧
      ∀ k < K, sqDist kX kY x y (kMinIndex K kX kY x y) ≤ sqDist kX kY x y k := by
  obtain ⟨k', hfold, hmem, hmin⟩ :=
    foldl_first_min (sqDist kX kY x y) (List.range' 1 (K - 1)) 0
  have hall : ∀ k, k ∈ 0 :: List.range' 1 (K - 1) ↔ k < K := by
    intro k
    rw [List.mem_cons, List.mem_range'_1]
    omega
  have hindex : kMinIndex K kX kY x y = k' := by
    rw [kMinIndex]
    exact congrArg Prod.fst hfold
  rw [hindex]
  exact ⟨(hall k').mp hmem, fun k hk => hmin k ((hall k).mpr hk)⟩

/-- The totals of a cluster are the sums over its points. -/
theorem clusterTotals_eq (kAssignment : List Nat) (i : Nat) :
    clusterTotals n dataX dataY kAssignment i =
      (∑ j ∈ Finset.range n with kAssignment.getD j 0 = i, dataX.getD j 0,
        ∑ j ∈ Finset.range n with kAssignment.getD j 0 = i, dataY.getD j 0,
        ({j ∈ Finset.range n | kAssignment.getD j 0 = i} : Finset ℕ).card) := by
  rw [clusterTotals]
  induction n with
  | zero => rfl
  | succ n ih =>
      rw [List.range_succ, List.foldl_append, ih, List.foldl_cons, List.foldl_nil,
        Finset.range_add_one, Finset.filter_insert]
      by_cases hn : kAssignment.getD n 0 = i
      · rw [if_pos hn, if_pos hn, Finset.sum_insert (by simp), Finset.sum_insert (by simp),
          Finset.card_insert_of_notMem (by simp)]
        simp only [add_comm]
      · rw [if_neg hn, if_neg hn]

/-- The assignment with the first `m` points reassigned to their nearest means. -/
def reassigned (K m : Nat) (dataX dataY : List ℚ) (s : Clustering) : Clustering :=
  { s with kAssignment :=
      (List.range m).map (fun j =>
        kMinIndex K s.kMeansX s.kMeansY (dataX.getD j 0) (dataY.getD j 0)) ++
      s.kAssignment.drop m }

theorem reassigned_getD (m : Nat) (s : Clustering) (j : Nat) :
    (reassigned K m dataX dataY s).kAssignment.getD j 0 =
      if j < m then kMinIndex K s.kMeansX s.kMeansY (dataX.getD j 0) (dataY.getD j 0)
      else s.kAssignment.getD j 0 := by
  have hlen : ((List.range m).map fun j =>
      kMinIndex K s.kMeansX s.kMeansY (dataX.getD j 0) (dataY.getD j 0)).length = m := by simp
  rw [reassigned, List.getD_eq_getElem?_getD]
  by_cases hj : j < m
  · rw [if_pos hj, List.getElem?_append_left (by rw [hlen]; exact hj), List.getElem?_map,
      List.getElem?_range hj]
    rfl
  · rw [if_neg hj, List.getElem?_append_right (by rw [hlen]; omega), hlen, List.getElem?_drop,
      Nat.add_sub_cancel' (by omega), ← List.getD_eq_getElem?_getD]

theorem reassigned_valid {m : Nat} (hm : m ≤ n) {s : Clustering} (h : s.Valid K n) :
    (reassigned K m dataX dataY s).Valid K n := by
  refine ⟨h.meansX, h.meansY, ?_, ?_⟩
  · rw [reassigned, List.length_append, List.length_map, List.length_range, List.length_drop,
      h.points]
    omega
  · intro k hk
    rcases List.mem_append.mp hk with hk | hk
    · obtain ⟨j, hj, rfl⟩ := List.mem_map.mp hk
      have hj := List.mem_range.mp hj
      have hK : 0 < K := Nat.zero_lt_of_lt (h.getD_lt (show j < n by omega))
      exact (kMinIndex_spec hK _ _ _ _).1
    · exact h.clusters k (List.mem_of_mem_drop hk)

/-- First half: no point is farther from the mean it is reassigned to. -/
theorem cost_reassigned_le {m : Nat} {s : Clustering} (h : s.Valid K n) :
    cost n dataX dataY (reassigned K m dataX dataY s) ≤ cost n dataX dataY s := by
  refine Finset.sum_le_sum fun j hj => ?_
  have hlt := h.getD_lt (Finset.mem_range.mp hj)
  rw [reassigned_getD, ← sqDist_eq, ← sqDist_eq]
  by_cases hjm : j < m
  · rw [if_pos hjm]
    exact (kMinIndex_spec (Nat.zero_lt_of_lt hlt) _ _ _ _).2 _ hlt
  · rw [if_neg hjm]
    exact le_rfl

theorem getD_map_range {K c : Nat} (hc : c < K) (f : Nat → ℚ) :
    ((List.range K).map f).getD c 0 = f c := by
  rw [List.getD_eq_getElem?_getD, List.getElem?_map, List.getElem?_range hc]
  rfl

theorem calcKmeans_valid {s : Clustering} (h : s.Valid K n) :
    (calcKmeans K n dataX dataY s).Valid K n := by
  refine ⟨?_, ?_, h.points, h.clusters⟩
  · simp [calcKmeans]
  · simp [calcKmeans]

/-- The means of the cluster of a point are the averages of its points. -/
theorem calcKmeans_means {s : Clustering} (h : s.Valid K n) {j : Nat} (hj : j ∈ Finset.range n) :
    (calcKmeans K n dataX dataY s).kMeansX.getD (s.kAssignment.getD j 0) 0 =
        (∑ i ∈ Finset.range n with s.kAssignment.getD i 0 = s.kAssignment.getD j 0,
          dataX.getD i 0) /
          ({i ∈ Finset.range n | s.kAssignment.getD i 0 = s.kAssignment.getD j 0} :
            Finset ℕ).card ∧
      (calcKmeans K n dataX dataY s).kMeansY.getD (s.kAssignment.getD j 0) 0 =
        (∑ i ∈ Finset.range n with s.kAssignment.getD i 0 = s.kAssignment.getD j 0,
          dataY.getD i 0) /
          ({i ∈ Finset.range n | s.kAssignment.getD i 0 = s.kAssignment.getD j 0} :
            Finset ℕ).card := by
  have hlt := h.getD_lt (Finset.mem_range.mp hj)
  -- the cluster has a point, so its mean is set anew
  have hcard : ({i ∈ Finset.range n | s.kAssignment.getD i 0 = s.kAssignment.getD j 0} :
      Finset ℕ).card ≠ 0 := Finset.card_ne_zero_of_mem (Finset.mem_filter.mpr ⟨hj, rfl⟩)
  constructor
  · refine (getD_map_range hlt _).trans ?_
    rw [clusterTotals_eq, if_pos hcard]
  · refine (getD_map_range hlt _).trans ?_
    rw [clusterTotals_eq, if_pos hcard]

/-- Second half: the averages of the clusters are at least as good as the old means. -/
theorem cost_calcKmeans_le {s : Clustering} (h : s.Valid K n) :
    cost n dataX dataY (calcKmeans K n dataX dataY s) ≤ cost n dataX dataY s := by
  have hsplit : ∀ s : Clustering, cost n dataX dataY s =
      spread (Finset.range n) (dataX.getD · 0) (s.kMeansX.getD · 0) (s.kAssignment.getD · 0) +
        spread (Finset.range n) (dataY.getD · 0) (s.kMeansY.getD · 0)
          (s.kAssignment.getD · 0) := fun s => Finset.sum_add_distrib
  rw [hsplit, hsplit]
  exact add_le_add (spread_average_le _ _ fun j hj => (calcKmeans_means h hj).1)
    (spread_average_le _ _ fun j hj => (calcKmeans_means h hj).2)

theorem iteration_eq_calcKmeans (s : Clustering) :
    iteration K n p dataX dataY s =
      calcKmeans K n dataX dataY (reassigned K (p * (n / p)) dataX dataY s) :=
  iteration_eq s

theorem iteration_valid {s : Clustering} (h : s.Valid K n) :
    (iteration K n p dataX dataY s).Valid K n := by
  rw [iteration_eq_calcKmeans]
  exact calcKmeans_valid (reassigned_valid (Nat.mul_div_le n p) h)

/-- Step lemma: an iteration does not increase the cost. -/
theorem cost_iteration_le {s : Clustering} (h : s.Valid K n) :
    cost n dataX dataY (iteration K n p dataX dataY s) ≤ cost n dataX dataY s := by
  rw [iteration_eq_calcKmeans]
  calc cost n dataX dataY (calcKmeans K n dataX dataY (reassigned K (p * (n / p)) dataX dataY s))
      ≤ cost n dataX dataY (reassigned K (p * (n / p)) dataX dataY s) :=
        cost_calcKmeans_le (reassigned_valid (Nat.mul_div_le n p) h)
    _ ≤ cost n dataX dataY s := cost_reassigned_le h

theorem iterate_valid {s : Clustering} (h : s.Valid K n) (count : Nat) :
    ((iteration K n p dataX dataY)^[count] s).Valid K n := by
  induction count with
  | zero => exact h
  | succ count ih =>
      rw [Function.iterate_succ_apply']
      exact iteration_valid ih

end Iteration

/-! ## Results -/

/-- From any means and any assignment, with any number of ranks: the root goes through the
    iterates of its arrays in every complete run, and no iteration increases the cost. -/
theorem kmeans_never_worse (K n p : Nat) [NeZero p] (dataX dataY : List ℚ)
    (init : Fin p → Locals) (hvalid : (init 0).clustering.Valid K n) (count : Nat) :
    (∃ L, (∃ t, Outcome (kmeansSys K n p dataX dataY init count) t L ∧
        ∀ u m, Run (kmeansSys K n p dataX dataY init count) u m →
          (∃ k, Run u t k) ∧ (u.Terminal → u = t)) ∧
      (L 0).clustering = (iteration K n p dataX dataY)^[count] (init 0).clustering) ∧
    cost n dataX dataY ((iteration K n p dataX dataY)^[count + 1] (init 0).clustering) ≤
      cost n dataX dataY ((iteration K n p dataX dataY)^[count] (init 0).clustering) := by
  refine ⟨reaches_kmeans K n dataX dataY init count, ?_⟩
  rw [Function.iterate_succ_apply']
  exact cost_iteration_le (iterate_valid hvalid count)

/-- A root with these arrays, among ranks with nothing in theirs. -/
def rootStarts (p : Nat) [NeZero p] (s : Clustering) (r : Fin p) : Locals where
  clustering := if r = 0 then s else ⟨[], [], []⟩
  recvX := []
  recvY := []
  recvAssign := []

theorem initialClustering_valid {K n : Nat} (hK : 0 < K) (dataX dataY : List ℚ) :
    (initialClustering K n dataX dataY).Valid K n := by
  refine ⟨by simp [initialClustering], by simp [initialClustering],
    by simp [initialClustering], fun k hk => ?_⟩
  rw [List.eq_of_mem_replicate hk]
  exact hK

/-- Three points on a line, two clusters and two ranks: the third point is in no chunk. -/
theorem kmeans_never_worse_three :
    cost 3 [0, 10, 10] [0, 0, 0] ((iteration 2 3 2 [0, 10, 10] [0, 0, 0])^[5]
        (initialClustering 2 3 [0, 10, 10] [0, 0, 0])) ≤
      cost 3 [0, 10, 10] [0, 0, 0] ((iteration 2 3 2 [0, 10, 10] [0, 0, 0])^[4]
        (initialClustering 2 3 [0, 10, 10] [0, 0, 0])) :=
  (kmeans_never_worse 2 3 2 [0, 10, 10] [0, 0, 0]
    (rootStarts 2 (initialClustering 2 3 [0, 10, 10] [0, 0, 0]))
    (initialClustering_valid (by decide) [0, 10, 10] [0, 0, 0]) 4).2

/-- Runs with `p` and with `q` ranks whose chunks cover equally many points, in particular
    when both numbers divide that of the points, give the same assignment and the same means
    after any number of iterations. -/
theorem kmeans_same_of_cover (K n p q : Nat) [NeZero p] [NeZero q]
    (hcover : p * (n / p) = q * (n / q)) (dataX dataY : List ℚ) (init : Fin p → Locals)
    (init' : Fin q → Locals) (hinit : (init 0).clustering = (init' 0).clustering)
    (count : Nat) :
    ∃ L L',
      (∃ t, Outcome (kmeansSys K n p dataX dataY init count) t L ∧
        ∀ u m, Run (kmeansSys K n p dataX dataY init count) u m →
          (∃ k, Run u t k) ∧ (u.Terminal → u = t)) ∧
      (∃ t, Outcome (kmeansSys K n q dataX dataY init' count) t L' ∧
        ∀ u m, Run (kmeansSys K n q dataX dataY init' count) u m →
          (∃ k, Run u t k) ∧ (u.Terminal → u = t)) ∧
      (L 0).clustering = (L' 0).clustering := by
  obtain ⟨L, hL, hroot⟩ := reaches_kmeans K n dataX dataY init count
  obtain ⟨L', hL', hroot'⟩ := reaches_kmeans K n dataX dataY init' count
  have hsame : iteration K n p dataX dataY = iteration K n q dataX dataY := by
    funext s
    rw [iteration_eq, iteration_eq, hcover]
  exact ⟨L, L', hL, hL', by rw [hroot, hroot', hinit, hsame]⟩

theorem kmeans_same_of_cover_four : ∃ L L',
    (∃ t, Outcome (kmeansSys 2 4 1 [0, 1, 8, 9] [0, 0, 0, 0]
      (rootStarts 1 (initialClustering 2 4 [0, 1, 8, 9] [0, 0, 0, 0])) 7) t L) ∧
    (∃ t, Outcome (kmeansSys 2 4 2 [0, 1, 8, 9] [0, 0, 0, 0]
      (rootStarts 2 (initialClustering 2 4 [0, 1, 8, 9] [0, 0, 0, 0])) 7) t L') ∧
    (L 0).clustering = (L' 0).clustering := by
  obtain ⟨L, L', ⟨t, ht, _⟩, ⟨u, hu, _⟩, h⟩ := kmeans_same_of_cover 2 4 1 2 (by decide)
    [0, 1, 8, 9] [0, 0, 0, 0] (rootStarts 1 (initialClustering 2 4 [0, 1, 8, 9] [0, 0, 0, 0]))
    (rootStarts 2 (initialClustering 2 4 [0, 1, 8, 9] [0, 0, 0, 0])) rfl 7
  exact ⟨L, L', ⟨t, ht⟩, ⟨u, hu⟩, h⟩

/-- Three points and two clusters: one rank assigns the third point to the second cluster, two
    ranks leave it in the first. -/
theorem kmeans_depends_on_ranks :
    ¬ ∀ (K n p q count : Nat) [NeZero p] [NeZero q] (dataX dataY : List ℚ)
      (init : Fin p → Locals) (init' : Fin q → Locals) (L : Fin p → Locals)
      (L' : Fin q → Locals),
      1 ≤ p → p ≤ n → 1 ≤ q → q ≤ n → dataX.length = n → dataY.length = n →
      (init 0).clustering = initialClustering K n dataX dataY →
      (init' 0).clustering = initialClustering K n dataX dataY →
      (∃ t, Outcome (kmeansSys K n p dataX dataY init count) t L) →
      (∃ t, Outcome (kmeansSys K n q dataX dataY init' count) t L') →
      (L 0).clustering = (L' 0).clustering := by
  intro hall
  -- 3 points: two ranks get one each, the last point is assigned by neither
  let s := initialClustering 2 3 [0, 10, 10] [0, 0, 0]
  obtain ⟨L, ⟨t, ht, _⟩, hroot⟩ :=
    reaches_kmeans 2 3 [0, 10, 10] [0, 0, 0] (rootStarts 1 s) 1
  obtain ⟨L', ⟨t', ht', _⟩, hroot'⟩ :=
    reaches_kmeans 2 3 [0, 10, 10] [0, 0, 0] (rootStarts 2 s) 1
  have h := hall 2 3 1 2 1 [0, 10, 10] [0, 0, 0] (rootStarts 1 s) (rootStarts 2 s) L L'
    (by decide) (by decide) (by decide) (by decide) rfl rfl rfl rfl ⟨t, ht⟩ ⟨t', ht'⟩
  rw [hroot, hroot'] at h
  have hdiffer : (iteration 2 3 1 [0, 10, 10] [0, 0, 0] s).kAssignment ≠
      (iteration 2 3 2 [0, 10, 10] [0, 0, 0] s).kAssignment := by decide +kernel
  exact hdiffer (congrArg Clustering.kAssignment h)

end MpiApps.Kmeans
