/-
  MpiApps.Apps.HimenoSolver

  The Jacobi solver of `himenoBMTxps.c` on a grid of processes.

  Every process holds a block of the arrays, with one plane of each neighbour around it.  A
  sweep computes the inner points of the block, the three exchanges `sendp3`, `sendp2` and
  `sendp1` refresh the planes of the neighbours, and `MPI_Allreduce` adds up the residuals.

  What the program is for is a sweep over one array that nobody has cut (`sweep`).  Here is
  the step from it to the processes: an exchange completes the planes of the neighbours
  (`sendp_holds`), a sweep keeps the blocks parts of the whole array (`stepped_holds`), and
  so do all the sweeps of a run (`holds_after`).
-/

import MpiApps.Apps.Himeno
import MpiApps.Codec.Ieee

namespace MpiApps.HimenoSolver

open MpiApps.Codec MpiApps.Himeno MpiApps.MessagePassing MpiApps.Stores

/-! ## The code -/

/-- `float`, with the constants of the program. -/
class Arith (V : Type) extends Add V, Sub V, Mul V where
  zero : V
  one : V
  /-- `1.0/6.0` -/
  sixth : V
  /-- `0.8` -/
  omega : V
  /-- `(float)n / (float)d` -/
  quotient : Nat → Nat → V

instance : Arith Single where
  zero := 0
  one := .ofNat 1
  sixth := ⟨0x3E2AAAAB⟩
  omega := ⟨0x3F4CCCCD⟩
  quotient n d := .ofNat n / .ofNat d

-- 4/5 is the constant 0.8
example : (Arith.quotient 4 5 : Single) = Arith.omega := by decide +kernel

/-- The arrays that stay as `initmt` has filled them. -/
structure Coefficients (V : Type) where
  a : Nat → Nat → Nat → Nat → V
  b : Nat → Nat → Nat → Nat → V
  c : Nat → Nat → Nat → Nat → V
  bnd : Nat → Nat → Nat → V
  wrk1 : Nat → Nat → Nat → V

/-- What is sent: planes of `p` and, for `MPI_Allreduce`, residuals. -/
inductive Message (V : Type)
  | plane (xs : List V)
  | residual (x : V)

section Code

variable {V : Type} [Arith V]

/-- `s0` -/
def s0 (m : Coefficients V) (p : Nat → Nat → Nat → V) (i j k : Nat) : V :=
  m.a 0 i j k * p (i + 1) j k
    + m.a 1 i j k * p i (j + 1) k
    + m.a 2 i j k * p i j (k + 1)
    + m.b 0 i j k * (p (i + 1) (j + 1) k - p (i + 1) (j - 1) k
      - p (i - 1) (j + 1) k + p (i - 1) (j - 1) k)
    + m.b 1 i j k * (p i (j + 1) (k + 1) - p i (j - 1) (k + 1)
      - p i (j + 1) (k - 1) + p i (j - 1) (k - 1))
    + m.b 2 i j k * (p (i + 1) j (k + 1) - p (i - 1) j (k + 1)
      - p (i + 1) j (k - 1) + p (i - 1) j (k - 1))
    + m.c 0 i j k * p (i - 1) j k
    + m.c 1 i j k * p i (j - 1) k
    + m.c 2 i j k * p i j (k - 1)
    + m.wrk1 i j k

/-- `ss` -/
def ss (m : Coefficients V) (p : Nat → Nat → Nat → V) (i j k : Nat) : V :=
  (s0 m p i j k * m.a 3 i j k - p i j k) * m.bnd i j k

/-- `wrk2` -/
def wrk2 (m : Coefficients V) (p : Nat → Nat → Nat → V) (i j k : Nat) : V :=
  p i j k + Arith.omega * ss m p i j k

variable {g : Grid}

/-- `p[i][j][k]` -/
def entry (g : Grid) (p : Nat → V) (i j k : Nat) : V := p (address g i j k)

/-- The points of the loops from 1 to `imax-1`, `jmax-1` and `kmax-1`. -/
def innerPoints (c : Coords g) : List (Nat × Nat × Nat) :=
  (List.range' 1 (imax c - 2)).flatMap fun i =>
    (List.range' 1 (jmax c - 2)).flatMap fun j =>
      (List.range' 1 (kmax c - 2)).map fun k => (i, j, k)

/-- `wgosa` after the first loops. -/
def wgosa (m : Coefficients V) (c : Coords g) (p : Nat → V) : V :=
  (innerPoints c).foldl (fun w x =>
    w + ss m (entry g p) x.1 x.2.1 x.2.2 * ss m (entry g p) x.1 x.2.1 x.2.2) Arith.zero

/-- `p` after the second loops, which store `wrk2` at the inner points. -/
def stepped (m : Coefficients V) (c : Coords g) (p : Nat → V) : Nat → V :=
  storeAll p ((innerPoints c).map fun x =>
    (address g x.1 x.2.1 x.2.2, wrk2 m (entry g p) x.1 x.2.1 x.2.2))

/-- A receive of a vector type into `p`. -/
def storePlane (points : List Nat) (p : Nat → V) : Option (Message V) → Nat → V
  | some (.plane xs) => storeAll p (points.zip xs)
  | _ => p

variable {α : Type}

/-- `sendp3`, `sendp2` and `sendp1`: the plane next to a neighbour's goes to it, and its own
    comes back. -/
def sendpAlong (axis : Axis) (c : Coords g) (p : Nat → V)
    (k : (Nat → V) → Proc (Coords g) Nat (Message V) α) : Proc (Coords g) Nat (Message V) α :=
  (cartShift g axis).round c [(.down, 1), (.up, 2)]
    (fun d _ => .plane ((vectorPoints axis c (sentPlane axis c d)).map p)) fun ms =>
      let p := storePlane (vectorPoints axis c (ghostPlane axis c .down)) p (ms.getD 0 none)
      k (storePlane (vectorPoints axis c (ghostPlane axis c .up)) p (ms.getD 1 none))

/-- `if(ndz > 1) sendp3();` and the same for the other axes. -/
def sendpIf (axis : Axis) (c : Coords g) (p : Nat → V)
    (k : (Nat → V) → Proc (Coords g) Nat (Message V) α) : Proc (Coords g) Nat (Message V) α :=
  if 1 < (g.along axis).parts then sendpAlong axis c p k else k p

/-- `sendp`. -/
def sendp (c : Coords g) (p : Nat → V) (k : (Nat → V) → Proc (Coords g) Nat (Message V) α) :
    Proc (Coords g) Nat (Message V) α :=
  sendpIf .z c p fun p => sendpIf .y c p fun p => sendpIf .x c p k

/-- The processes in the order of their ranks. -/
def processes (g : Grid) : List (Coords g) :=
  (List.finRange g.x.parts).flatMap fun i => (List.finRange g.y.parts).flatMap fun j =>
    (List.finRange g.z.parts).map fun k => (i, j, k)

/-- The process with rank 0. -/
def rankZero (g : Grid) : Coords g := (⟨0, g.x.parts_pos⟩, ⟨0, g.y.parts_pos⟩, ⟨0, g.z.parts_pos⟩)

variable (sum : List V → V)

/-- `MPI_SUM` of the residuals; MPI adds them up in an order of its own. -/
def sumResiduals (ms : List (Message V)) : Message V :=
  .residual (sum (ms.filterMap fun
    | .residual x => some x
    | .plane _ => none))

/-- `jacobi(nn)`, up to what follows it; `gosa` has no value before the first sweep. -/
def jacobi (m : Coefficients V) (c : Coords g) :
    Nat → (Nat → V) → Option V → ((Nat → V) → Option V → Proc (Coords g) Nat (Message V) α) →
      Proc (Coords g) Nat (Message V) α
  | 0, p, gosa, k => k p gosa
  | n + 1, p, _, k =>
    sendp c (stepped m c p) fun q =>
      allreduce (processes g) (rankZero g) c 0 (sumResiduals sum) (.residual (wgosa m c p)) fun
        | .residual gosa => jacobi m c n q (some gosa) k
        | .plane _ => .abort

/-- `it`: the index in the whole array of the first plane of a process. -/
def firstPlane (a : Partition) (i : Nat) : Nat :=
  if i = 0 then mx1 (a.size - 1) a.parts i else mx1 (a.size - 1) a.parts i - 1

/-- The arrays are filled as far as the block of a process goes. -/
def inBlock (c : Coords g) (inside outside : V) (i j k : Nat) : V :=
  if i < imax c ∧ j < jmax c ∧ k < kmax c then inside else outside

/-- `initmt` for the arrays that stay. -/
def initCoefficients (c : Coords g) : Coefficients V where
  a n := inBlock c (if n = 3 then Arith.sixth else Arith.one) Arith.zero
  b _ := inBlock c Arith.zero Arith.zero
  c _ := inBlock c Arith.one Arith.zero
  bnd := inBlock c Arith.one Arith.zero
  wrk1 := inBlock c Arith.zero Arith.zero

/-- `p` from `initmt`, at an address of the array. -/
def initPressure (c : Coords g) (x : Nat) : V :=
  let i := x / (g.y.max * g.z.max)
  let it := firstPlane g.x c.1
  let mx := g.x.size - 1
  inBlock c (Arith.quotient ((i + it) * (i + it)) ((mx - 1) * (mx - 1))) Arith.zero
    i (x / g.z.max % g.y.max) (x % g.z.max)

/-- `main` at a process: three sweeps for the rehearsal, then `nn` more. -/
def main (nn : Nat) (c : Coords g) :
    Proc (Coords g) Nat (Message V) ((Nat → V) × Option V) :=
  let m := initCoefficients c
  jacobi sum m c 3 (initPressure c) none fun p _ =>
    jacobi sum m c nn p none fun p gosa => .ret (p, gosa)

end Code


/-! ## Cutting an axis -/

section Cut

theorem mx1_eq (m nd i : Nat) : mx1 m nd i = i * (m / nd) + min i (m % nd) := by
  induction i with
  | zero => simp [mx1]
  | succ i ih =>
      rw [mx1, ih, Nat.succ_mul]
      split <;> omega

variable (a : Partition)

/-- Where the layers begin that are a process' own. -/
def cut (i : Nat) : Nat := mx1 (a.size - 1) a.parts i

@[simp] theorem cut_zero : cut a 0 = 0 := rfl

/-- The processes have all the layers. -/
theorem cut_parts : cut a a.parts = a.size - 1 := by
  have hmod := Nat.mod_lt (a.size - 1) a.parts_pos
  have hdiv := Nat.div_add_mod (a.size - 1) a.parts
  rw [cut, mx1_eq, Nat.min_eq_right hmod.le]
  exact hdiv

theorem cut_lt_succ (i : Nat) : cut a i < cut a (i + 1) := by
  have hown := a.own_pos
  rw [cut, cut, mx1_eq, mx1_eq, Nat.succ_mul]
  omega

theorem cut_strictMono : StrictMono (cut a) := strictMono_nat_of_lt_succ (cut_lt_succ a)

theorem cut_lt_size {i : Nat} (hi : i < a.parts) : cut a i < a.size - 1 :=
  (cut_strictMono a hi).trans_eq (cut_parts a)

theorem firstPlane_eq (i : Nat) : firstPlane a i = if i = 0 then 0 else cut a i - 1 := by
  rw [firstPlane]
  split
  · next hi => rw [hi]; rfl
  · rfl

/-- The layers of a process: its own, and one more for each neighbour. -/
theorem extent_eq (i : Fin a.parts) :
    a.extent i = cut a (i + 1) - cut a i + (if (i : Nat) = 0 then 0 else 1) +
      if (i : Nat) = a.parts - 1 then 0 else 1 := by
  simp only [Partition.extent, mx2, cut, ne_eq, ite_not]
  split <;> split <;> rfl

/-- In front of its own layers a process has one of its neighbour. -/
theorem firstPlane_add (i : Nat) : firstPlane a i + (if i = 0 then 0 else 1) = cut a i := by
  rw [firstPlane_eq]
  by_cases hi : i = 0
  · rw [if_pos hi, if_pos hi, hi, cut_zero]
  · have hpos : cut a 0 < cut a i := cut_strictMono a (Nat.pos_of_ne_zero hi)
    rw [if_neg hi, if_neg hi]
    omega

/-- Behind the last layer of a process: the end of the axis, or the neighbour's second
    layer. -/
theorem firstPlane_add_extent (i : Fin a.parts) :
    firstPlane a i + a.extent i =
      if (i : Nat) = a.parts - 1 then a.size - 1 else cut a (i + 1) + 1 := by
  have hlt := cut_lt_succ a i
  have hfirst := firstPlane_add a i
  rw [extent_eq]
  by_cases hl : (i : Nat) = a.parts - 1
  · have hsucc : (i : Nat) + 1 = a.parts := by omega
    have hcut := cut_parts a
    rw [if_pos hl, if_pos hl]
    rw [hsucc] at hlt ⊢
    omega
  · rw [if_neg hl, if_neg hl]
    omega

end Cut

/-! ## An exchange -/

section Exchange

variable {V : Type} {g : Grid} {axis : Axis}

/-- The points `a, b` of a plane that the vector type runs through; `ijvec` has rows of
    `MJMAX` points. -/
def vectorPairs (axis : Axis) (c : Coords g) : List (Nat × Nat) :=
  match axis with
  | .z => (List.range (imax c * jmax c)).map fun n => (n / g.y.max, n % g.y.max)
  | axis => (List.range (planeSize axis c).1).flatMap fun a =>
      (List.range (planeSize axis c).2).map fun b => (a, b)

theorem map_pairs {β : Type} (m n : Nat) (f : Nat → Nat → β) :
    ((List.range m).flatMap fun a => (List.range n).map fun b => (a, b)).map
      (fun ab => f ab.1 ab.2) =
      (List.range m).flatMap fun a => (List.range n).map fun b => f a b := by
  rw [List.map_flatMap]
  exact congrArg (List.range m).flatMap (funext fun a => List.map_map ..)

theorem vectorPoints_eq (axis : Axis) (c : Coords g) (v : Nat) :
    vectorPoints axis c v = (vectorPairs axis c).map fun ab => planeAddress g axis v ab.1 ab.2 := by
  cases axis with
  | x => exact (vectorPoints_x c v).trans (map_pairs _ _ fun a b => address g v a b).symm
  | y => exact (vectorPoints_y c v).trans (map_pairs _ _ fun a b => address g a v b).symm
  | z =>
      rw [vectorPoints_z, vectorPairs, List.map_map]
      refine List.map_congr_left fun n _ => ?_
      show n * g.z.max + v = (n / g.y.max * g.y.max + n % g.y.max) * g.z.max + v
      rw [Nat.div_add_mod']

theorem mem_vectorPairs_z {c : Coords g} {a b : Nat} (hb : b < jmax c) :
    (a, b) ∈ vectorPairs .z c ↔ a * g.y.max + b < imax c * jmax c := by
  have hb' : b < g.y.max := Nat.lt_of_lt_of_le hb (jmax_le c)
  have hpos : 0 < g.y.max := Nat.lt_of_le_of_lt (Nat.zero_le b) hb'
  simp only [vectorPairs, List.mem_map, List.mem_range, Prod.mk.injEq]
  constructor
  · rintro ⟨n, hn, rfl, rfl⟩
    rwa [Nat.div_add_mod']
  · intro h
    refine ⟨a * g.y.max + b, h, ?_, Nat.mul_add_mod_of_lt hb'⟩
    rw [Nat.mul_comm, Nat.mul_add_div hpos, Nat.div_eq_of_lt hb', Nat.add_zero]

/-- Along the other axes it runs through the whole plane. -/
theorem mem_vectorPairs_of_ne (haxis : axis ≠ .z) {c : Coords g} {a b : Nat}
    (ha : a < (planeSize axis c).1) (hb : b < (planeSize axis c).2) :
    (a, b) ∈ vectorPairs axis c := by
  cases axis with
  | z => exact absurd rfl haxis
  | x => exact List.mem_flatMap.mpr ⟨a, List.mem_range.mpr ha,
      List.mem_map.mpr ⟨b, List.mem_range.mpr hb, rfl⟩⟩
  | y => exact List.mem_flatMap.mpr ⟨a, List.mem_range.mpr ha,
      List.mem_map.mpr ⟨b, List.mem_range.mpr hb, rfl⟩⟩

theorem source_vectorPairs {c s : Coords g} {d : Dir}
    (h : (cartShift g axis).source c d = some s) : vectorPairs axis s = vectorPairs axis c := by
  cases axis <;> cases d <;>
    · obtain ⟨j, _, rfl⟩ := Option.map_eq_some_iff.mp h
      rfl

/-- The vector type for a plane runs through points of this plane only. -/
theorem mem_vectorPoints_iff {c : Coords g} {v v' a b : Nat} (hv : v < depth axis c)
    (ha : a < (planeSize axis c).1) (hb : b < (planeSize axis c).2) (hv' : v' < depth axis c) :
    planeAddress g axis v a b ∈ vectorPoints axis c v' ↔ v = v' ∧ (a, b) ∈ vectorPairs axis c := by
  rw [vectorPoints_eq, List.mem_map]
  constructor
  · rintro ⟨⟨a', b'⟩, hab', heq⟩
    suffices h : v' = v ∧ a' = a ∧ b' = b by
      obtain ⟨rfl, rfl, rfl⟩ := h
      exact ⟨rfl, hab'⟩
    cases axis with
    | z =>
        -- the rows of `ijvec` may be those of other points than the plane's
        obtain ⟨n, _, hn⟩ := List.mem_map.mp hab'
        obtain ⟨rfl, rfl⟩ := Prod.mk.inj hn
        have hk := kmax_le c
        have hbj : b < g.y.max := Nat.lt_of_lt_of_le hb (jmax_le c)
        have hmod : n % g.y.max < g.y.max := Nat.mod_lt n (Nat.lt_of_le_of_lt (Nat.zero_le b) hbj)
        obtain ⟨h1, h2, h3⟩ := address_inj hmod (Nat.lt_of_lt_of_le hv' hk) hbj
          (Nat.lt_of_lt_of_le hv hk) heq
        exact ⟨h3, h1, h2⟩
    | x =>
        obtain ⟨x, hx, hmem⟩ := List.mem_flatMap.mp hab'
        obtain ⟨y, hy, hxy⟩ := List.mem_map.mp hmem
        obtain ⟨rfl, rfl⟩ := Prod.mk.inj hxy
        exact planeAddress_inj hv' (List.mem_range.mp hx) (List.mem_range.mp hy) hv ha hb heq
    | y =>
        obtain ⟨x, hx, hmem⟩ := List.mem_flatMap.mp hab'
        obtain ⟨y, hy, hxy⟩ := List.mem_map.mp hmem
        obtain ⟨rfl, rfl⟩ := Prod.mk.inj hxy
        exact planeAddress_inj hv' (List.mem_range.mp hx) (List.mem_range.mp hy) hv ha hb heq
  · rintro ⟨rfl, hab⟩
    exact ⟨(a, b), hab, rfl⟩

/-- What comes from the neighbours. -/
def came (axis : Axis) (p : Coords g → Nat → V) (c : Coords g) (d : Dir) : Option (List V) :=
  ((cartShift g axis).source c d).map fun s => (vectorPoints axis s (sentPlane axis s d)).map (p s)

/-- `p` of a process after `sendp3`, `sendp2` or `sendp1`. -/
def exchanged (axis : Axis) (p : Coords g → Nat → V) (c : Coords g) : Nat → V :=
  storeAll (p c) (storesFor (ghostVector axis c) (came axis p c) .down ++
    storesFor (ghostVector axis c) (came axis p c) .up)

theorem storePlane_eq (area : Dir → List Nat) (came : Dir → Option (List V)) (d : Dir)
    (p : Nat → V) :
    storePlane (area d) p ((came d).map .plane) = storeAll p (storesFor area came d) := by
  cases h : came d with
  | none =>
      rw [storesFor_of_none h]
      rfl
  | some vs =>
      rw [storesFor_of_some h]
      rfl

theorem reaches_sendpAlong {α : Type} (axis : Axis) (p : Coords g → Nat → V)
    (k : Coords g → (Nat → V) → Proc (Coords g) Nat (Message V) α) :
    Reaches (fun c => sendpAlong axis c (p c) (k c)) fun c => k c (exchanged axis p c) := by
  have hround := (cartShift g axis).reaches_round [(.down, 1), (.up, 2)]
    (fun c d _ => Message.plane ((vectorPoints axis c (sentPlane axis c d)).map (p c)))
    fun c ms =>
      let p := storePlane (vectorPoints axis c (ghostPlane axis c .down)) (p c) (ms.getD 0 none)
      k c (storePlane (vectorPoints axis c (ghostPlane axis c .up)) p (ms.getD 1 none))
  refine cast (congrArg (MessagePassing.Reaches _) (funext fun c => ?_)) hround
  have hcame : ∀ d, (((cartShift g axis).source c d).map fun s =>
      Message.plane ((vectorPoints axis s (sentPlane axis s d)).map (p s))) =
        (came axis p c d).map .plane := by
    intro d
    rw [came, Option.map_map]
    rfl
  have hstore := storePlane_eq (ghostVector axis c) (came axis p c)
  simp only [ghostVector] at hstore
  simp only [Neighbours.arrivals, List.map_cons, List.map_nil, List.getD_cons_zero,
    List.getD_cons_succ, hcame, hstore, exchanged, storeAll_append]

theorem exchanged_refreshed (hparts : 1 < (g.along axis).parts) (p : Coords g → Nat → V)
    (c : Coords g) : Refreshed (ghostVector axis c) (came axis p c) (p c) (exchanged axis p c) := by
  refine refreshed_storeAll (fun d => ?_) (ghostVector_nodup hparts c .down)
    (ghostVector_nodup hparts c .up) (ghostVector_disjoint hparts c Dir.noConfusion)
    (fun d vs h => ?_) (.refl _) (p c)
  · cases d <;> simp
  · obtain ⟨s, hs, rfl⟩ := Option.map_eq_some_iff.mp h
    rw [ghostVector, List.length_map, vectorPoints_length, vectorPoints_length,
      source_planeSize hs]

/-- A layer that no neighbour has sent. -/
def Own (axis : Axis) (c : Coords g) (v : Nat) : Prop :=
  ∀ d s, (cartShift g axis).source c d = some s → v ≠ ghostPlane axis c d

/-- Points of the neighbours' planes become what the neighbours have there. -/
theorem exchanged_ghost (hparts : 1 < (g.along axis).parts) (p : Coords g → Nat → V)
    {c s : Coords g} {d : Dir} (hs : (cartShift g axis).source c d = some s) {a b : Nat}
    (hab : (a, b) ∈ vectorPairs axis c) :
    exchanged axis p c (planeAddress g axis (ghostPlane axis c d) a b) =
      p s (planeAddress g axis (sentPlane axis s d) a b) := by
  have hcame : came axis p c d =
      some ((vectorPoints axis s (sentPlane axis s d)).map (p s)) := by
    rw [came, hs]
    rfl
  have hstored := (exchanged_refreshed hparts p c).stored d _ hcame
  rw [ghostVector, vectorPoints_eq, vectorPoints_eq, source_vectorPairs hs, List.map_map,
    List.map_map] at hstored
  exact List.map_inj_left.mp hstored (a, b) hab

/-- All other points of the block keep what they have. -/
theorem exchanged_kept (hparts : 1 < (g.along axis).parts) (p : Coords g → Nat → V)
    {c : Coords g} {v a b : Nat} (hv : v < depth axis c) (ha : a < (planeSize axis c).1)
    (hb : b < (planeSize axis c).2) (h : Own axis c v ∨ (a, b) ∉ vectorPairs axis c) :
    exchanged axis p c (planeAddress g axis v a b) = p c (planeAddress g axis v a b) := by
  refine (exchanged_refreshed hparts p c).kept _ fun d => ?_
  cases hs : (cartShift g axis).source c d with
  | none =>
      left
      rw [came, hs]
      rfl
  | some s =>
      right
      rw [ghostVector, mem_vectorPoints_iff hv ha hb (ghostPlane_lt hparts c d)]
      rintro ⟨hghost, hpair⟩
      rcases h with hown | hnot
      · exact hown d s hs hghost
      · exact hnot hpair

end Exchange

/-! ## The whole array -/

section Whole

variable {V : Type} {g : Grid} {axis : Axis}

/-- The index in the whole array of the first layer of a process. -/
def first (axis : Axis) (c : Coords g) : Nat := firstPlane (g.along axis) (coord axis c)

/-- A process has its part of the whole array `P`. -/
def Holds (P : Nat → Nat → Nat → V) (c : Coords g) (q : Nat → Nat → Nat → V) : Prop :=
  ∀ i j k, i < imax c → j < jmax c → k < kmax c →
    q i j k = P (first .x c + i) (first .y c + j) (first .z c + k)

/-- The same for the arrays that stay. -/
structure CoefficientsHold (M : Coefficients V) (r : Coords g) (m : Coefficients V) : Prop where
  a : ∀ n < 4, Holds (M.a n) r (m.a n)
  b : ∀ n < 3, Holds (M.b n) r (m.b n)
  c : ∀ n < 3, Holds (M.c n) r (m.c n)
  bnd : Holds M.bnd r m.bnd
  wrk1 : Holds M.wrk1 r m.wrk1

/-- The layers of the whole array that are computed along an axis. -/
def InnerAlong (a : Partition) (v : Nat) : Prop := 1 ≤ v ∧ v + 1 < a.size - 1

instance (a : Partition) (v : Nat) : Decidable (InnerAlong a v) :=
  inferInstanceAs (Decidable (_ ∧ _))

/-- The points that are computed. -/
def Inner (g : Grid) (i j k : Nat) : Prop := InnerAlong g.x i ∧ InnerAlong g.y j ∧ InnerAlong g.z k

instance (g : Grid) (i j k : Nat) : Decidable (Inner g i j k) :=
  inferInstanceAs (Decidable (_ ∧ _ ∧ _))

/-- A sweep over the whole array. -/
def sweep [Arith V] (g : Grid) (M : Coefficients V) (P : Nat → Nat → Nat → V) (i j k : Nat) : V :=
  if Inner g i j k then wrk2 M P i j k else P i j k

/-- The value of the whole array at a point of a process. -/
def planeValue (P : Nat → Nat → Nat → V) (axis : Axis) (c : Coords g) (v a b : Nat) : V :=
  match axis with
  | .x => P (first .x c + v) (first .y c + a) (first .z c + b)
  | .y => P (first .x c + a) (first .y c + v) (first .z c + b)
  | .z => P (first .x c + a) (first .y c + b) (first .z c + v)

/-! ### Neighbours -/

theorem source_down {c s : Coords g} (h : (cartShift g axis).source c .down = some s) :
    (coord axis c : Nat) + 1 = coord axis s := by
  cases axis <;>
    · obtain ⟨j, hj, rfl⟩ := Option.map_eq_some_iff.mp h
      simp only [above] at hj
      split at hj
      · exact congrArg Fin.val (Option.some.inj hj)
      · cases hj

theorem source_up {c s : Coords g} (h : (cartShift g axis).source c .up = some s) :
    (coord axis s : Nat) + 1 = coord axis c := by
  cases axis <;>
    · obtain ⟨j, hj, rfl⟩ := Option.map_eq_some_iff.mp h
      simp only [below] at hj
      split at hj
      · next hpos => rw [← Option.some.inj hj]; exact Nat.sub_add_cancel hpos
      · cases hj

theorem exists_source_down {c : Coords g} (h : (coord axis c : Nat) ≠ (g.along axis).parts - 1) :
    ∃ s, (cartShift g axis).source c .down = some s :=
  source_down_of_above (dif_pos (by omega))

theorem exists_source_up {c : Coords g} (h : (coord axis c : Nat) ≠ 0) :
    ∃ s, (cartShift g axis).source c .up = some s :=
  source_up_of_below (if_pos (Nat.pos_of_ne_zero h))

/-- Neighbours mean the same layer of the whole array. -/
theorem first_add_ghostPlane (hparts : 1 < (g.along axis).parts) {c s : Coords g} {d : Dir}
    (h : (cartShift g axis).source c d = some s) :
    first axis c + ghostPlane axis c d = first axis s + sentPlane axis s d := by
  have hc := firstPlane_add_extent (g.along axis) (coord axis c)
  have hs := firstPlane_add_extent (g.along axis) (coord axis s)
  have hc' := firstPlane_add (g.along axis) (coord axis c)
  have hs' := firstPlane_add (g.along axis) (coord axis s)
  have htc := two_le_depth hparts c
  have hts := two_le_depth hparts s
  have hlc := (coord axis c).isLt
  have hls := (coord axis s).isLt
  rw [← depth_eq] at hc hs
  cases d with
  | down =>
      have hsucc := source_down h
      rw [if_neg (by omega), hsucc] at hc
      rw [if_neg (by omega)] at hs'
      simp only [first, ghostPlane, sentPlane]
      omega
  | up =>
      have hsucc := source_up h
      rw [if_neg (by omega), hsucc] at hs
      rw [if_neg (by omega)] at hc'
      simp only [first, ghostPlane, sentPlane]
      omega

/-- What a process sends is its own. -/
theorem own_sentPlane (hparts : 1 < (g.along axis).parts) {c s : Coords g} {d : Dir}
    (h : (cartShift g axis).source c d = some s) : Own axis s (sentPlane axis s d) := by
  intro d' s' h'
  have htwo := two_le_depth hparts s
  have hext := extent_eq (g.along axis) (coord axis s)
  have hlt := cut_lt_succ (g.along axis) (coord axis s)
  have hlc := (coord axis c).isLt
  have hls' := (coord axis s').isLt
  rw [← depth_eq] at hext
  cases d with
  | down =>
      have hc := source_down h
      cases d' with
      | down =>
          -- a neighbour on either side, so three layers at least
          have hs' := source_down h'
          rw [if_neg (by omega), if_neg (by omega)] at hext
          simp only [sentPlane, ghostPlane]
          omega
      | up => exact Nat.one_ne_zero
  | up =>
      have hc := source_up h
      cases d' with
      | down =>
          simp only [sentPlane, ghostPlane]
          omega
      | up =>
          have hs' := source_up h'
          rw [if_neg (by omega), if_neg (by omega)] at hext
          simp only [sentPlane, ghostPlane]
          omega

theorem planeValue_source {P : Nat → Nat → Nat → V} {c s : Coords g} {d : Dir} {v w : Nat}
    (h : (cartShift g axis).source c d = some s) (hv : first axis c + v = first axis s + w)
    (a b : Nat) : planeValue P axis c v a b = planeValue P axis s w a b := by
  cases axis <;> cases d <;>
    · obtain ⟨j, _, rfl⟩ := Option.map_eq_some_iff.mp h
      simp only [planeValue]
      rw [hv]
      rfl

/-! ### Own layers -/

theorem innerAlong_of_inner {c : Coords g} {v : Nat} (hv : 1 ≤ v) (hv' : v + 1 < depth axis c) :
    InnerAlong (g.along axis) (first axis c + v) := by
  have hadd := firstPlane_add_extent (g.along axis) (coord axis c)
  have hlt := (coord axis c).isLt
  rw [depth_eq] at hv'
  simp only [first, InnerAlong]
  split at hadd
  · omega
  · have hcut := cut_lt_size (g.along axis) (i := (coord axis c : Nat) + 1) (by omega)
    omega

/-- A process' own layer that it does not compute is at the end of the axis. -/
theorem inner_of_own {c : Coords g} {v : Nat} (hv : v < depth axis c) (hown : Own axis c v)
    (hin : InnerAlong (g.along axis) (first axis c + v)) : 1 ≤ v ∧ v + 1 < depth axis c := by
  have hadd := firstPlane_add_extent (g.along axis) (coord axis c)
  have hfirst := firstPlane_eq (g.along axis) (coord axis c)
  rw [← depth_eq] at hadd
  simp only [first, InnerAlong] at hin
  constructor
  · by_contra hzero
    by_cases hc : (coord axis c : Nat) = 0
    · rw [if_pos hc] at hfirst
      omega
    · obtain ⟨s, hs⟩ := exists_source_up hc
      exact hown .up s hs (by simp only [ghostPlane]; omega)
  · by_contra hlast
    by_cases hc : (coord axis c : Nat) = (g.along axis).parts - 1
    · rw [if_pos hc] at hadd
      omega
    · obtain ⟨s, hs⟩ := exists_source_down hc
      exact hown .down s hs (by simp only [ghostPlane]; omega)

end Whole

/-! ## The exchanges together -/

section Refresh

variable {V : Type} {g : Grid} {axis : Axis} {P : Nat → Nat → Nat → V}

/-- An exchange completes the planes of the points `T`, if the processes have the whole array
    in the layers of their own, and at the points which the vector type leaves out. -/
theorem exchanged_holds (hparts : 1 < (g.along axis).parts) {p : Coords g → Nat → V}
    {T : Coords g → Nat → Nat → Prop}
    (hT : ∀ c s d a b, (cartShift g axis).source c d = some s → T c a b → T s a b)
    (hp : ∀ c v a b, v < depth axis c → a < (planeSize axis c).1 → b < (planeSize axis c).2 →
      T c a b → (Own axis c v ∨ (a, b) ∉ vectorPairs axis c) →
        p c (planeAddress g axis v a b) = planeValue P axis c v a b)
    {c : Coords g} {v a b : Nat} (hv : v < depth axis c) (ha : a < (planeSize axis c).1)
    (hb : b < (planeSize axis c).2) (hab : T c a b) :
    exchanged axis p c (planeAddress g axis v a b) = planeValue P axis c v a b := by
  by_cases h : Own axis c v ∨ (a, b) ∉ vectorPairs axis c
  · rw [exchanged_kept hparts p hv ha hb h]
    exact hp c v a b hv ha hb hab h
  · obtain ⟨hown, hpair⟩ := not_or.mp h
    simp only [Own, not_forall, not_not] at hown
    obtain ⟨d, s, hs, rfl⟩ := hown
    have hsize := source_planeSize hs
    rw [exchanged_ghost hparts p hs (not_not.mp hpair),
      planeValue_source hs (first_add_ghostPlane hparts hs)]
    exact hp s _ a b (sentPlane_lt hparts s d) (by rwa [hsize]) (by rwa [hsize])
      (hT c s d a b hs hab) (.inl (own_sentPlane hparts hs))

/-- `p` of a process after `sendpIf`. -/
def refreshed (axis : Axis) (p : Coords g → Nat → V) (c : Coords g) : Nat → V :=
  if 1 < (g.along axis).parts then exchanged axis p c else p c

theorem reaches_sendpIf {α : Type} (axis : Axis) (p : Coords g → Nat → V)
    (k : Coords g → (Nat → V) → Proc (Coords g) Nat (Message V) α) :
    Reaches (fun c => sendpIf axis c (p c) (k c)) fun c => k c (refreshed axis p c) := by
  by_cases hparts : 1 < (g.along axis).parts
  · simp only [sendpIf, refreshed, if_pos hparts]
    exact reaches_sendpAlong axis p k
  · simp only [sendpIf, refreshed, if_neg hparts]
    exact .refl _

theorem own_of_one_part (hparts : ¬ 1 < (g.along axis).parts) (c : Coords g) (v : Nat) :
    Own axis c v := by
  intro d s hs
  have hc := (coord axis c).isLt
  have hs' := (coord axis s).isLt
  cases d with
  | down =>
      have := source_down hs
      omega
  | up =>
      have := source_up hs
      omega

theorem refreshed_holds (axis : Axis) {p : Coords g → Nat → V} {T : Coords g → Nat → Nat → Prop}
    (hT : ∀ c s d a b, (cartShift g axis).source c d = some s → T c a b → T s a b)
    (hp : ∀ c v a b, v < depth axis c → a < (planeSize axis c).1 → b < (planeSize axis c).2 →
      T c a b → (Own axis c v ∨ (1 < (g.along axis).parts ∧ (a, b) ∉ vectorPairs axis c)) →
        p c (planeAddress g axis v a b) = planeValue P axis c v a b)
    {c : Coords g} {v a b : Nat} (hv : v < depth axis c) (ha : a < (planeSize axis c).1)
    (hb : b < (planeSize axis c).2) (hab : T c a b) :
    refreshed axis p c (planeAddress g axis v a b) = planeValue P axis c v a b := by
  rw [refreshed]
  split
  · next hparts =>
      exact exchanged_holds hparts hT
        (fun c v a b hv ha hb hab h => hp c v a b hv ha hb hab (h.imp_right fun h => ⟨hparts, h⟩))
        hv ha hb hab
  · next hparts => exact hp c v a b hv ha hb hab (.inl (own_of_one_part hparts c v))

/-- `ijvec` reaches the points of a process' own that are computed. -/
def Reached (g : Grid) : Prop :=
  1 < g.z.parts → ∀ (c : Coords g) (i j : Nat), i < imax c → j < jmax c → Own .x c i → Own .y c j →
    InnerAlong g.x (first .x c + i) → InnerAlong g.y (first .y c + j) →
      i * g.y.max + j < imax c * jmax c

theorem own_iff (c : Coords g) (v : Nat) : Own axis c v ↔
    ((coord axis c : Nat) ≠ (g.along axis).parts - 1 →
        v ≠ (g.along axis).extent (coord axis c) - 1) ∧
      ((coord axis c : Nat) ≠ 0 → v ≠ 0) := by
  constructor
  · intro h
    constructor
    · intro hc
      obtain ⟨s, hs⟩ := exists_source_down hc
      rw [← depth_eq]
      exact h .down s hs
    · intro hc
      obtain ⟨s, hs⟩ := exists_source_up hc
      exact h .up s hs
  · rintro ⟨hdown, hup⟩ d s hs
    have hlt := (coord axis s).isLt
    cases d with
    | down =>
        have hsucc := source_down hs
        rw [ghostPlane, depth_eq]
        exact hdown (by omega)
    | up =>
        have hsucc := source_up hs
        exact hup (by omega)

/-- A neighbour along one axis has the same place along the others. -/
theorem source_coord {axis' : Axis} (hne : axis' ≠ axis) {c s : Coords g} {d : Dir}
    (h : (cartShift g axis).source c d = some s) : coord axis' s = coord axis' c := by
  cases axis <;> cases axis' <;> first
    | exact absurd rfl hne
    | cases d <;>
      · obtain ⟨j, _, rfl⟩ := Option.map_eq_some_iff.mp h
        rfl

theorem source_own {axis' : Axis} (hne : axis' ≠ axis) {c s : Coords g} {d : Dir}
    (h : (cartShift g axis).source c d = some s) (v : Nat) :
    Own axis' s v ↔ Own axis' c v := by
  rw [own_iff, own_iff, source_coord hne h]

theorem source_first {axis' : Axis} (hne : axis' ≠ axis) {c s : Coords g} {d : Dir}
    (h : (cartShift g axis).source c d = some s) : first axis' s = first axis' c := by
  rw [first, first, source_coord hne h]

/-- After the three exchanges the processes have the whole array, if they had it in the
    points of their own and where nothing is computed. -/
theorem sendp_holds (hreach : Reached g) {p : Coords g → Nat → V}
    (hp : ∀ (c : Coords g) (i j k : Nat), i < imax c → j < jmax c → k < kmax c →
      (Own .x c i ∧ Own .y c j ∧ Own .z c k ∨
        ¬ Inner g (first .x c + i) (first .y c + j) (first .z c + k)) →
      p c (address g i j k) = P (first .x c + i) (first .y c + j) (first .z c + k))
    (c : Coords g) : Holds P c (entry g (refreshed .x (refreshed .y (refreshed .z p)) c)) := by
  let settled (c : Coords g) (i j : Nat) : Prop := Own .x c i ∧ Own .y c j ∨
    ¬ (InnerAlong g.x (first .x c + i) ∧ InnerAlong g.y (first .y c + j))
  let settledX (c : Coords g) (i : Nat) : Prop := Own .x c i ∨ ¬ InnerAlong g.x (first .x c + i)
  -- along z the planes of the neighbours, but not yet their edges
  have hz : ∀ (c : Coords g) (k i j : Nat), k < kmax c → i < imax c → j < jmax c →
      settled c i j → refreshed .z p c (planeAddress g .z k i j) = planeValue P .z c k i j := by
    intro c k i j hk hi hj h
    refine refreshed_holds .z (T := settled) (fun c s d i j hs h => ?_)
      (fun c k i j hk hi hj h hown => hp c i j k hi hj hk ?_) hk hi hj h
    · have hx : Axis.x ≠ .z := Axis.noConfusion
      have hy : Axis.y ≠ .z := Axis.noConfusion
      simpa only [settled, source_own hx hs, source_own hy hs, source_first hx hs,
        source_first hy hs] using h
    · rcases h with ⟨hx, hy⟩ | hedge
      · rcases hown with hz | ⟨hparts, hpair⟩
        · exact .inl ⟨hx, hy, hz⟩
        · -- what the vector type leaves out is not computed
          rw [mem_vectorPairs_z hj] at hpair
          exact .inr fun hin => hpair (hreach hparts c i j hi hj hx hy hin.1 hin.2.1)
      · exact .inr fun hin => hedge ⟨hin.1, hin.2.1⟩
  have hy : ∀ (c : Coords g) (j i k : Nat), j < jmax c → i < imax c → k < kmax c →
      settledX c i → refreshed .y (refreshed .z p) c (planeAddress g .y j i k) =
        planeValue P .y c j i k := by
    intro c j i k hj hi hk h
    refine refreshed_holds .y (T := fun c i _ => settledX c i) (fun c s d i k hs h => ?_)
      (fun c j i k hj hi hk h hown => hz c k i j hk hi hj ?_) hj hi hk h
    · have hx : Axis.x ≠ .y := Axis.noConfusion
      simpa only [settledX, source_own hx hs, source_first hx hs] using h
    · rcases hown with hy | ⟨_, hpair⟩
      · exact h.imp (fun hx => ⟨hx, hy⟩) fun hedge hin => hedge hin.1
      · exact absurd (mem_vectorPairs_of_ne Axis.noConfusion hi hk) hpair
  intro i j k hi hj hk
  refine refreshed_holds .x (T := fun _ _ _ => True) (fun _ _ _ _ _ _ _ => trivial)
    (fun c i j k hi hj hk _ hown => hy c j i k hj hi hk ?_) hi hj hk trivial
  rcases hown with hx | ⟨_, hpair⟩
  · exact .inl hx
  · exact absurd (mem_vectorPairs_of_ne Axis.noConfusion hj hk) hpair

end Refresh

/-! ## A sweep -/

section Sweep

variable {V : Type} [Arith V] {g : Grid} {P : Nat → Nat → Nat → V} {M m : Coefficients V}

/-- The layers that a process computes along an axis. -/
def LocalInner (axis : Axis) (c : Coords g) (v : Nat) : Prop := 1 ≤ v ∧ v + 1 < depth axis c

theorem mem_range'_inner {n v : Nat} : v ∈ List.range' 1 (n - 2) ↔ 1 ≤ v ∧ v + 1 < n := by
  rw [List.mem_range'_1]
  omega

theorem mem_innerPoints {c : Coords g} {x : Nat × Nat × Nat} : x ∈ innerPoints c ↔
    LocalInner .x c x.1 ∧ LocalInner .y c x.2.1 ∧ LocalInner .z c x.2.2 := by
  obtain ⟨i, j, k⟩ := x
  simp only [innerPoints, List.mem_flatMap, List.mem_map, mem_range'_inner, Prod.mk.injEq]
  constructor
  · rintro ⟨i', hi, j', hj, k', hk, rfl, rfl, rfl⟩
    exact ⟨hi, hj, hk⟩
  · rintro ⟨hi, hj, hk⟩
    exact ⟨i, hi, j, hj, k, hk, rfl, rfl, rfl⟩

theorem innerPoints_nodup (c : Coords g) : (innerPoints c).Nodup := by
  have hrange : ∀ n, (List.range' 1 n).Nodup := fun n => List.nodup_range'
  refine List.nodup_flatMap.mpr ⟨fun i _ => List.nodup_flatMap.mpr ⟨fun j _ => ?_, ?_⟩, ?_⟩
  · exact (hrange _).map fun k k' h => (Prod.mk.inj (Prod.mk.inj h).2).2
  · refine (hrange _).pairwise_of_forall_ne fun j _ j' _ hne => ?_
    rw [Function.onFun, List.disjoint_left]
    intro x hx hx'
    obtain ⟨k, _, rfl⟩ := List.mem_map.mp hx
    obtain ⟨k', _, h⟩ := List.mem_map.mp hx'
    exact hne (Prod.mk.inj (Prod.mk.inj h).2).1.symm
  · refine (hrange _).pairwise_of_forall_ne fun i _ i' _ hne => ?_
    rw [Function.onFun, List.disjoint_left]
    intro x hx hx'
    obtain ⟨j, _, hj⟩ := List.mem_flatMap.mp hx
    obtain ⟨k, _, rfl⟩ := List.mem_map.mp hj
    obtain ⟨j', _, hj'⟩ := List.mem_flatMap.mp hx'
    obtain ⟨k', _, h⟩ := List.mem_map.mp hj'
    exact hne (Prod.mk.inj h).1.symm

theorem address_inj_block {c : Coords g} {i j k i' j' k' : Nat} (hj : j < jmax c) (hk : k < kmax c)
    (hj' : j' < jmax c) (hk' : k' < kmax c) (h : address g i j k = address g i' j' k') :
    i = i' ∧ j = j' ∧ k = k' :=
  address_inj (Nat.lt_of_lt_of_le hj (jmax_le c)) (Nat.lt_of_lt_of_le hk (kmax_le c))
    (Nat.lt_of_lt_of_le hj' (jmax_le c)) (Nat.lt_of_lt_of_le hk' (kmax_le c)) h

/-- The second loops store `wrk2` at the inner points of the block and nowhere else. -/
theorem stepped_apply (m : Coefficients V) (p : Nat → V) {c : Coords g} {i j k : Nat}
    (hj : j < jmax c) (hk : k < kmax c) :
    (LocalInner .x c i ∧ LocalInner .y c j ∧ LocalInner .z c k →
      stepped m c p (address g i j k) = wrk2 m (entry g p) i j k) ∧
    (¬ (LocalInner .x c i ∧ LocalInner .y c j ∧ LocalInner .z c k) →
      stepped m c p (address g i j k) = p (address g i j k)) := by
  have hbounds : ∀ x ∈ innerPoints c, x.2.1 < jmax c ∧ x.2.2 < kmax c := by
    intro x hx
    obtain ⟨_, hy, hz⟩ := mem_innerPoints.mp hx
    exact ⟨Nat.lt_of_succ_lt hy.2, Nat.lt_of_succ_lt hz.2⟩
  constructor
  · intro hin
    have hnodup : (((innerPoints c).map fun x =>
        (address g x.1 x.2.1 x.2.2, wrk2 m (entry g p) x.1 x.2.1 x.2.2)).map Prod.fst).Nodup := by
      rw [List.map_map]
      refine List.Nodup.map_on (fun x hx y hy h => ?_) (innerPoints_nodup c)
      obtain ⟨h1, h2, h3⟩ := address_inj_block (hbounds x hx).1 (hbounds x hx).2 (hbounds y hy).1
        (hbounds y hy).2 h
      exact Prod.ext h1 (Prod.ext h2 h3)
    exact storeAll_of_mem hnodup
      (List.mem_map.mpr ⟨(i, j, k), mem_innerPoints.mpr hin, rfl⟩) p
  · intro hout
    refine storeAll_of_not_mem (fun h => ?_) p
    obtain ⟨_, hy, heq⟩ := List.mem_map.mp h
    obtain ⟨x, hx, rfl⟩ := List.mem_map.mp hy
    obtain ⟨rfl, rfl, rfl⟩ := address_inj_block (hbounds x hx).1 (hbounds x hx).2 hj hk heq
    exact hout (mem_innerPoints.mp hx)

/-- The stencil reads the whole array wherever it is. -/
theorem ss_holds {c : Coords g} {q : Nat → Nat → Nat → V} (hm : CoefficientsHold M c m)
    (hq : Holds P c q) {i j k : Nat} (hi : LocalInner .x c i) (hj : LocalInner .y c j)
    (hk : LocalInner .z c k) :
    ss m q i j k = ss M P (first .x c + i) (first .y c + j) (first .z c + k) := by
  obtain ⟨hi1, hi2⟩ := hi
  obtain ⟨hj1, hj2⟩ := hj
  obtain ⟨hk1, hk2⟩ := hk
  simp only [depth] at hi2 hj2 hk2
  have hread : ∀ i' j' k', i' ≤ i + 1 → j' ≤ j + 1 → k' ≤ k + 1 →
      q i' j' k' = P (first .x c + i') (first .y c + j') (first .z c + k') :=
    fun i' j' k' h1 h2 h3 => hq i' j' k' (by omega) (by omega) (by omega)
  have hx : first .x c + i - 1 = first .x c + (i - 1) := by omega
  have hy : first .y c + j - 1 = first .y c + (j - 1) := by omega
  have hz : first .z c + k - 1 = first .z c + (k - 1) := by omega
  have ha := fun n (hn : n < 4) => hm.a n hn i j k (by omega) (by omega) (by omega)
  have hb := fun n (hn : n < 3) => hm.b n hn i j k (by omega) (by omega) (by omega)
  have hc := fun n (hn : n < 3) => hm.c n hn i j k (by omega) (by omega) (by omega)
  have hbnd := hm.bnd i j k (by omega) (by omega) (by omega)
  have hwrk := hm.wrk1 i j k (by omega) (by omega) (by omega)
  simp (disch := omega) only [ss, s0, ha, hb, hc, hbnd, hwrk, hread, hx, hy, hz, Nat.add_assoc]

/-- Step lemma: from the whole array to the array after a sweep, in the points of the
    processes' own. -/
theorem stepped_holds {p : Nat → V} {c : Coords g} (hm : CoefficientsHold M c m)
    (hp : Holds P c (entry g p)) {i j k : Nat} (hi : i < imax c) (hj : j < jmax c)
    (hk : k < kmax c) (hown : Own .x c i ∧ Own .y c j ∧ Own .z c k ∨
      ¬ Inner g (first .x c + i) (first .y c + j) (first .z c + k)) :
    stepped m c p (address g i j k) =
      sweep g M P (first .x c + i) (first .y c + j) (first .z c + k) := by
  have hkept := hp i j k hi hj hk
  by_cases hin : LocalInner .x c i ∧ LocalInner .y c j ∧ LocalInner .z c k
  · obtain ⟨hx, hy, hz⟩ := hin
    have hinner : Inner g (first .x c + i) (first .y c + j) (first .z c + k) :=
      ⟨innerAlong_of_inner hx.1 hx.2, innerAlong_of_inner hy.1 hy.2, innerAlong_of_inner hz.1 hz.2⟩
    rw [(stepped_apply m p hj hk).1 ⟨hx, hy, hz⟩, sweep, if_pos hinner, wrk2, wrk2, hkept,
      ss_holds hm hp hx hy hz]
  · have hout : ¬ Inner g (first .x c + i) (first .y c + j) (first .z c + k) := by
      rcases hown with ⟨hx, hy, hz⟩ | hout
      · exact fun h => hin ⟨inner_of_own hi hx h.1, inner_of_own hj hy h.2.1,
          inner_of_own hk hz h.2.2⟩
      · exact hout
    rw [(stepped_apply m p hj hk).2 hin, sweep, if_neg hout]
    exact hkept

end Sweep

/-! ## The solver -/

section Solver

variable {V : Type} [Arith V] {g : Grid} {M : Coefficients V} (sum : List V → V)

theorem mem_processes (c : Coords g) : c ∈ processes g := by
  obtain ⟨i, j, k⟩ := c
  exact List.mem_flatMap.mpr ⟨i, List.mem_finRange i, List.mem_flatMap.mpr ⟨j, List.mem_finRange j,
    List.mem_map.mpr ⟨k, List.mem_finRange k, rfl⟩⟩⟩

theorem processes_nodup (g : Grid) : (processes g).Nodup := by
  refine List.nodup_flatMap.mpr ⟨fun i _ => List.nodup_flatMap.mpr ⟨fun j _ => ?_, ?_⟩, ?_⟩
  · exact (List.nodup_finRange _).map fun k k' h => (Prod.mk.inj (Prod.mk.inj h).2).2
  · refine (List.nodup_finRange _).pairwise_of_forall_ne fun j _ j' _ hne => ?_
    rw [Function.onFun, List.disjoint_left]
    intro x hx hx'
    obtain ⟨k, _, rfl⟩ := List.mem_map.mp hx
    obtain ⟨k', _, h⟩ := List.mem_map.mp hx'
    exact hne (Prod.mk.inj (Prod.mk.inj h).2).1.symm
  · refine (List.nodup_finRange _).pairwise_of_forall_ne fun i _ i' _ hne => ?_
    rw [Function.onFun, List.disjoint_left]
    intro x hx hx'
    obtain ⟨j, _, hj⟩ := List.mem_flatMap.mp hx
    obtain ⟨k, _, rfl⟩ := List.mem_map.mp hj
    obtain ⟨j', _, hj'⟩ := List.mem_flatMap.mp hx'
    obtain ⟨k', _, h⟩ := List.mem_map.mp hj'
    exact hne (Prod.mk.inj h).1.symm

/-- `p` of all processes after a round of the loop. -/
def nextPressure (m : Coords g → Coefficients V) (p : Coords g → Nat → V) : Coords g → Nat → V :=
  refreshed .x (refreshed .y (refreshed .z fun c => stepped (m c) c (p c)))

/-- `gosa` after it. -/
def residual (m : Coords g → Coefficients V) (p : Coords g → Nat → V) : V :=
  sum ((processes g).map fun c => wgosa (m c) c (p c))

/-- `gosa` after `n` rounds. -/
def gosaAfter (m : Coords g → Coefficients V) : Nat → (Coords g → Nat → V) → Option V → Option V
  | 0, _, gosa => gosa
  | n + 1, p, _ => some (residual sum m ((nextPressure m)^[n] p))

theorem gosaAfter_next (m : Coords g → Coefficients V) (n : Nat) (p : Coords g → Nat → V)
    (gosa : Option V) : gosaAfter sum m n (nextPressure m p) (some (residual sum m p)) =
      gosaAfter sum m (n + 1) p gosa := by
  cases n <;> rfl

theorem reaches_jacobi {α : Type} (m : Coords g → Coefficients V) (n : Nat)
    (p : Coords g → Nat → V) (gosa : Option V)
    (k : Coords g → (Nat → V) → Option V → Proc (Coords g) Nat (Message V) α) :
    Reaches (fun c => jacobi sum (m c) c n (p c) gosa (k c))
      fun c => k c ((nextPressure m)^[n] p c) (gosaAfter sum m n p gosa) := by
  induction n generalizing p gosa with
  | zero => exact .refl _
  | succ n ih =>
      let rest (q : Nat → V) (c : Coords g) : Message V → Proc (Coords g) Nat (Message V) α
        | .residual gosa => jacobi sum (m c) c n q (some gosa) (k c)
        | .plane _ => .abort
      let reduce (c : Coords g) (q : Nat → V) : Proc (Coords g) Nat (Message V) α :=
        allreduce (processes g) (rankZero g) c 0 (sumResiduals sum)
          (.residual (wgosa (m c) c (p c))) (rest q c)
      -- the exchanges one after the other, then the reduction
      have hz := reaches_sendpIf .z (fun c => stepped (m c) c (p c)) fun c q =>
        sendpIf .y c q fun q => sendpIf .x c q (reduce c)
      have hy := reaches_sendpIf .y (refreshed .z fun c => stepped (m c) c (p c)) fun c q =>
        sendpIf .x c q (reduce c)
      have hx := reaches_sendpIf .x
        (refreshed .y (refreshed .z fun c => stepped (m c) c (p c))) reduce
      have hsum := reaches_allreduce (processes_nodup g) mem_processes (rankZero g) 0
        (sumResiduals sum) (fun c => Message.residual (wgosa (m c) c (p c)))
        fun c => rest (nextPressure m p c) c
      have hall : sumResiduals sum ((processes g).map fun c =>
          Message.residual (wgosa (m c) c (p c))) = .residual (residual sum m p) := by
        rw [sumResiduals, List.filterMap_map, residual]
        refine congrArg (fun l => Message.residual (sum l)) ?_
        show (processes g).filterMap (fun c => some (wgosa (m c) c (p c))) = _
        exact congrFun List.filterMap_eq_map' _
      rw [hall] at hsum
      refine (hz.trans (hy.trans (hx.trans hsum))).trans ?_
      have hrest := ih (nextPressure m p) (some (residual sum m p))
      rw [gosaAfter_next sum m n p gosa] at hrest
      exact hrest

/-- Run lemma: the processes have the whole array after the sweeps. -/
theorem holds_after (hreach : Reached g) {m : Coords g → Coefficients V}
    (hm : ∀ c, CoefficientsHold M c (m c)) (n : Nat) {P : Nat → Nat → Nat → V}
    {p : Coords g → Nat → V} (hp : ∀ c, Holds P c (entry g (p c))) (c : Coords g) :
    Holds ((sweep g M)^[n] P) c (entry g ((nextPressure m)^[n] p c)) := by
  induction n generalizing P p with
  | zero => exact hp c
  | succ n ih =>
      exact ih (sendp_holds hreach fun c i j k hi hj hk =>
        stepped_holds (hm c) (hp c) hi hj hk)

end Solver

end MpiApps.HimenoSolver
