/-
  MpiApps.Apps.Himeno

  The exchange of the boundary planes in the compressed Himeno solver.

  The processes form a grid that is not periodic, and each of them holds a block of the
  array `p` with one plane of its neighbour on every side that has one.  `sendp3`, `sendp2`
  and `sendp1` refresh these planes along the three axes: with `CT = 0` by one message for
  each side, else by a first message with the length and further ones with the compressed
  plane.

  Both variants do nothing where MPI has no neighbour for them.  But the compressed one then
  still decompresses what it has not received and stores it into the plane
  (`sendp_refinesPlain_iff`).  Its planes are flattened in `dataCompression.c`, which includes
  a `param.h` of its own and finds the points only if the two headers agree.
-/

import MpiApps.Codec.BytewiseReads
import MpiApps.Codec.MaskFraming
import MpiApps.Lib.Neighbours
import MpiApps.Lib.Stores
import MpiApps.Transfer.Messages

namespace MpiApps.Himeno

open MpiApps.BinaryFormat MpiApps.Codec MpiApps.MessagePassing MpiApps.Stores MpiApps.Transfer

/-! ## The grid -/

/-- `mx1[i]`: where the layers of process `i` begin when `m` layers go to `nd` processes. -/
def mx1 (m nd : Nat) : Nat → Nat
  | 0 => 0
  | i + 1 => if i + 1 ≤ m % nd then mx1 m nd i + m / nd + 1 else mx1 m nd i + m / nd

/-- `mx2[i]`: the layers of process `i`, and one for each neighbour. -/
def mx2 (m nd i : Nat) : Nat :=
  let n := mx1 m nd (i + 1) - mx1 m nd i
  let n := if i ≠ 0 then n + 1 else n
  if i ≠ nd - 1 then n + 1 else n

/-- One axis of `param.h`, as in `MX0`, `MIMAX` and `NDX0`: every process has a layer of its
    own, and its layers fit the array. -/
structure Partition where
  size : Nat
  max : Nat
  parts : Nat
  parts_pos : 0 < parts
  parts_le : parts ≤ size - 1
  fits : ∀ i, i < parts → mx2 (size - 1) parts i ≤ max

/-- `imax`, `jmax` or `kmax` of the process with coordinate `i`. -/
def Partition.extent (a : Partition) (i : Fin a.parts) : Nat := mx2 (a.size - 1) a.parts i

theorem mx1_succ_sub (m nd i : Nat) : m / nd ≤ mx1 m nd (i + 1) - mx1 m nd i ∧
    mx1 m nd (i + 1) - mx1 m nd i ≤ m / nd + 1 := by
  rw [mx1]
  generalize m / nd = q
  split <;> omega

/-- The layers of a process of its own. -/
theorem Partition.own_pos (a : Partition) : 1 ≤ (a.size - 1) / a.parts :=
  (Nat.one_le_div_iff a.parts_pos).mpr a.parts_le

theorem Partition.extent_pos (a : Partition) (i : Fin a.parts) : 1 ≤ a.extent i := by
  have hown := a.own_pos
  have hsub := (mx1_succ_sub (a.size - 1) a.parts i).1
  simp only [extent, mx2]
  split <;> split <;> omega

/-- With a neighbour there are two layers at least. -/
theorem Partition.two_le_extent (a : Partition) {i : Fin a.parts}
    (h : (i : Nat) ≠ 0 ∨ (i : Nat) ≠ a.parts - 1) : 2 ≤ a.extent i := by
  have hown := a.own_pos
  have hsub := (mx1_succ_sub (a.size - 1) a.parts i).1
  simp only [extent, mx2]
  split <;> split <;> omega

/-- `paramset.sh` makes the array large enough. -/
def paramset (size parts : Nat) (hpos : 0 < parts) (hle : parts ≤ size - 1) : Partition where
  size := size
  max := if parts = 1 then size else size / parts + 3
  parts := parts
  parts_pos := hpos
  parts_le := hle
  fits i hi := by
    have hsub := (mx1_succ_sub (size - 1) parts i).2
    have hdiv : (size - 1) / parts ≤ size / parts := Nat.div_le_div_right (Nat.sub_le size 1)
    by_cases hone : parts = 1
    · subst hone
      obtain rfl : i = 0 := by omega
      simp only [mx2, mx1, Nat.mod_one, Nat.div_one]
      simp
    · rw [if_neg hone]
      simp only [mx2]
      split <;> split <;> omega

/-- The three axes. -/
structure Grid where
  x : Partition
  y : Partition
  z : Partition

/-- `iop`. -/
abbrev Coords (g : Grid) := Fin g.x.parts × Fin g.y.parts × Fin g.z.parts

/-- `ijk`: 1, 2 and 3, for `sendp1`, `sendp2` and `sendp3`. -/
inductive Axis
  | x
  | y
  | z
  deriving DecidableEq, Repr

/-- The axis of `ijk`, with `ndx`, `ndy` or `ndz` processes. -/
def Grid.along (g : Grid) : Axis → Partition
  | .x => g.x
  | .y => g.y
  | .z => g.z

/-- The coordinate below, if there is one. -/
def below {n : Nat} (i : Fin n) : Option (Fin n) :=
  if 0 < (i : Nat) then some ⟨i - 1, Nat.lt_of_le_of_lt (Nat.sub_le i 1) i.isLt⟩ else none

/-- The coordinate above, if there is one. -/
def above {n : Nat} (i : Fin n) : Option (Fin n) :=
  if h : (i : Nat) + 1 < n then some ⟨i + 1, h⟩ else none

theorem above_iff {n : Nat} (i j : Fin n) : above i = some j ↔ below j = some i := by
  have hi := i.isLt
  have hj := j.isLt
  simp only [above, below]
  split <;> split <;> simp [Fin.ext_iff] <;> omega

section Grid

variable {g : Grid}

/-- `MPI_Cart_shift` by one along an axis; `none` is `MPI_PROC_NULL`. -/
def cartShift (g : Grid) (axis : Axis) : Neighbours (Coords g) where
  lower c :=
    match axis with
    | .x => (below c.1).map fun i => (i, c.2.1, c.2.2)
    | .y => (below c.2.1).map fun j => (c.1, j, c.2.2)
    | .z => (below c.2.2).map fun k => (c.1, c.2.1, k)
  upper c :=
    match axis with
    | .x => (above c.1).map fun i => (i, c.2.1, c.2.2)
    | .y => (above c.2.1).map fun j => (c.1, j, c.2.2)
    | .z => (above c.2.2).map fun k => (c.1, c.2.1, k)
  upper_iff a b := by
    obtain ⟨i, j, k⟩ := a
    obtain ⟨i', j', k'⟩ := b
    cases axis with
    | x =>
        simp only [Option.map_eq_some_iff, Prod.mk.injEq]
        simp [above_iff i i', eq_comm]
    | y =>
        simp only [Option.map_eq_some_iff, Prod.mk.injEq]
        simp [above_iff j j', eq_comm]
    | z =>
        simp only [Option.map_eq_some_iff, Prod.mk.injEq]
        simp [above_iff k k', eq_comm]

/-- `imax`. -/
def imax (c : Coords g) : Nat := g.x.extent c.1

/-- `jmax`. -/
def jmax (c : Coords g) : Nat := g.y.extent c.2.1

/-- `kmax`. -/
def kmax (c : Coords g) : Nat := g.z.extent c.2.2

/-! ## Planes -/

/-- The offset of `p[i][j][k]` in `p[MIMAX][MJMAX][MKMAX]`. -/
def address (g : Grid) (i j k : Nat) : Nat := (i * g.y.max + j) * g.z.max + k

/-- The offset of the point `a, b` of the plane `v`. -/
def planeAddress (g : Grid) (axis : Axis) (v a b : Nat) : Nat :=
  match axis with
  | .x => address g v a b
  | .y => address g a v b
  | .z => address g a b v

/-- `A` and `B`: the size of a plane. -/
def planeSize (axis : Axis) (c : Coords g) : Nat × Nat :=
  match axis with
  | .x => (jmax c, kmax c)
  | .y => (imax c, kmax c)
  | .z => (imax c, jmax c)

/-- The number of planes along an axis. -/
def depth (axis : Axis) (c : Coords g) : Nat :=
  match axis with
  | .x => imax c
  | .y => jmax c
  | .z => kmax c

/-- The points of the plane `v` in the order of the two loops over `a` and `b`. -/
def planePoints (axis : Axis) (c : Coords g) (v : Nat) : List Nat :=
  (List.range (planeSize axis c).1).flatMap fun a =>
    (List.range (planeSize axis c).2).map fun b => planeAddress g axis v a b

/-- `MJMAX` and `MKMAX` of a `param.h`. -/
structure Header where
  mjmax : Nat
  mkmax : Nat

/-- The offset of `data[i][j][k]` in `dataCompression.c`, which is compiled with another
    `param.h` than the solver. -/
def Header.offset (lib : Header) (i j k : Nat) : Nat := (i * lib.mjmax + j) * lib.mkmax + k

/-- The offset of the point `a, b` of the plane `v` there. -/
def Header.flatAddress (lib : Header) (axis : Axis) (v a b : Nat) : Nat :=
  match axis with
  | .x => lib.offset v a b
  | .y => lib.offset a v b
  | .z => lib.offset a b v

/-- The points that are flattened. -/
def Header.flatPoints (lib : Header) (axis : Axis) (c : Coords g) (v : Nat) : List Nat :=
  (List.range (planeSize axis c).1).flatMap fun a =>
    (List.range (planeSize axis c).2).map fun b => lib.flatAddress axis v a b

/-- `transform_3d_array_to_1d_array`, with `lib` the header of `dataCompression.c`; `p` goes on
    with what lies behind the array. -/
def transform3dArrayTo1dArray (lib : Header) (p : Nat → BitVec 32) (axis : Axis) (v : Nat)
    (c : Coords g) : List (BitVec 32) :=
  (lib.flatPoints axis c v).map p

/-- `MPI_Type_vector`, from an offset on. -/
def typeVector (start count blocklength stride : Nat) : List Nat :=
  (List.range count).flatMap fun n =>
    (List.range blocklength).map fun m => start + n * stride + m

/-- The points that `CT = 0` transfers: `jkvec`, `ikvec` and `ijvec`. -/
def vectorPoints (axis : Axis) (c : Coords g) (v : Nat) : List Nat :=
  match axis with
  | .x => typeVector (address g v 0 0) (jmax c) (kmax c) g.z.max
  | .y => typeVector (address g 0 v 0) (imax c) (kmax c) (g.y.max * g.z.max)
  | .z => typeVector (address g 0 0 v) (imax c * jmax c) 1 g.z.max

end Grid

/-- The plane that is sent down is the second one, the plane that is sent up the last but
    one. -/
def sentPlane {g : Grid} (axis : Axis) (c : Coords g) : Dir → Nat
  | .down => 1
  | .up => depth axis c - 2

/-- What comes down goes to the last plane, what comes up to the first one. -/
def ghostPlane {g : Grid} (axis : Axis) (c : Coords g) : Dir → Nat
  | .down => depth axis c - 1
  | .up => 0

/-! ## The points of a plane -/

section Points

theorem index_inj {n x y x' y' : Nat} (hy : y < n) (hy' : y' < n)
    (h : x * n + y = x' * n + y') : x = x' ∧ y = y' := by
  have hn : 0 < n := Nat.lt_of_le_of_lt (Nat.zero_le y) hy
  have hdiv : ∀ a b : Nat, b < n → (a * n + b) / n = a := by
    intro a b hb
    rw [Nat.mul_comm, Nat.mul_add_div hn, Nat.div_eq_of_lt hb, Nat.add_zero]
  obtain rfl : x = x' := (hdiv x y hy).symm.trans ((congrArg (· / n) h).trans (hdiv x' y' hy'))
  exact ⟨rfl, Nat.add_left_cancel h⟩

variable {g : Grid} {axis : Axis}

theorem jmax_le (c : Coords g) : jmax c ≤ g.y.max := g.y.fits c.2.1 c.2.1.isLt

theorem kmax_le (c : Coords g) : kmax c ≤ g.z.max := g.z.fits c.2.2 c.2.2.isLt

theorem address_inj {i j k i' j' k' : Nat} (hj : j < g.y.max) (hk : k < g.z.max)
    (hj' : j' < g.y.max) (hk' : k' < g.z.max) (h : address g i j k = address g i' j' k') :
    i = i' ∧ j = j' ∧ k = k' := by
  obtain ⟨hij, rfl⟩ := index_inj hk hk' h
  obtain ⟨rfl, rfl⟩ := index_inj hj hj' hij
  exact ⟨rfl, rfl, rfl⟩

/-- Two points of the block of a process are not at the same address. -/
theorem planeAddress_inj {c : Coords g} {v a b v' a' b' : Nat} (hv : v < depth axis c)
    (ha : a < (planeSize axis c).1) (hb : b < (planeSize axis c).2) (hv' : v' < depth axis c)
    (ha' : a' < (planeSize axis c).1) (hb' : b' < (planeSize axis c).2)
    (h : planeAddress g axis v a b = planeAddress g axis v' a' b') : v = v' ∧ a = a' ∧ b = b' := by
  have hj := jmax_le c
  have hk := kmax_le c
  cases axis with
  | x =>
      exact address_inj (Nat.lt_of_lt_of_le ha hj) (Nat.lt_of_lt_of_le hb hk)
        (Nat.lt_of_lt_of_le ha' hj) (Nat.lt_of_lt_of_le hb' hk) h
  | y =>
      obtain ⟨rfl, rfl, rfl⟩ := address_inj (Nat.lt_of_lt_of_le hv hj) (Nat.lt_of_lt_of_le hb hk)
        (Nat.lt_of_lt_of_le hv' hj) (Nat.lt_of_lt_of_le hb' hk) h
      exact ⟨rfl, rfl, rfl⟩
  | z =>
      obtain ⟨rfl, rfl, rfl⟩ := address_inj (Nat.lt_of_lt_of_le hb hj) (Nat.lt_of_lt_of_le hv hk)
        (Nat.lt_of_lt_of_le hb' hj) (Nat.lt_of_lt_of_le hv' hk) h
      exact ⟨rfl, rfl, rfl⟩

theorem mem_planePoints {c : Coords g} {v x : Nat} : x ∈ planePoints axis c v ↔
    ∃ a b, a < (planeSize axis c).1 ∧ b < (planeSize axis c).2 ∧ planeAddress g axis v a b = x := by
  simp only [planePoints, List.mem_flatMap, List.mem_map, List.mem_range]
  constructor
  · rintro ⟨a, ha, b, hb, hx⟩
    exact ⟨a, b, ha, hb, hx⟩
  · rintro ⟨a, b, ha, hb, hx⟩
    exact ⟨a, ha, b, hb, hx⟩

theorem planePoints_length (axis : Axis) (c : Coords g) (v : Nat) :
    (planePoints axis c v).length = (planeSize axis c).1 * (planeSize axis c).2 := by
  rw [planePoints, List.length_flatMap]
  simp

theorem planePoints_nodup {c : Coords g} {v : Nat} (hv : v < depth axis c) :
    (planePoints axis c v).Nodup := by
  rw [planePoints, List.nodup_flatMap]
  constructor
  · intro a ha
    refine List.Nodup.map_on (fun b hb b' hb' h => ?_) List.nodup_range
    rw [List.mem_range] at ha hb hb'
    exact (planeAddress_inj hv ha hb hv ha hb' h).2.2
  · refine List.nodup_range.pairwise_of_forall_ne fun a ha a' ha' hne => ?_
    rw [Function.onFun, List.disjoint_left]
    intro x hx hx'
    obtain ⟨b, hb, rfl⟩ := List.mem_map.mp hx
    obtain ⟨b', hb', h⟩ := List.mem_map.mp hx'
    rw [List.mem_range] at ha ha' hb hb'
    exact hne (planeAddress_inj hv ha hb hv ha' hb' h.symm).2.1

theorem planePoints_disjoint {c : Coords g} {v v' : Nat} (hv : v < depth axis c)
    (hv' : v' < depth axis c) (hne : v ≠ v') :
    (planePoints axis c v).Disjoint (planePoints axis c v') := by
  intro x hx hx'
  obtain ⟨a, b, ha, hb, rfl⟩ := mem_planePoints.mp hx
  obtain ⟨a', b', ha', hb', h⟩ := mem_planePoints.mp hx'
  exact hne (planeAddress_inj hv ha hb hv' ha' hb' h.symm).1

theorem vectorPoints_x (c : Coords g) (v : Nat) : vectorPoints .x c v = planePoints .x c v := by
  refine congrArg (List.range (jmax c)).flatMap (funext fun a => ?_)
  refine List.map_congr_left fun b _ => ?_
  show address g v 0 0 + a * g.z.max + b = address g v a b
  simp only [address]
  ring

theorem vectorPoints_y (c : Coords g) (v : Nat) : vectorPoints .y c v = planePoints .y c v := by
  refine congrArg (List.range (imax c)).flatMap (funext fun a => ?_)
  refine List.map_congr_left fun b _ => ?_
  show address g 0 v 0 + a * (g.y.max * g.z.max) + b = address g a v b
  simp only [address]
  ring

theorem vectorPoints_z (c : Coords g) (v : Nat) :
    vectorPoints .z c v = (List.range (imax c * jmax c)).map fun n => n * g.z.max + v := by
  have hpoint : ∀ n : Nat, (List.range 1).map (fun m => address g 0 0 v + n * g.z.max + m) =
      [n * g.z.max + v] := by
    intro n
    simp only [address, List.range_one, List.map_singleton]
    congr 1
    ring
  simp only [vectorPoints, typeVector, hpoint]
  exact List.map_eq_flatMap.symm

theorem vectorPoints_length (axis : Axis) (c : Coords g) (v : Nat) :
    (vectorPoints axis c v).length = (planeSize axis c).1 * (planeSize axis c).2 := by
  cases axis with
  | x => rw [vectorPoints_x, planePoints_length]
  | y => rw [vectorPoints_y, planePoints_length]
  | z =>
      rw [vectorPoints_z, List.length_map, List.length_range]
      rfl

theorem vectorPoints_nodup {c : Coords g} {v : Nat} (hv : v < depth axis c) :
    (vectorPoints axis c v).Nodup := by
  cases axis with
  | x =>
      rw [vectorPoints_x]
      exact planePoints_nodup hv
  | y =>
      rw [vectorPoints_y]
      exact planePoints_nodup hv
  | z =>
      have hvk : v < g.z.max := Nat.lt_of_lt_of_le hv (kmax_le c)
      rw [vectorPoints_z]
      exact List.Nodup.map_on (fun n _ n' _ h => (index_inj hvk hvk h).1) List.nodup_range

theorem vectorPoints_disjoint {c : Coords g} {v v' : Nat} (hv : v < depth axis c)
    (hv' : v' < depth axis c) (hne : v ≠ v') :
    (vectorPoints axis c v).Disjoint (vectorPoints axis c v') := by
  cases axis with
  | x =>
      rw [vectorPoints_x, vectorPoints_x]
      exact planePoints_disjoint hv hv' hne
  | y =>
      rw [vectorPoints_y, vectorPoints_y]
      exact planePoints_disjoint hv hv' hne
  | z =>
      have hk := kmax_le c
      rw [vectorPoints_z, vectorPoints_z]
      intro x hx hx'
      obtain ⟨n, _, rfl⟩ := List.mem_map.mp hx
      obtain ⟨n', _, h⟩ := List.mem_map.mp hx'
      exact hne (index_inj (Nat.lt_of_lt_of_le hv' hk) (Nat.lt_of_lt_of_le hv hk) h).2.symm

/-! ### Another header -/

end Points

/-! ## Compressed planes -/

/-- What is sent: `MPI_INT`, `MPI_FLOAT`, `MPI_UNSIGNED_CHAR` and, for arrays, `MPI_FLOAT`,
    `MPI_CHAR` and `MPI_INT`. -/
inductive Message
  | int (n : Nat)
  | float (x : BitVec 32)
  | bytes (bits : List (BitVec 8))
  | floats (xs : List (BitVec 32))
  | chars (cs : List Letter)
  | ints (ns : List Int)

/-- `CT`. -/
inductive Ct
  | ct1
  | ct5
  | ct6
  | ct7
  deriving DecidableEq, Repr

/-- What the memory of the arrays for `CT = 1` holds before anything is received into them,
    and the integer behind the displacements. -/
structure Memory where
  chars : List Letter
  displacements : List Int
  past : Int

section Code

variable [NanRule] (eb : ErrorBound)

/-- `myCompress` of a plane. -/
def planeArrays (plane : List (BitVec 32)) : ByteArrays (BitVec 32) :=
  myCompress (FloatArith.ieee float eb) plane

/-- `data_bits_send`, from `data_small`. -/
def dataBitsSend (ct : Ct) (dataSmall : List (BitVec 32)) : ByteBuffer :=
  match ct with
  | .ct6 => myCompressBitwiseNp eb dataSmall
  | .ct7 =>
    let medium := medDatasetFloat dataSmall
    myCompressBitwiseMask (FloatArith.ieee float eb) dataSmall medium.2 (maskOf float medium.1)
  | _ => myCompressBitwise (FloatArith.ieee float eb) dataSmall

/-- The number that is sent first: `data_bytes_send`, or `array_float_len_send`. -/
def lenSend (ct : Ct) (plane : List (BitVec 32)) : Nat :=
  match ct with
  | .ct1 => (planeArrays eb plane).arrayDouble.length
  | ct => (dataBitsSend eb ct (toSmallDatasetFloat plane).2).bytes

/-- The messages that follow, with their tags: those to the lower neighbour and those to the
    upper one. -/
def Ct.messages : Ct → List (Dir × Nat)
  | .ct1 => [(.down, 2), (.down, 3), (.down, 4), (.up, 5), (.up, 6), (.up, 7)]
  | .ct5 | .ct6 => [(.down, 2), (.down, 3), (.up, 4), (.up, 5)]
  | .ct7 => [(.down, 2), (.down, 3), (.up, 4), (.up, 5), (.down, 6), (.up, 7), (.down, 8),
      (.up, 9)]

/-- What is sent with a tag. -/
def messageOf (ct : Ct) (plane : List (BitVec 32)) (tag : Nat) : Message :=
  let small := toSmallDatasetFloat plane
  match ct with
  | .ct1 =>
    if tag = 2 ∨ tag = 5 then .floats (planeArrays eb plane).arrayDouble
    else if tag = 3 ∨ tag = 6 then .chars (planeArrays eb plane).arrayChar
    else .ints (planeArrays eb plane).arrayCharDisplacement
  | ct =>
    if tag = 2 ∨ tag = 4 then .float small.1
    else if tag = 3 ∨ tag = 5 then .bytes (dataBitsSend eb ct small.2).dataBits
    else if tag = 6 ∨ tag = 7 then .float (medDatasetFloat small.2).1
    else .int (medDatasetFloat small.2).2

/-- A buffer of `count` entries after a message has been received into it; a longer message
    would be truncated, a shorter one leave entries unset. -/
def receivedInto {β : Type} (count : Nat) (message : List β) : Except Fault (List β) :=
  if message.length = count then return message else throw .outOfBounds

/-- `x + y`. -/
def floatAdd (x y : BitVec 32) : BitVec 32 := plus float x y

/-- `decompressed_data[pointer] + data_min_recv` for `pointer < num`; a sum with a value that
    is not set is not set. -/
def addMinRecv (min : Option (BitVec 32)) (num : Nat) (decompressedData : List (BitVec 32)) :
    List (Option (BitVec 32)) :=
  (List.range num).map fun pointer => Option.map₂ floatAdd decompressedData[pointer]? min

/-- The values for a ghost plane of `num` points from what has arrived for it.  Where there
    is no neighbour nothing has, `data_bytes_recv` or `array_float_len_recv` is still 0, and
    so there are no bytes to decompress and no floats. -/
def planeRecv (mem : Memory) (ct : Ct) (num len : Nat) (arrived : List (Option Message)) :
    Except Fault (List (Option (BitVec 32))) :=
  match ct, arrived with
  | .ct1, [some (.floats xs), some (.chars cs), some (.ints ns)] => do
    let arrayFloat ← receivedInto len xs
    let arrayChar ← receivedInto (num - len) cs
    let arrayCharDisplacement ← receivedInto (num - len) ns
    let data ← myDecompress (FloatArith.ieee float eb)
      ⟨arrayFloat, arrayChar, arrayCharDisplacement⟩ mem.past num
    return data.map some
  | .ct1, [none, none, none] => do
    let data ← myDecompress (FloatArith.ieee float eb)
      ⟨[], mem.chars, mem.displacements⟩ mem.past num
    return data.map some
  | .ct5, [some (.float min), some (.bytes bits)] => do
    let dataBits ← receivedInto len bits
    let o ← myDecompressBitwise (FloatArith.ieee float eb) dataBits num
    return addMinRecv (some min) num o.decompressed
  | .ct5, [none, none] => do
    let o ← myDecompressBitwise (FloatArith.ieee float eb) [] num
    return addMinRecv none num o.decompressed
  | .ct6, [some (.float min), some (.bytes bits)] => do
    let dataBits ← receivedInto len bits
    let o ← myDecompressBitwiseNp (FloatArith.ieee float eb) dataBits num
    return addMinRecv (some min) num o.decompressed
  | .ct6, [none, none] => do
    let o ← myDecompressBitwiseNp (FloatArith.ieee float eb) [] num
    return addMinRecv none num o.decompressed
  | .ct7, [some (.float min), some (.bytes bits), some (.float medium), some (.int type)] => do
    let dataBits ← receivedInto len bits
    let o ← myDecompressBitwiseMask (FloatArith.ieee float eb) dataBits num type
      (maskOf float medium)
    return addMinRecv (some min) num o.decompressed
  | .ct7, [none, none, none, none] => do
    -- without a byte neither the type nor the mask is looked at
    let o ← myDecompressBitwiseMask (FloatArith.ieee float eb) [] num 0 []
    return addMinRecv none num o.decompressed
  | _, _ => throw .outOfBounds

/-- `p[..] = ..` for the points of both ghost planes in turn. -/
def storePlanes (p : Nat → Option (BitVec 32)) :
    List (Nat × Option (BitVec 32)) → List (Nat × Option (BitVec 32)) → Nat → Option (BitVec 32)
  | (x, v) :: last, (y, w) :: first =>
    storePlanes (Function.update (Function.update p x v) y w) last first
  | _, _ => p

/-- The entries that the two length variables hold after the first round. -/
def lenRecv : Option Message → Nat
  | some (.int n) => n
  | _ => 0

variable {g : Grid}

/-- The process result: `p` afterwards, or how the process has failed. -/
abbrev Result := Except Fault (Nat → Option (BitVec 32))

end Code

/-! ## What a plane becomes -/

section Restored

variable [NanRule] (eb : ErrorBound)

/-- The tags of a direction. -/
def Ct.tags (ct : Ct) (d : Dir) : List Nat := (ct.messages.filter fun i => i.1 = d).map (·.2)

variable {g : Grid}

end Restored

/-! ## The exchange -/

section Exchange

variable {g : Grid} {axis : Axis}

/-- The coordinate along an axis. -/
def coord (axis : Axis) (c : Coords g) : Fin (g.along axis).parts :=
  match axis with
  | .x => c.1
  | .y => c.2.1
  | .z => c.2.2

theorem depth_eq (axis : Axis) (c : Coords g) :
    depth axis c = (g.along axis).extent (coord axis c) := by
  cases axis <;> rfl

/-- With several processes along it there are two planes at least. -/
theorem two_le_depth (hparts : 1 < (g.along axis).parts) (c : Coords g) : 2 ≤ depth axis c := by
  have hside : (coord axis c : Nat) ≠ 0 ∨ (coord axis c : Nat) ≠ (g.along axis).parts - 1 := by
    omega
  rw [depth_eq]
  exact (g.along axis).two_le_extent hside

theorem source_down_of_above {c : Coords g} {j : Fin (g.along axis).parts}
    (h : above (coord axis c) = some j) : ∃ s, (cartShift g axis).source c .down = some s := by
  cases axis <;> exact ⟨_, Option.map_eq_some_iff.mpr ⟨j, h, rfl⟩⟩

theorem source_up_of_below {c : Coords g} {j : Fin (g.along axis).parts}
    (h : below (coord axis c) = some j) : ∃ s, (cartShift g axis).source c .up = some s := by
  cases axis <;> exact ⟨_, Option.map_eq_some_iff.mpr ⟨j, h, rfl⟩⟩

/-- Neighbours along an axis have planes of one size. -/
theorem source_planeSize {c s : Coords g} {d : Dir}
    (h : (cartShift g axis).source c d = some s) : planeSize axis s = planeSize axis c := by
  cases axis <;> cases d <;>
    · obtain ⟨j, _, rfl⟩ := Option.map_eq_some_iff.mp h
      rfl

theorem ghostPlane_lt (hparts : 1 < (g.along axis).parts) (c : Coords g) (d : Dir) :
    ghostPlane axis c d < depth axis c := by
  have htwo := two_le_depth hparts c
  cases d with
  | down => exact Nat.sub_lt (by omega) Nat.one_pos
  | up => exact Nat.lt_of_lt_of_le Nat.two_pos htwo

theorem sentPlane_lt (hparts : 1 < (g.along axis).parts) (c : Coords g) (d : Dir) :
    sentPlane axis c d < depth axis c := by
  have htwo := two_le_depth hparts c
  cases d with
  | down => exact htwo
  | up => exact Nat.sub_lt (by omega) Nat.two_pos

theorem ghostPlane_ne (hparts : 1 < (g.along axis).parts) (c : Coords g) {d d' : Dir}
    (hne : d ≠ d') : ghostPlane axis c d ≠ ghostPlane axis c d' := by
  have htwo := two_le_depth hparts c
  cases d <;> cases d' <;> simp only [ghostPlane, ne_eq, not_true_eq_false] at * <;> omega

end Exchange

/-! ## Refinement -/

section Refinement

variable (lib : Header) (eb : ErrorBound) {g : Grid} (axis : Axis) (ct : Ct)

/-- The plane of process `s` that goes in a direction, as it is flattened. -/
def planeOf (p : Coords g → Nat → BitVec 32) (s : Coords g) (d : Dir) : List (BitVec 32) :=
  transform3dArrayTo1dArray lib (p s) axis (sentPlane axis s d) s

/-- The points that are received with `CT = 0`. -/
def ghostVector (c : Coords g) (d : Dir) : List Nat := vectorPoints axis c (ghostPlane axis c d)

/-- The points of a ghost plane. -/
def ghostPoints (c : Coords g) (d : Dir) : List Nat := planePoints axis c (ghostPlane axis c d)

variable {lib axis ct} {mem : Coords g → Dir → Memory} {p : Coords g → Nat → BitVec 32}
  {c : Coords g}

theorem ghostVector_nodup (hparts : 1 < (g.along axis).parts) (c : Coords g) (d : Dir) :
    (ghostVector axis c d).Nodup := vectorPoints_nodup (ghostPlane_lt hparts c d)

theorem ghostVector_disjoint (hparts : 1 < (g.along axis).parts) (c : Coords g) {d d' : Dir}
    (hne : d ≠ d') : (ghostVector axis c d).Disjoint (ghostVector axis c d') :=
  vectorPoints_disjoint (ghostPlane_lt hparts c d) (ghostPlane_lt hparts c d')
    (ghostPlane_ne hparts c hne)

end Refinement

/-! ### What is decompressed and stored -/

section Compressed

variable [NanRule] {lib : Header} (eb : ErrorBound) {g : Grid} {axis : Axis} {ct : Ct}
  {mem : Coords g → Dir → Memory} {p : Coords g → Nat → BitVec 32} {c : Coords g}

variable (lib axis ct mem p c) in
/-- What process `c` has decompressed for a side. -/
def decompressed (d : Dir) : Except Fault (List (Option (BitVec 32))) :=
  planeRecv eb (mem c d) ct ((planeSize axis c).1 * (planeSize axis c).2)
    (lenRecv (((cartShift g axis).source c d).map fun s =>
      .int (lenSend eb ct (planeOf lib axis p s d))))
    ((ct.tags d).map fun tag => ((cartShift g axis).source c d).map fun s =>
      messageOf eb ct (planeOf lib axis p s d) tag)

variable (lib axis ct mem p c) in
/-- What it returns. -/
def returned : Result := do
  let last ← decompressed lib eb axis ct mem p c .down
  let first ← decompressed lib eb axis ct mem p c .up
  return storePlanes (fun x => some (p c x)) ((ghostPoints axis c .down).zip last)
    ((ghostPoints axis c .up).zip first)

end Compressed

/-- Nothing in the arrays. -/
def Memory.empty : Memory := ⟨[], [], 0⟩

section Examples

attribute [local instance] NanRule.sse

end Examples

end MpiApps.Himeno
