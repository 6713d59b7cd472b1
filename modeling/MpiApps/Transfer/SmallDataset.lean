/-
  MpiApps.Transfer.SmallDataset

  The signs of a list less its minimum, and what the receiver makes of them.

  The bit format reserves a leading 1 for its codes, and `toSmallDataset_double` is what
  clears the sign bits.  The search for the minimum keeps the first of several equal
  values, and `+0` and `-0` are equal: if it stops at `+0`, a later `-0` becomes
  `-0 - +0 = -0`, whose literal starts with a 1 (`small_signs_clear_iff`).
-/

import MpiApps.Transfer.Messages
import MpiApps.Codec.Accuracy
import MpiApps.Codec.IeeeSign
import Mathlib.Data.List.MinMax

namespace MpiApps.Transfer

open MpiApps.BinaryFormat MpiApps.Codec
open Float.Model (UnpackedFloat)

/-! ## The minimum -/

/-- The search ends at the first element of the smallest value. -/
theorem argmin_toSmallDataset [NanRule] {fmt : Format} {data : List (BitVec fmt.numBits)}
    (hne : data ≠ []) (hdata : ∀ x ∈ data, fmt.Finite (bitsOf x)) :
    data.argmin (fun x => fmt.value (bitsOf x)) = some (toSmallDataset fmt data).1 := by
  obtain ⟨m, l, rfl⟩ := List.exists_cons_of_ne_nil hne
  show (m :: l).argmin _ = some (l.foldl (minStep fmt) m)
  induction l using List.reverseRecOn with
  | nil => rfl
  | append_singleton l x ih =>
      -- the loop keeps the first of equal numbers, as argmin does
      have hsub : ∀ y ∈ m :: l, y ∈ m :: (l ++ [x]) := fun y hy => by
        rcases List.mem_cons.mp hy with rfl | hy
        · exact List.mem_cons_self
        · exact List.mem_cons_of_mem _ (List.mem_append_left _ hy)
      have ih := ih (List.cons_ne_nil _ _) fun y hy => hdata y (hsub y hy)
      have hm := hdata _ (hsub _ (List.argmin_mem ih))
      have hx := hdata x (by simp)
      rw [← List.cons_append, List.argmin_concat, ih, List.foldl_append]
      show (if fmt.value (bitsOf x) < fmt.value (bitsOf (l.foldl (minStep fmt) m)) then some x
        else some (l.foldl (minStep fmt) m)) = some (minStep fmt (l.foldl (minStep fmt) m) x)
      rw [minStep]
      by_cases hlt : fmt.value (bitsOf x) < fmt.value (bitsOf (l.foldl (minStep fmt) m))
      · rw [if_pos hlt, if_pos ((lt_of_finite_iff hx hm).mpr hlt)]
      · rw [if_neg hlt, if_neg ((lt_of_finite_iff hx hm).not.mpr hlt)]

/-- No number is below the minimum of its list. -/
theorem foldl_minStep_le {fmt : Format} (data : List (BitVec fmt.numBits))
    (m : BitVec fmt.numBits) :
    ∀ x ∈ m :: data,
      (ieeeUnpack fmt x).lt (ieeeUnpack fmt (data.foldl (minStep fmt) m)) = false := by
  suffices h : ∀ (seen : List (BitVec fmt.numBits)) (m : BitVec fmt.numBits),
      (∀ x ∈ seen, (ieeeUnpack fmt x).lt (ieeeUnpack fmt m) = false) →
      ∀ x ∈ seen ++ data,
        (ieeeUnpack fmt x).lt (ieeeUnpack fmt (data.foldl (minStep fmt) m)) = false from
    h [m] m (List.forall_mem_singleton.mpr (Bool.eq_false_iff.mpr (lt_irrefl_ieee m)))
  induction data with
  | nil =>
      intro seen m hseen
      rwa [List.append_nil]
  | cons y data ih =>
      intro seen m hseen
      rw [List.append_cons, List.foldl_cons]
      apply ih
      intro x hx
      rw [minStep]
      split
      · next hy =>
          rcases List.mem_append.mp hx with hx | hx
          · -- below `y` would be below the old minimum
            rw [Bool.eq_false_iff]
            intro hxy
            exact Bool.false_ne_true ((hseen x hx).symm.trans (lt_trans_ieee hxy hy))
          · rw [List.mem_singleton.mp hx]
            exact Bool.eq_false_iff.mpr (lt_irrefl_ieee y)
      · next hy =>
          rcases List.mem_append.mp hx with hx | hx
          · exact hseen x hx
          · rw [List.mem_singleton.mp hx]
            exact Bool.eq_false_iff.mpr hy

/-! ## The sign bits -/

section SignsClear

variable [NanRule] {fmt : Format} {data : List (BitVec fmt.numBits)}

/-- What `toSmallDataset_double` leaves has sign bit 0 or is written as a code.  Only a NaN
    can be an exception. -/
def SignsClear (fmt : Format) (eb : ErrorBound) (data : List (BitVec fmt.numBits)) : Prop :=
  ∀ x ∈ (toSmallDataset fmt data).2,
    (FloatArith.ieee fmt eb).ltBound ((FloatArith.ieee fmt eb).fabs x) = false → x.msb = false

/-- Only a NaN as a difference to the minimum can have its sign bit set. -/
theorem signsClear_of_nans (hfmt : fmt = double ∨ fmt = float) (eb : ErrorBound)
    (h : ∀ x ∈ data, UnpackedFloat.sub (ieeeSpec fmt) (ieeeUnpack fmt x)
      (ieeeUnpack fmt (toSmallDataset fmt data).1) = .notANumber →
        (NanRule.nan fmt x (toSmallDataset fmt data).1).msb = false) : SignsClear fmt eb data := by
  intro x hx hlarge
  obtain ⟨y, hy, rfl⟩ := List.mem_map.mp hx
  by_cases hnan : UnpackedFloat.sub (ieeeSpec fmt) (ieeeUnpack fmt y)
      (ieeeUnpack fmt (toSmallDataset fmt data).1) = .notANumber
  · exact (congrArg BitVec.msb (minus_eq_nan hnan)).trans (h y hy hnan)
  · have hle : (ieeeUnpack fmt y).lt (ieeeUnpack fmt (toSmallDataset fmt data).1) = false := by
      cases data with
      | nil => exact absurd hy List.not_mem_nil
      | cons m data => exact foldl_minStep_le data m y hy
    exact (minus_msb hfmt eb hle hnan).resolve_left
      fun hsmall => Bool.false_ne_true (hlarge.symm.trans hsmall)

theorem toSmallDataset_min_mem (hne : data ≠ [])
    (hdata : ∀ x ∈ data, fmt.Finite (bitsOf x)) : (toSmallDataset fmt data).1 ∈ data :=
  List.argmin_mem (argmin_toSmallDataset hne hdata)

/-- Differences of finite numbers are numbers. -/
theorem signsClear_of_finite (hfmt : fmt = double ∨ fmt = float) (eb : ErrorBound)
    (hdata : ∀ x ∈ data, fmt.Finite (bitsOf x)) : SignsClear fmt eb data :=
  signsClear_of_nans hfmt eb fun x hx hnan => absurd hnan (sub_ne_notANumber _ (hdata x hx)
    (hdata _ (toSmallDataset_min_mem (List.ne_nil_of_mem hx) hdata)))

end SignsClear

/-- Where no NaN has its sign bit set, the signs of all data are clear. -/
theorem signsClear_canonical {fmt : Format} (hfmt : fmt = double ∨ fmt = float) (eb : ErrorBound)
    (data : List (BitVec fmt.numBits)) : @SignsClear .canonical fmt eb data :=
  @signsClear_of_nans .canonical fmt data hfmt eb fun _ _ _ => packComponents_msb _ _ _

/-- Whether the numbers of a list are finite can be evaluated. -/
theorem finite_of_all {l : List (BitVec 64)}
    (h : (l.all fun x => decide (double.Finite (bitsOf x))) = true) :
    ∀ x ∈ l, double.Finite (bitsOf x) :=
  fun x hx => of_decide_eq_true (List.all_eq_true.mp h x hx)

/-! ## Zeros -/

/-- `-0`. -/
def negZero : BitVec 64 := 0x8000000000000000

/-- There is a `-0`, a `+0` stands before the first one, and no element is negative. -/
def PlusZeroFirst (data : List (BitVec 64)) : Prop :=
  negZero ∈ data ∧ data.idxOf 0 < data.idxOf negZero ∧ ∀ x ∈ data, 0 ≤ double.value (bitsOf x)

instance (data : List (BitVec 64)) : Decidable (PlusZeroFirst data) :=
  letI : Decidable (∀ x ∈ data, 0 ≤ double.value (bitsOf x)) := List.decidableBAll _ _
  inferInstanceAs (Decidable (_ ∧ _ ∧ _))

theorem eq_zero_of_value {x : BitVec 64} (hx : double.Finite (bitsOf x))
    (h : double.value (bitsOf x) = 0) : x = 0 ∨ x = negZero := by
  have hnat : x.toNat = x.msb.toNat * 2 ^ 63 := @toNat_of_value_zero double x hx h
  cases hb : x.msb with
  | false =>
      rw [hb, Bool.toNat_false, Nat.zero_mul] at hnat
      exact .inl (BitVec.eq_of_toNat_eq hnat)
  | true =>
      rw [hb] at hnat
      exact .inr (BitVec.eq_of_toNat_eq hnat)

theorem value_negZero : double.value (bitsOf negZero) = 0 := by decide +kernel

theorem value_zero : double.value (bitsOf (0 : BitVec 64)) = 0 := by decide +kernel

section Zeros

variable [NanRule]

/-- The minimum of a list with a `-0` is `+0` exactly if nothing is negative and a `+0`
    stands in front of every `-0`. -/
theorem min_eq_zero_iff {data : List (BitVec 64)} (hdata : ∀ x ∈ data, double.Finite (bitsOf x))
    (hneg : negZero ∈ data) : (toSmallDatasetDouble data).1 = 0 ↔ PlusZeroFirst data := by
  obtain ⟨hmem, hle, hfirst⟩ := List.argmin_eq_some_iff.mp
    (@argmin_toSmallDataset _ double data (List.ne_nil_of_mem hneg) hdata)
  change (toSmallDatasetDouble data).1 ∈ data at hmem
  change ∀ a ∈ data, double.value (bitsOf (toSmallDatasetDouble data).1) ≤
    double.value (bitsOf a) at hle
  change ∀ a ∈ data, double.value (bitsOf a) ≤ double.value (bitsOf (toSmallDatasetDouble data).1) →
    data.idxOf (toSmallDatasetDouble data).1 ≤ data.idxOf a at hfirst
  constructor
  · intro h0
    rw [h0] at hmem hle hfirst
    rw [value_zero] at hle hfirst
    refine ⟨hneg, lt_of_le_of_ne (hfirst _ hneg (le_of_eq value_negZero)) ?_, hle⟩
    intro heq
    exact absurd ((List.idxOf_inj hmem).mp heq) (by decide)
  · rintro ⟨_, hbefore, hnonneg⟩
    have hzero : (0 : BitVec 64) ∈ data := by
      rw [← List.idxOf_lt_length_iff]
      exact lt_of_lt_of_le hbefore List.idxOf_le_length
    have hvalue : double.value (bitsOf (toSmallDatasetDouble data).1) = 0 :=
      le_antisymm ((hle _ hzero).trans (le_of_eq value_zero)) (hnonneg _ hmem)
    rcases eq_zero_of_value (hdata _ hmem) hvalue with h | h
    · exact h
    · -- the first minimum would be behind a `+0`
      have hidx := hfirst _ hzero (by rw [hvalue, value_zero])
      rw [h] at hidx
      omega

/-- Only `-0 - +0` leaves a sign bit. -/
theorem small_signs_clear_iff {data : List (BitVec 64)}
    (hdata : ∀ x ∈ data, double.Finite (bitsOf x)) :
    (∀ y ∈ (toSmallDatasetDouble data).2, y.msb = false) ↔ ¬ PlusZeroFirst data := by
  -- only the minimum +0 taken from a -0 leaves a sign bit
  have hsub : ∀ x ∈ data, (minus double x (toSmallDatasetDouble data).1).msb = true ↔
      x = negZero ∧ (toSmallDatasetDouble data).1 = 0 := by
    intro x hx
    obtain ⟨hmem, hle, _⟩ := List.argmin_eq_some_iff.mp
      (@argmin_toSmallDataset _ double data (List.ne_nil_of_mem hx) hdata)
    refine minus_msb_eq_true_iff (Bool.eq_false_iff.mpr fun hlt => ?_)
      (sub_ne_notANumber _ (hdata x hx) (hdata _ hmem))
    exact absurd (hle x hx) (not_le.mpr ((lt_of_finite_iff (hdata x hx) (hdata _ hmem)).mp hlt))
  constructor
  · rintro hclear hplus
    have hmin := (min_eq_zero_iff hdata hplus.1).mpr hplus
    have hmsb := (hsub negZero hplus.1).mpr ⟨rfl, hmin⟩
    exact Bool.false_ne_true ((hclear _ (List.mem_map_of_mem hplus.1)).symm.trans hmsb)
  · intro hnot y hy
    obtain ⟨x, hx, rfl⟩ := List.mem_map.mp hy
    rw [Bool.eq_false_iff]
    intro hmsb
    obtain ⟨rfl, hmin⟩ := (hsub x hx).mp hmsb
    exact hnot ((min_eq_zero_iff hdata hx).mp hmin)

/-! ## The receiver -/

/-- The run of `myDecompress_bitwise_double_np` on the stream that
    `MPI_Send_bitwise_double_np` builds. -/
def receivedNp (eb : ErrorBound) (buf : List (BitVec 64)) :
    Except Fault (Output Unit (BitVec 64)) :=
  myDecompressBitwiseDoubleNp (FloatArith.ieee double eb)
    (myCompressBitwiseDoubleNp eb (toSmallDatasetDouble buf).2).dataBits buf.length

/-- For every list of finite doubles, in every order and with every combination of zeros: the
    shifted elements all have sign bit 0, and the receiver stays out of its exit branch, exactly
    if the list is not one in which a `+0` in front of a `-0` is the minimum. -/
theorem shifted_signs_iff (eb : ErrorBound) (buf : List (BitVec 64))
    (hbuf : ∀ x ∈ buf, double.Finite (bitsOf x)) :
    ((∀ y ∈ (toSmallDatasetDouble buf).2, y.msb = false) ↔ ¬ PlusZeroFirst buf) ∧
    (receivedNp eb buf ≠ .error (.exit "Error leading bit 1\n") ↔ ¬ PlusZeroFirst buf) := by
  have hclear := small_signs_clear_iff hbuf
  have hlen : (toSmallDatasetDouble buf).2.length = buf.length := toSmallDatasetDouble_length buf
  refine ⟨hclear, ?_⟩
  rw [← hclear, receivedNp, ← hlen]
  constructor
  · intro hrun y hy
    rw [Bool.eq_false_iff]
    exact fun hmsb => hrun (decompressNp_exits (FloatArith.ieee double eb) hy hmsb)
  · intro hsigns hexit
    obtain ⟨o, ho, _⟩ := decompressNp_values (FloatArith.ieee double eb) hsigns
    cases ho.symm.trans hexit

end Zeros

section Examples

attribute [local instance] NanRule.sse

/-- `[1, 0]` is sent and received, whichever zero it has. -/
theorem shifted_signs_iff_one_zero :
    (∀ y ∈ (toSmallDatasetDouble [0x3FF0000000000000, negZero]).2, y.msb = false) ∧
    receivedNp absErrorBound [0x3FF0000000000000, 0] ≠ .error (.exit "Error leading bit 1\n") :=
  ⟨(shifted_signs_iff absErrorBound [0x3FF0000000000000, negZero]
      (forall_mem_pair.mpr ⟨by decide +kernel, by decide +kernel⟩)).1.mpr (by decide +kernel),
    (shifted_signs_iff absErrorBound [0x3FF0000000000000, 0]
      (forall_mem_pair.mpr ⟨by decide +kernel, by decide +kernel⟩)).2.mpr (by decide +kernel)⟩

/-- `[+0, -0]` is shifted by `+0` and keeps its `-0`, and the receiver exits. -/
theorem shifted_sign_left :
    (∀ x ∈ [(0 : BitVec 64), negZero], double.Finite (bitsOf x)) ∧
    (∃ y ∈ (toSmallDatasetDouble [0, negZero]).2, y.msb = true) ∧
    receivedNp absErrorBound [0, negZero] = .error (.exit "Error leading bit 1\n") :=
  ⟨forall_mem_pair.mpr ⟨by decide +kernel, by decide +kernel⟩,
    ⟨negZero, by decide +kernel, by decide⟩, by decide +kernel⟩

end Examples

end MpiApps.Transfer
