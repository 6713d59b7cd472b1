/-
  MpiApps.Codec.IeeeOrder

  What the comparisons of the machine decide.

  A finite bit pattern is unpacked to its significand and its scale, and numbers in this
  form are compared by scale first.  On finite numbers this is the order of the values
  (`compare_of_finite`), which is all that the codecs need to know about it.
-/

import MpiApps.Codec.Ieee

namespace MpiApps.Codec

open MpiApps.BinaryFormat
open Float.Model (UnpackedFloat)
open Float.Model.UnpackedFloat (Sign)

variable {fmt : Format}

/-! ## Unpacking -/

/-- The sign that a sign bit stands for. -/
def signOf (b : Bool) : Sign := if b then .negative else .positive

theorem unpackExponent_toNat {spec : Float.Model.Format} (b : BitVec spec.numBits) :
    (UnpackedFloat.unpackExponent b).toNat =
      b.toNat / 2 ^ spec.mantissaBitsWithoutImplicit % 2 ^ spec.exponentBits := by
  have hE := spec.he
  have hwidth : spec.mantissaBitsWithoutImplicit + spec.exponentBits - 1 -
      spec.mantissaBitsWithoutImplicit + 1 = spec.exponentBits := by omega
  rw [UnpackedFloat.unpackExponent, BitVec.toNat_cast, BitVec.extractLsb_toNat,
    Nat.shiftRight_eq_div_pow, hwidth]

theorem unpackMantissa_toNat {spec : Float.Model.Format} (b : BitVec spec.numBits) :
    (UnpackedFloat.unpackMantissa b).toNat = b.toNat % 2 ^ spec.mantissaBitsWithoutImplicit := by
  have hM := spec.hm
  have hwidth : spec.mantissaBitsWithoutImplicit - 1 - 0 + 1 =
      spec.mantissaBitsWithoutImplicit := by omega
  rw [UnpackedFloat.unpackMantissa, BitVec.toNat_cast, BitVec.extractLsb_toNat,
    Nat.shiftRight_zero, hwidth]

theorem unpackSign_toNat {spec : Float.Model.Format} (b : BitVec spec.numBits) :
    (UnpackedFloat.unpackSign b).toNat =
      b.toNat / 2 ^ (spec.mantissaBitsWithoutImplicit + spec.exponentBits) % 2 := by
  delta UnpackedFloat.unpackSign
  rw [BitVec.toNat_cast, BitVec.extractLsb_toNat,
    Nat.shiftRight_eq_div_pow, Nat.sub_self, Nat.zero_add, pow_one]

theorem unpackSign_eq (x : BitVec fmt.numBits) :
    Sign.ofBitVec (@UnpackedFloat.unpackSign (ieeeSpec fmt) x) = signOf x.msb := by
  have hfields := Format.bitsOf_fields x
  have hm := fmt.mantField_lt (bitsOf x)
  have he := @Format.expoField_lt fmt (bitsOf x)
  -- the two lower fields fill what is below the sign bit
  have hlow : fmt.expoField (bitsOf x) * 2 ^ fmt.mantBits + fmt.mantField (bitsOf x) <
      2 ^ (fmt.mantBits + fmt.expoBits) := by
    rw [Nat.add_comm fmt.mantBits, pow_add]
    calc fmt.expoField (bitsOf x) * 2 ^ fmt.mantBits + fmt.mantField (bitsOf x)
        < fmt.expoField (bitsOf x) * 2 ^ fmt.mantBits + 2 ^ fmt.mantBits := by omega
      _ = (fmt.expoField (bitsOf x) + 1) * 2 ^ fmt.mantBits := by ring
      _ ≤ 2 ^ fmt.expoBits * 2 ^ fmt.mantBits := Nat.mul_le_mul_right _ he
  have hbit : @UnpackedFloat.unpackSign (ieeeSpec fmt) x = BitVec.ofBool x.msb := by
    apply BitVec.eq_of_toNat_eq
    rw [BitVec.toNat_ofBool]
    refine (@unpackSign_toNat (ieeeSpec fmt) x).trans ?_
    show x.toNat / 2 ^ (fmt.mantBits + fmt.expoBits) % 2 = x.msb.toNat
    rw [hfields, Nat.add_comm fmt.expoBits, Nat.add_assoc, Nat.mul_comm,
      Nat.mul_add_div (by positivity), Nat.div_eq_of_lt hlow, Nat.add_zero]
    cases x.msb <;> rfl
  rw [Sign.ofBitVec, hbit, signOf]
  cases x.msb <;> rfl

theorem one_append_toNat {w : Nat} (v : BitVec w) : (1#1 ++ v).toNat = 2 ^ w + v.toNat := by
  rw [BitVec.toNat_append, ← Nat.shiftLeft_add_eq_or_of_lt v.isLt, Nat.shiftLeft_eq]
  exact congrArg (· + _) (Nat.one_mul _)

theorem finite_congr {s : Sign} {m m' : Nat} {e e' : Int} {h : 0 < m} {h' : 0 < m'} (hm : m = m')
    (he : e = e') : UnpackedFloat.finite s m e h = .finite s m' e' h' := by
  subst hm he
  rfl

/-- A finite bit pattern is unpacked to its significand and scale. -/
theorem ieeeUnpack_of_finite {x : BitVec fmt.numBits} (hx : fmt.Finite (bitsOf x)) :
    ieeeUnpack fmt x =
      if h : 0 < fmt.signif (bitsOf x) then
        .finite (signOf x.msb) (fmt.signif (bitsOf x)) (fmt.scale (bitsOf x)) h
      else .zero (signOf x.msb) := by
  have hexp : (@UnpackedFloat.unpackExponent (ieeeSpec fmt) x).toNat =
      fmt.expoField (bitsOf x) :=
    (@unpackExponent_toNat (ieeeSpec fmt) x).trans
    (Format.expoField_bitsOf x).symm
  have hmant : (@UnpackedFloat.unpackMantissa (ieeeSpec fmt) x).toNat =
      fmt.mantField (bitsOf x) :=
    (@unpackMantissa_toNat (ieeeSpec fmt) x).trans
    (Format.mantField_bitsOf x).symm
  have hinf : @UnpackedFloat.unpackExponent (ieeeSpec fmt) x ≠ -1#_ := by
    intro h
    have h' := congrArg BitVec.toNat h
    rw [hexp, BitVec.neg_one_eq_allOnes, BitVec.toNat_allOnes] at h'
    exact hx h'
  have hzero : @UnpackedFloat.unpackExponent (ieeeSpec fmt) x = 0#_ ↔
      fmt.expoField (bitsOf x) = 0 := by
    rw [← hexp, ← BitVec.toNat_inj]
    rfl
  have hmzero : @UnpackedFloat.unpackMantissa (ieeeSpec fmt) x = 0#_ ↔
      fmt.mantField (bitsOf x) = 0 := by
    rw [← hmant, ← BitVec.toNat_inj]
    rfl
  have hone : (1#1 ++ @UnpackedFloat.unpackMantissa (ieeeSpec fmt) x).toNat =
      2 ^ fmt.mantBits + fmt.mantField (bitsOf x) := by
    refine (one_append_toNat _).trans ?_
    rw [hmant]
    rfl
  unfold ieeeUnpack
  delta UnpackedFloat.unpack
  dsimp only
  rw [if_neg hinf, unpackSign_eq]
  -- exponent field 0: a subnormal number or a zero; else the leading 1 is implied
  by_cases he : fmt.expoField (bitsOf x) = 0
  · rw [if_pos (hzero.mpr he)]
    by_cases hm : fmt.mantField (bitsOf x) = 0
    · rw [dif_pos (hmzero.mpr hm), dif_neg]
      simp [Format.signif, he, hm]
    · rw [dif_neg (hmzero.not.mpr hm), dif_pos]
      · refine finite_congr ?_ ?_
        · rw [hmant, Format.signif, if_pos he, Nat.zero_add]
        · rw [hexp, he, Format.scale, he]
          show ((0 : Nat) : Int) - ((fmt.bias : Int) + fmt.mantBits) + 1 = _
          omega
      · rw [Format.signif, if_pos he]
        omega
  · rw [if_neg (hzero.not.mpr he), dif_pos]
    · refine finite_congr ?_ ?_
      · rw [Format.signif, if_neg he]
        exact hone
      · rw [hexp, Format.scale]
        show (fmt.expoField (bitsOf x) : Int) - ((fmt.bias : Int) + fmt.mantBits) = _
        omega
    · rw [Format.signif, if_neg he]
      have := Nat.two_pow_pos fmt.mantBits
      omega

/-! ## Comparison -/

/-- Canonical numbers are compared by scale and then by significand. -/
theorem compare_magnitude (l l' : List Bool) :
    (compare (fmt.scale l) (fmt.scale l')).then (compare (fmt.signif l) (fmt.signif l')) =
      compare (fmt.magnitude l) (fmt.magnitude l') := by
  rcases lt_trichotomy (fmt.scale l) (fmt.scale l') with h | h | h
  · rw [compare_lt_iff_lt.mpr h, compare_lt_iff_lt.mpr (Format.magnitude_lt_of_scale_lt h)]
    rfl
  · have hp : (0 : ℚ) < 2 ^ fmt.scale l' := by positivity
    rw [compare_eq_iff_eq.mpr h, Format.magnitude, Format.magnitude, h]
    show compare _ _ = _
    rcases lt_trichotomy (fmt.signif l) (fmt.signif l') with hs | hs | hs
    · rw [compare_lt_iff_lt.mpr hs, eq_comm, compare_lt_iff_lt]
      gcongr
    · rw [hs, compare_eq_iff_eq.mpr rfl, compare_eq_iff_eq.mpr rfl]
    · rw [compare_gt_iff_gt.mpr hs, eq_comm, compare_gt_iff_gt]
      show _ < _
      gcongr
  · rw [compare_gt_iff_gt.mpr h, compare_gt_iff_gt.mpr (Format.magnitude_lt_of_scale_lt h)]
    rfl

theorem compare_neg_neg (a b : ℚ) : compare (-a) (-b) = (compare a b).swap := by
  rcases lt_trichotomy a b with h | h | h
  · rw [compare_lt_iff_lt.mpr h, compare_gt_iff_gt.mpr (neg_lt_neg h)]
    rfl
  · rw [h, compare_eq_iff_eq.mpr rfl, compare_eq_iff_eq.mpr rfl]
    rfl
  · rw [compare_gt_iff_gt.mpr h, compare_lt_iff_lt.mpr (neg_lt_neg h)]
    rfl

/-- On finite numbers the machine compares values. -/
theorem compare_of_finite {x y : BitVec fmt.numBits} (hx : fmt.Finite (bitsOf x))
    (hy : fmt.Finite (bitsOf y)) :
    (ieeeUnpack fmt x).compare (ieeeUnpack fmt y) =
      some (compare (fmt.value (bitsOf x)) (fmt.value (bitsOf y))) := by
  rw [ieeeUnpack_of_finite hx, ieeeUnpack_of_finite hy, Format.value_eq_magnitude,
    Format.value_eq_magnitude]
  -- zeros first lose their sign, then the signs decide unless both are equal
  by_cases hsx : 0 < fmt.signif (bitsOf x) <;> by_cases hsy : 0 < fmt.signif (bitsOf y)
  · have hp := Format.magnitude_pos hsx
    have hp' := Format.magnitude_pos hsy
    rw [dif_pos hsx, dif_pos hsy]
    cases x.msb <;> cases y.msb
    · exact congrArg some (compare_magnitude _ _)
    · exact congrArg some (compare_gt_iff_gt.mpr ((neg_neg_of_pos hp').trans hp)).symm
    · exact congrArg some (compare_lt_iff_lt.mpr ((neg_neg_of_pos hp).trans hp')).symm
    · refine congrArg some (Eq.trans ?_ (compare_neg_neg _ _).symm)
      exact congrArg Ordering.swap (compare_magnitude _ _)
  · have hp := Format.magnitude_pos hsx
    rw [dif_pos hsx, dif_neg hsy, Format.magnitude_eq_zero hsy, neg_zero, ite_self]
    cases x.msb
    · exact congrArg some (compare_gt_iff_gt.mpr hp).symm
    · exact congrArg some (compare_lt_iff_lt.mpr (neg_neg_of_pos hp)).symm
  · have hp := Format.magnitude_pos hsy
    rw [dif_neg hsx, dif_pos hsy, Format.magnitude_eq_zero hsx, neg_zero, ite_self]
    cases y.msb
    · exact congrArg some (compare_lt_iff_lt.mpr hp).symm
    · exact congrArg some (compare_gt_iff_gt.mpr (neg_neg_of_pos hp)).symm
  · rw [dif_neg hsx, dif_neg hsy, Format.magnitude_eq_zero hsx, Format.magnitude_eq_zero hsy,
      neg_zero, ite_self, ite_self, compare_eq_iff_eq.mpr rfl]
    rfl

theorem lt_of_finite_iff {x y : BitVec fmt.numBits} (hx : fmt.Finite (bitsOf x))
    (hy : fmt.Finite (bitsOf y)) :
    (ieeeUnpack fmt x).lt (ieeeUnpack fmt y) = true ↔
      fmt.value (bitsOf x) < fmt.value (bitsOf y) := by
  rw [UnpackedFloat.lt, compare_of_finite hx hy, ← compare_lt_iff_lt]
  simp

/-- The comparison of a finite number with a constant is that of its value. -/
theorem compareBound_of_finite (cmp : ℚ → ℚ → Bool) (bound : ℚ) {x : BitVec fmt.numBits}
    (hx : fmt.Finite (bitsOf x)) :
    compareBound cmp bound (ieeeUnpack fmt x) = cmp (fmt.value (bitsOf x)) bound := by
  rw [ieeeUnpack_of_finite hx, Format.value_eq_magnitude]
  by_cases hs : 0 < fmt.signif (bitsOf x)
  · rw [dif_pos hs, Format.magnitude]
    cases x.msb
    · show cmp (((fmt.signif (bitsOf x) : ℤ) : ℚ) * 2 ^ fmt.scale (bitsOf x)) bound = _
      rw [Int.cast_natCast]
      rfl
    · show cmp (((-(fmt.signif (bitsOf x) : ℤ) : ℤ) : ℚ) * 2 ^ fmt.scale (bitsOf x)) bound = _
      rw [Int.cast_neg, Int.cast_natCast, neg_mul]
      rfl
  · rw [dif_neg hs, Format.magnitude_eq_zero hs, neg_zero, ite_self]
    rfl

end MpiApps.Codec
