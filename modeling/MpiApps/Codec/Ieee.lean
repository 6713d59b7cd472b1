/-
  MpiApps.Codec.Ieee

  IEEE 754 arithmetic on bit patterns, rounding to nearest even.

  Lean's own model of floating-point numbers is generic in the format: a bit
  pattern is unpacked, the operation is carried out exactly and rounded, and the
  result is packed again.  `FloatArith.ieee` runs the codecs on it.  All its NaNs are one and the
  same; where the bits of a NaN matter, `minus` and `plus` take them from a `NanRule`.
-/

import MpiApps.Codec.Arith

namespace MpiApps.Codec

open MpiApps.BinaryFormat
open Float.Model (UnpackedFloat)

/-- The format in the terms of the model. -/
def ieeeSpec (fmt : Format) : Float.Model.Format where
  mantissaBitsWithoutImplicit := fmt.mantBits
  hm := by have := fmt.mant_wide; omega
  exponentBits := fmt.expoBits
  he := by have := fmt.expo_wide; omega

/-- The number behind a bit pattern. -/
def ieeeUnpack (fmt : Format) (x : BitVec fmt.numBits) : UnpackedFloat :=
  UnpackedFloat.unpack (ieeeSpec fmt) x

/-- The bit pattern of a rounded number. -/
def ieeePack (fmt : Format) (u : UnpackedFloat) : BitVec fmt.numBits :=
  UnpackedFloat.pack (ieeeSpec fmt) u

/-- Comparison of a number with a rational constant, false on a NaN.  The constant
    is a `double`; a `float` is promoted before it is compared with it, which is exact. -/
def compareBound (cmp : ℚ → ℚ → Bool) (bound : ℚ) : UnpackedFloat → Bool
  | .notANumber => false
  | .infinity .negative => true
  | .infinity .positive => false
  | .zero _ => cmp 0 bound
  | .finite s m e _ => cmp ((s.apply m : ℤ) * (2 : ℚ) ^ e) bound

/-- The arithmetic of `double` and `float`. -/
def FloatArith.ieee (fmt : Format) (eb : ErrorBound) : FloatArith fmt (BitVec fmt.numBits) where
  errorBound := eb
  ofBits x := x
  ofInt n := ieeePack fmt (.ofInt (ieeeSpec fmt) n)
  add x y := ieeePack fmt (.add (ieeeSpec fmt) (ieeeUnpack fmt x) (ieeeUnpack fmt y))
  sub x y := ieeePack fmt (.sub (ieeeSpec fmt) (ieeeUnpack fmt x) (ieeeUnpack fmt y))
  mul x y := ieeePack fmt (.mul (ieeeSpec fmt) (ieeeUnpack fmt x) (ieeeUnpack fmt y))
  fabs x := ieeePack fmt (ieeeUnpack fmt x).abs
  lt x y := (ieeeUnpack fmt x).lt (ieeeUnpack fmt y)
  eq x y := (ieeeUnpack fmt x).beq (ieeeUnpack fmt y)
  ltBound x := compareBound (fun a b => decide (a < b)) eb.absErrBound (ieeeUnpack fmt x)
  leBound x := compareBound (fun a b => decide (a ≤ b)) eb.absErrBound (ieeeUnpack fmt x)

-- 3 * 0.5 - 1.25 = 0.25
example : (FloatArith.ieee double absErrorBound).sub
    ((FloatArith.ieee double absErrorBound).mul
      ((FloatArith.ieee double absErrorBound).ofInt 3) 0x3FE0000000000000) 0x3FF4000000000000 =
    0x3FD0000000000000 := by decide +kernel

/-! ## NaNs by their bits -/

theorem ieeeUnpack_eq_notANumber_iff {fmt : Format} {x : BitVec fmt.numBits} :
    ieeeUnpack fmt x = .notANumber ↔
      @UnpackedFloat.unpackExponent (ieeeSpec fmt) x = -1#_ ∧
        @UnpackedFloat.unpackMantissa (ieeeSpec fmt) x ≠ 0#_ := by
  unfold ieeeUnpack
  delta UnpackedFloat.unpack
  by_cases he : @UnpackedFloat.unpackExponent (ieeeSpec fmt) x = -1#_
  · rw [if_pos he]
    by_cases hm : @UnpackedFloat.unpackMantissa (ieeeSpec fmt) x = 0#_
    · rw [if_pos hm]
      exact iff_of_false UnpackedFloat.noConfusion fun h => h.2 hm
    · rw [if_neg hm]
      exact iff_of_true rfl ⟨he, hm⟩
  · rw [if_neg he]
    refine iff_of_false (fun h => ?_) fun h => he h.1
    by_cases h0 : @UnpackedFloat.unpackExponent (ieeeSpec fmt) x = 0#_
    · rw [if_pos h0] at h
      by_cases hm : @UnpackedFloat.unpackMantissa (ieeeSpec fmt) x = 0#_
      · rw [dif_pos hm] at h
        cases h
      · rw [dif_neg hm] at h
        cases h
    · rw [if_neg h0] at h
      cases h

theorem unpackExponent_or {spec : Float.Model.Format} (x y : BitVec spec.numBits) :
    UnpackedFloat.unpackExponent (x ||| y) =
      UnpackedFloat.unpackExponent x ||| UnpackedFloat.unpackExponent y := by
  ext i hi
  simp [UnpackedFloat.unpackExponent, BitVec.extractLsb]

theorem unpackMantissa_or {spec : Float.Model.Format} (x y : BitVec spec.numBits) :
    UnpackedFloat.unpackMantissa (x ||| y) =
      UnpackedFloat.unpackMantissa x ||| UnpackedFloat.unpackMantissa y := by
  ext i hi
  simp [UnpackedFloat.unpackMantissa, BitVec.extractLsb]

/-- A NaN stays one when bits are set. -/
theorem or_notANumber {fmt : Format} {x : BitVec fmt.numBits} (hx : ieeeUnpack fmt x = .notANumber)
    (y : BitVec fmt.numBits) : ieeeUnpack fmt (x ||| y) = .notANumber := by
  rw [ieeeUnpack_eq_notANumber_iff] at hx ⊢
  obtain ⟨he, hm⟩ := hx
  constructor
  · refine (@unpackExponent_or (ieeeSpec fmt) x y).trans ?_
    rw [he, BitVec.neg_one_eq_allOnes, BitVec.allOnes_or]
  · intro h
    have hor := (@unpackMantissa_or (ieeeSpec fmt) x y).symm.trans h
    exact hm (BitVec.or_eq_zero_iff.mp hor).1

theorem unpackExponent_ones {spec : Float.Model.Format} {k : Nat}
    (hk : k ≤ spec.mantissaBitsWithoutImplicit) :
    UnpackedFloat.unpackExponent (BitVec.allOnes spec.numBits <<< k) = -1#_ := by
  have hE := spec.he
  rw [BitVec.neg_one_eq_allOnes]
  ext i hi
  simp [UnpackedFloat.unpackExponent, BitVec.extractLsb, Float.Model.Format.numBits]
  omega

theorem unpackMantissa_ones {spec : Float.Model.Format} {k : Nat}
    (hk : k < spec.mantissaBitsWithoutImplicit) :
    UnpackedFloat.unpackMantissa (BitVec.allOnes spec.numBits <<< k) ≠ 0#_ := by
  intro h
  have hbit := congrArg (BitVec.getLsbD · k) h
  simp [UnpackedFloat.unpackMantissa, BitVec.extractLsb, Float.Model.Format.numBits] at hbit
  omega

theorem shifted_notANumber (fmt : Format) :
    ieeeUnpack fmt (BitVec.allOnes fmt.numBits <<< (fmt.mantBits - 1)) = .notANumber := by
  have hM := fmt.mant_wide
  rw [ieeeUnpack_eq_notANumber_iff]
  exact ⟨@unpackExponent_ones (ieeeSpec fmt) _ (Nat.sub_le _ _),
    @unpackMantissa_ones (ieeeSpec fmt) _ (by show _ < fmt.mantBits; omega)⟩

/-- Which NaN the machine returns for an operation on `x` and `y` that has no number as its
    result.  IEEE 754 leaves its sign and its payload open. -/
class NanRule where
  nan (fmt : Format) (x y : BitVec fmt.numBits) : BitVec fmt.numBits
  isNan (fmt : Format) (x y : BitVec fmt.numBits) : ieeeUnpack fmt (nan fmt x y) = .notANumber

/-- The rule of x86: the first operand that is a NaN, made quiet, else the default NaN, whose
    sign bit is set. -/
@[reducible] def NanRule.sse : NanRule where
  nan fmt x y :=
    match ieeeUnpack fmt x, ieeeUnpack fmt y with
    | .notANumber, _ => x ||| BitVec.twoPow fmt.numBits (fmt.mantBits - 1)
    | _, .notANumber => y ||| BitVec.twoPow fmt.numBits (fmt.mantBits - 1)
    | _, _ => BitVec.allOnes fmt.numBits <<< (fmt.mantBits - 1)
  isNan fmt x y := by
    split
    · next hx => exact or_notANumber hx _
    · next hy _ => exact or_notANumber hy _
    · exact shifted_notANumber fmt

/-- The rule of machines with one NaN, whose sign bit is not set. -/
@[reducible] def NanRule.canonical : NanRule where
  nan fmt _ _ := ieeePack fmt .notANumber
  isNan fmt _ _ := by
    have hM := (ieeeSpec fmt).hm
    rw [ieeeUnpack_eq_notANumber_iff]
    refine ⟨UnpackedFloat.unpackExponent_packComponents, ?_⟩
    intro h
    have hbit := congrArg (BitVec.getLsbD · ((ieeeSpec fmt).mantissaBitsWithoutImplicit - 1))
      (UnpackedFloat.unpackMantissa_packComponents.symm.trans h)
    simp at hbit
    omega

section NanRule

variable [NanRule] (fmt : Format) (x y : BitVec fmt.numBits)

/-- The bits of a result. -/
def packOrNan : UnpackedFloat → BitVec fmt.numBits
  | .notANumber => NanRule.nan fmt x y
  | u => ieeePack fmt u

/-- `x - y` -/
def minus : BitVec fmt.numBits :=
  packOrNan fmt x y (.sub (ieeeSpec fmt) (ieeeUnpack fmt x) (ieeeUnpack fmt y))

/-- `x + y` -/
def plus : BitVec fmt.numBits :=
  packOrNan fmt x y (.add (ieeeSpec fmt) (ieeeUnpack fmt x) (ieeeUnpack fmt y))

variable {fmt x y}

theorem packOrNan_of_ne {u : UnpackedFloat} (hu : u ≠ .notANumber) :
    packOrNan fmt x y u = ieeePack fmt u := by
  cases u with
  | notANumber => exact absurd rfl hu
  | infinity s => rfl
  | zero s => rfl
  | finite s m e hm => rfl

end NanRule

-- the infinity less itself
example : @minus .sse double 0x7FF0000000000000 0x7FF0000000000000 = 0xFFF8000000000000 := by
  decide +kernel

/-! ## Numbers by their bits -/

/-- A floating-point number of a format. -/
structure Ieee (fmt : Format) where
  bits : BitVec fmt.numBits
  deriving DecidableEq

abbrev Double : Type := Ieee double

abbrev Single : Type := Ieee float

namespace Ieee

variable {fmt : Format}

/-- A binary operation with its result rounded. -/
def lift (op : Float.Model.Format → UnpackedFloat → UnpackedFloat → UnpackedFloat)
    (x y : Ieee fmt) : Ieee fmt :=
  ⟨ieeePack fmt (op (ieeeSpec fmt) (ieeeUnpack fmt x.bits) (ieeeUnpack fmt y.bits))⟩

instance : Add (Ieee fmt) := ⟨lift .add⟩

instance : Sub (Ieee fmt) := ⟨lift .sub⟩

instance : Mul (Ieee fmt) := ⟨lift .mul⟩

instance : Div (Ieee fmt) := ⟨lift .div⟩

/-- The conversion from an integer. -/
def ofNat (n : Nat) : Ieee fmt := ⟨ieeePack fmt (.ofInt (ieeeSpec fmt) n)⟩

instance : Zero (Ieee fmt) := ⟨ofNat 0⟩

def fabs (x : Ieee fmt) : Ieee fmt := ⟨ieeePack fmt (ieeeUnpack fmt x.bits).abs⟩

def sqrt (x : Ieee fmt) : Ieee fmt :=
  ⟨ieeePack fmt ((ieeeUnpack fmt x.bits).sqrt (ieeeSpec fmt))⟩

def lt (x y : Ieee fmt) : Bool := (ieeeUnpack fmt x.bits).lt (ieeeUnpack fmt y.bits)

/-- `x == 0` -/
def isZero (x : Ieee fmt) : Bool := (ieeeUnpack fmt x.bits).beq (.zero .positive)

end Ieee

end MpiApps.Codec
