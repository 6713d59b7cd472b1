/-
  MpiApps.Codec.IeeeSign

  The sign of what is left after the minimum has been subtracted.

  Subtraction rounds, overflows and meets infinities, but the sign of its result does not
  depend on any of that: when `x < y` is false, `x - y` has sign bit 0, unless it is a zero
  or a NaN (`minus_msb`).  Comparisons are those of an order on everything but NaNs
  (`lt_iff_extendedValue`), so no number of a list is below the minimum that is found in it.
-/

import MpiApps.Codec.IeeeOrder
import Mathlib.Order.WithBot

namespace MpiApps.Codec

open MpiApps.BinaryFormat
open Float.Model (UnpackedFloat)
open Float.Model.UnpackedFloat (Sign)

variable {fmt : Format}

/-! ## The order of the extended numbers -/

/-- The place of a number in the order with both infinities; a NaN has none. -/
def extendedValue : UnpackedFloat → Option (WithBot (WithTop ℚ))
  | .notANumber => none
  | .infinity .negative => some ⊥
  | .infinity .positive => some ((⊤ : WithTop ℚ) : WithBot (WithTop ℚ))
  | .zero _ => some (((0 : ℚ) : WithTop ℚ) : WithBot (WithTop ℚ))
  | .finite s m e _ =>
    some ((((s.apply m : ℤ) * (2 : ℚ) ^ e : ℚ) : WithTop ℚ) : WithBot (WithTop ℚ))

@[simp] theorem extendedValue_notANumber : extendedValue .notANumber = none := rfl

@[simp] theorem extendedValue_infinity_negative :
    extendedValue (.infinity .negative) = some ⊥ := rfl

@[simp] theorem extendedValue_infinity_positive :
    extendedValue (.infinity .positive) = some ((⊤ : WithTop ℚ) : WithBot (WithTop ℚ)) := rfl

theorem ieeeUnpack_of_not_finite {x : BitVec fmt.numBits} (hx : ¬ fmt.Finite (bitsOf x)) :
    (∃ s, ieeeUnpack fmt x = .infinity s) ∨ ieeeUnpack fmt x = .notANumber := by
  have hexp : (@UnpackedFloat.unpackExponent (ieeeSpec fmt) x).toNat =
      fmt.expoField (bitsOf x) :=
    (@unpackExponent_toNat (ieeeSpec fmt) x).trans (Format.expoField_bitsOf x).symm
  have hones : @UnpackedFloat.unpackExponent (ieeeSpec fmt) x = -1#_ := by
    apply BitVec.eq_of_toNat_eq
    rw [hexp, BitVec.neg_one_eq_allOnes, BitVec.toNat_allOnes]
    exact not_not.mp hx
  unfold ieeeUnpack
  delta UnpackedFloat.unpack
  dsimp only
  rw [if_pos hones]
  split
  · exact .inl ⟨_, rfl⟩
  · exact .inr rfl

theorem signOf_apply (b : Bool) (n : Int) : (signOf b).apply n = if b then -n else n := by
  cases b <;> rfl

theorem extendedValue_of_finite {x : BitVec fmt.numBits} (hx : fmt.Finite (bitsOf x)) :
    extendedValue (ieeeUnpack fmt x) =
      some (((fmt.value (bitsOf x) : ℚ) : WithTop ℚ) : WithBot (WithTop ℚ)) := by
  rw [ieeeUnpack_of_finite hx, Format.value_eq_magnitude]
  by_cases hs : 0 < fmt.signif (bitsOf x)
  · rw [dif_pos hs]
    show some ((((((signOf x.msb).apply (fmt.signif (bitsOf x)) : ℤ) : ℚ) *
      2 ^ fmt.scale (bitsOf x) : ℚ) : WithTop ℚ) : WithBot (WithTop ℚ)) = _
    rw [signOf_apply, Format.magnitude]
    cases x.msb
    · simp
    · simp
  · rw [dif_neg hs, Format.magnitude_eq_zero hs, neg_zero, ite_self]
    rfl

/-- A finite number against an infinity. -/
theorem compare_infinity {x : BitVec fmt.numBits} (hx : fmt.Finite (bitsOf x)) (s : Sign) :
    (ieeeUnpack fmt x).compare (.infinity s) =
        some (match s with | .negative => .gt | .positive => .lt) ∧
      (UnpackedFloat.infinity s).compare (ieeeUnpack fmt x) =
        some (match s with | .negative => .lt | .positive => .gt) := by
  rw [ieeeUnpack_of_finite hx]
  by_cases hm : 0 < fmt.signif (bitsOf x)
  · rw [dif_pos hm]
    cases x.msb <;> cases s <;> exact ⟨rfl, rfl⟩
  · rw [dif_neg hm]
    cases s <;> exact ⟨rfl, rfl⟩

theorem compare_notANumber (u : UnpackedFloat) :
    UnpackedFloat.notANumber.compare u = none ∧ u.compare .notANumber = none := by
  cases u with
  | finite s m e h => cases s <;> exact ⟨rfl, rfl⟩
  | infinity s => cases s <;> exact ⟨rfl, rfl⟩
  | zero s => cases s <;> exact ⟨rfl, rfl⟩
  | notANumber => exact ⟨rfl, rfl⟩

/-- The machine compares extended numbers, and a NaN is not below anything. -/
theorem lt_iff_extendedValue (x y : BitVec fmt.numBits) :
    (ieeeUnpack fmt x).lt (ieeeUnpack fmt y) = true ↔
      ∃ a b, extendedValue (ieeeUnpack fmt x) = some a ∧
        extendedValue (ieeeUnpack fmt y) = some b ∧ a < b := by
  have htop : ∀ q : ℚ, ((q : WithTop ℚ) : WithBot (WithTop ℚ)) < ((⊤ : WithTop ℚ) : WithBot _) :=
    fun q => WithBot.coe_lt_coe.mpr (WithTop.coe_lt_top q)
  have hbot : ∀ q : WithTop ℚ, (⊥ : WithBot (WithTop ℚ)) < q := WithBot.bot_lt_coe
  by_cases hx : fmt.Finite (bitsOf x) <;> by_cases hy : fmt.Finite (bitsOf y)
  · rw [lt_of_finite_iff hx hy, extendedValue_of_finite hx, extendedValue_of_finite hy]
    simp
  · rw [extendedValue_of_finite hx]
    rcases ieeeUnpack_of_not_finite hy with ⟨s, hs⟩ | hs
    · rw [hs, UnpackedFloat.lt, (compare_infinity hx s).1]
      cases s
      · simp
      · simpa using htop _
    · rw [hs, UnpackedFloat.lt, (compare_notANumber _).2]
      simp
  · rw [extendedValue_of_finite hy]
    rcases ieeeUnpack_of_not_finite hx with ⟨s, hs⟩ | hs
    · rw [hs, UnpackedFloat.lt, (compare_infinity hy s).2]
      cases s
      · exact iff_of_true rfl ⟨_, _, rfl, rfl, hbot _⟩
      · exact iff_of_false Bool.false_ne_true (by
          rintro ⟨a, b, ha, hb, hab⟩
          cases ha
          cases hb
          exact absurd (htop _) hab.asymm)
    · rw [hs, UnpackedFloat.lt, (compare_notANumber _).1]
      simp
  · rcases ieeeUnpack_of_not_finite hx with ⟨s, hs⟩ | hs
    · rcases ieeeUnpack_of_not_finite hy with ⟨t, ht⟩ | ht
      · rw [hs, ht]
        -- only the negative infinity is below the positive one
        cases s <;> cases t
        · exact iff_of_false Bool.false_ne_true (by simp)
        · exact iff_of_true rfl ⟨_, _, rfl, rfl, hbot _⟩
        · exact iff_of_false Bool.false_ne_true (by simp)
        · exact iff_of_false Bool.false_ne_true (by simp)
      · rw [ht, UnpackedFloat.lt, (compare_notANumber _).2]
        simp
    · rw [hs, UnpackedFloat.lt, (compare_notANumber _).1]
      simp

theorem lt_trans_ieee {x y z : BitVec fmt.numBits}
    (hxy : (ieeeUnpack fmt x).lt (ieeeUnpack fmt y) = true)
    (hyz : (ieeeUnpack fmt y).lt (ieeeUnpack fmt z) = true) :
    (ieeeUnpack fmt x).lt (ieeeUnpack fmt z) = true := by
  obtain ⟨a, b, ha, hb, hab⟩ := (lt_iff_extendedValue x y).mp hxy
  obtain ⟨b', c, hb', hc, hbc⟩ := (lt_iff_extendedValue y z).mp hyz
  obtain rfl : b = b' := Option.some.inj (hb.symm.trans hb')
  exact (lt_iff_extendedValue x z).mpr ⟨a, c, ha, hc, hab.trans hbc⟩

theorem lt_irrefl_ieee (x : BitVec fmt.numBits) :
    ¬ (ieeeUnpack fmt x).lt (ieeeUnpack fmt x) = true := by
  intro h
  obtain ⟨a, b, ha, hb, hab⟩ := (lt_iff_extendedValue x x).mp h
  obtain rfl : a = b := Option.some.inj (ha.symm.trans hb)
  exact lt_irrefl a hab

/-! ## The sign of a difference -/

/-- A number without a minus sign, or a zero. -/
def Nonnegative : UnpackedFloat → Prop
  | .infinity s => s = .positive
  | .finite s _ _ _ => s = .positive
  | .zero _ => True
  | .notANumber => True

theorem nonnegative_zero_or_finite (m : Nat) (e : Int) :
    Nonnegative (if h : m = 0 then .zero .positive
      else .finite .positive m e (Nat.pos_of_ne_zero h)) := by
  by_cases h : m = 0
  · rw [dif_pos h]
    trivial
  · rw [dif_neg h]
    rfl

theorem roundWithAccuracy_nonnegative (spec : Float.Model.Format) (m : Nat) (e : Int)
    (a : UnpackedFloat.Accuracy) :
    Nonnegative (UnpackedFloat.roundWithAccuracy spec .positive m e a) :=
  nonnegative_zero_or_finite _ _

/-- Rounding keeps the sign. -/
theorem normalize_nonnegative (spec : Float.Model.Format) {m : Int} (hm : 0 ≤ m) (e : Int) :
    Nonnegative (UnpackedFloat.normalize spec m e .positive) := by
  delta UnpackedFloat.normalize
  split
  · next h => exact absurd (compare_lt_iff_lt.mp h) (by omega)
  · trivial
  · exact roundWithAccuracy_nonnegative spec _ _ _

/-- A significand at a smaller scale. -/
theorem decreaseExponent_value (m : Nat) {e e' : Int} (h : e' ≤ e) :
    ((UnpackedFloat.decreaseExponent m e e').1 : ℚ) * 2 ^ e' = m * 2 ^ e := by
  have he : e = (e - e').toNat + e' := by omega
  delta UnpackedFloat.decreaseExponent
  dsimp only
  rw [Nat.shiftLeft_eq, Nat.cast_mul, Nat.cast_pow, Nat.cast_ofNat, mul_assoc, ← zpow_natCast,
    ← zpow_add₀ two_ne_zero, ← he]

/-- The exact difference of two finite numbers, the smaller one subtracted. -/
theorem sub_finite_eq_normalize (spec : Float.Model.Format) {s t : Sign} {m n : Nat} {e f : Int}
    {hm : 0 < m} {hn : 0 < n}
    (h : ((t.apply n : ℤ) : ℚ) * 2 ^ f ≤ ((s.apply m : ℤ) : ℚ) * 2 ^ e) :
    ∃ d : ℤ, 0 ≤ d ∧ UnpackedFloat.sub spec (.finite s m e hm) (.finite t n f hn) =
      UnpackedFloat.normalize spec d (min e f) .positive := by
  refine ⟨s.apply (UnpackedFloat.decreaseExponent m e (min e f)).1 -
    t.apply (UnpackedFloat.decreaseExponent n f (min e f)).1, ?_, rfl⟩
  have hcast : ∀ (r : Sign) (k : Nat), ((r.apply k : ℤ) : ℚ) = ((r.apply 1 : ℤ) : ℚ) * k := by
    intro r k
    cases r
    · show (((-(k : ℤ) : ℤ)) : ℚ) = ((-1 : ℤ) : ℚ) * k
      push_cast
      ring
    · show (((k : ℤ)) : ℚ) = ((1 : ℤ) : ℚ) * k
      push_cast
      ring
  -- both significands at the smaller scale
  have hp : (0 : ℚ) < 2 ^ min e f := by positivity
  rw [hcast, mul_assoc, ← decreaseExponent_value n (min_le_right e f), ← mul_assoc, ← hcast,
    hcast s, mul_assoc, ← decreaseExponent_value m (min_le_left e f), ← mul_assoc, ← hcast] at h
  have hle := le_of_mul_le_mul_right h hp
  have := Int.cast_le.mp hle
  omega

theorem sub_finite_nonnegative (spec : Float.Model.Format) {s t : Sign} {m n : Nat} {e f : Int}
    {hm : 0 < m} {hn : 0 < n}
    (h : ((t.apply n : ℤ) : ℚ) * 2 ^ f ≤ ((s.apply m : ℤ) : ℚ) * 2 ^ e) :
    Nonnegative (UnpackedFloat.sub spec (.finite s m e hm) (.finite t n f hn)) := by
  obtain ⟨d, hd, hsub⟩ := @sub_finite_eq_normalize spec s t m n e f hm hn h
  rw [hsub]
  exact normalize_nonnegative spec hd _

theorem zero_or_finite_ne_notANumber (s : Sign) (m : Nat) (e : Int) :
    (if h : m = 0 then UnpackedFloat.zero s
      else .finite s m e (Nat.pos_of_ne_zero h)) ≠ .notANumber := by
  by_cases h : m = 0
  · rw [dif_pos h]
    intro hz
    cases hz
  · rw [dif_neg h]
    intro hz
    cases hz

/-- Rounding an exact number gives a number. -/
theorem normalize_ne_notANumber (spec : Float.Model.Format) (m e : Int) (s : Sign) :
    UnpackedFloat.normalize spec m e s ≠ .notANumber := by
  delta UnpackedFloat.normalize
  split
  · exact zero_or_finite_ne_notANumber _ _ _
  · intro hz
    cases hz
  · exact zero_or_finite_ne_notANumber _ _ _

/-- The difference of finite numbers is a number, be it one that is packed as an infinity. -/
theorem sub_ne_notANumber (spec : Float.Model.Format) {x y : BitVec fmt.numBits}
    (hx : fmt.Finite (bitsOf x)) (hy : fmt.Finite (bitsOf y)) :
    UnpackedFloat.sub spec (ieeeUnpack fmt x) (ieeeUnpack fmt y) ≠ .notANumber := by
  rw [ieeeUnpack_of_finite hx, ieeeUnpack_of_finite hy]
  by_cases hsx : 0 < fmt.signif (bitsOf x)
  · rw [dif_pos hsx]
    by_cases hsy : 0 < fmt.signif (bitsOf y)
    · rw [dif_pos hsy]
      exact normalize_ne_notANumber spec _ _ _
    · rw [dif_neg hsy]
      exact UnpackedFloat.noConfusion
  · rw [dif_neg hsx]
    by_cases hsy : 0 < fmt.signif (bitsOf y)
    · rw [dif_pos hsy]
      exact UnpackedFloat.noConfusion
    · rw [dif_neg hsy]
      cases signOf x.msb <;> cases signOf y.msb <;> exact UnpackedFloat.noConfusion

/-- The value of a signed significand has the sign. -/
theorem signed_value_pos {m : Nat} (hm : 0 < m) (e : Int) :
    0 < (((Sign.positive).apply m : ℤ) : ℚ) * 2 ^ e ∧
      (((Sign.negative).apply m : ℤ) : ℚ) * 2 ^ e < 0 := by
  have hp : (0 : ℚ) < m * 2 ^ e := mul_pos (Nat.cast_pos.mpr hm) (by positivity)
  have hneg : (((Sign.negative).apply m : ℤ) : ℚ) * 2 ^ e = -(m * 2 ^ e) := by
    show (((-(m : ℤ) : ℤ)) : ℚ) * 2 ^ e = _
    push_cast
    ring
  exact ⟨hp, by rw [hneg]; exact neg_neg_of_pos hp⟩

/-- A number less one that is not above it. -/
theorem sub_nonnegative_of_le (spec : Float.Model.Format) {u v : UnpackedFloat}
    (h : ∀ a b, extendedValue u = some a → extendedValue v = some b → ¬ a < b) :
    Nonnegative (UnpackedFloat.sub spec u v) := by
  have htop : ∀ q : ℚ, ((q : WithTop ℚ) : WithBot (WithTop ℚ)) < ((⊤ : WithTop ℚ) : WithBot _) :=
    fun q => WithBot.coe_lt_coe.mpr (WithTop.coe_lt_top q)
  cases u with
  | notANumber => cases v <;> exact trivial
  | infinity s =>
      cases s with
      | negative =>
          -- nothing but itself and a NaN is not above it
          cases v with
          | notANumber => exact trivial
          | infinity t =>
              cases t with
              | negative => exact trivial
              | positive => exact absurd (WithBot.bot_lt_coe _) (h _ _ rfl rfl)
          | zero t => exact absurd (WithBot.bot_lt_coe _) (h _ _ rfl rfl)
          | finite t n f hn => exact absurd (WithBot.bot_lt_coe _) (h _ _ rfl rfl)
      | positive =>
          cases v with
          | notANumber => exact trivial
          | infinity t => cases t <;> first | exact trivial | exact rfl
          | zero t => exact rfl
          | finite t n f hn => exact rfl
  | zero s =>
      cases v with
      | notANumber => exact trivial
      | infinity t =>
          cases t with
          | negative => exact rfl
          | positive => exact absurd (htop 0) (h _ _ rfl rfl)
      | zero t => cases s <;> cases t <;> exact trivial
      | finite t n f hn =>
          have hle := h _ _ rfl rfl
          rw [WithBot.coe_lt_coe, WithTop.coe_lt_coe] at hle
          cases t with
          | negative => exact rfl
          | positive => exact absurd (signed_value_pos hn f).1 hle
  | finite s m e hm =>
      cases v with
      | notANumber => exact trivial
      | infinity t =>
          cases t with
          | negative => exact rfl
          | positive => exact absurd (htop _) (h _ _ rfl rfl)
      | zero t =>
          have hle := h _ _ rfl rfl
          rw [WithBot.coe_lt_coe, WithTop.coe_lt_coe] at hle
          cases s with
          | negative => exact absurd (signed_value_pos hm e).2 hle
          | positive => exact rfl
      | finite t n f hn =>
          have hle := h _ _ rfl rfl
          rw [WithBot.coe_lt_coe, WithTop.coe_lt_coe, not_lt] at hle
          exact sub_finite_nonnegative spec hle

theorem packComponents_msb (spec : Float.Model.Format) (e : BitVec spec.exponentBits)
    (m : BitVec spec.mantissaBitsWithoutImplicit) :
    (UnpackedFloat.packComponents spec .positive e m).msb = false := by
  delta UnpackedFloat.packComponents
  rw [BitVec.msb_append, if_neg (by omega), BitVec.msb_append, if_neg one_ne_zero]
  rfl

/-- Packing keeps the sign. -/
theorem pack_msb (spec : Float.Model.Format) {u : UnpackedFloat} (hu : Nonnegative u) :
    (UnpackedFloat.pack spec u).msb = false ∨ ∃ s, u = .zero s := by
  cases u with
  | notANumber => exact .inl (packComponents_msb spec _ _)
  | infinity s =>
      obtain rfl : s = .positive := hu
      exact .inl (packComponents_msb spec _ _)
  | zero s => exact .inr ⟨s, rfl⟩
  | finite s m e hm =>
      obtain rfl : s = .positive := hu
      refine .inl ?_
      delta UnpackedFloat.pack
      dsimp only
      -- overflow, a normal number, a subnormal one
      split
      · exact packComponents_msb spec _ _
      · split
        · exact packComponents_msb spec _ _
        · exact packComponents_msb spec _ _

/-- Both zeros are below the error bound, in the formats of the programs. -/
theorem ltBound_zero (hfmt : fmt = double ∨ fmt = float) (eb : ErrorBound) (s : Sign) :
    (FloatArith.ieee fmt eb).ltBound
      ((FloatArith.ieee fmt eb).fabs (ieeePack fmt (.zero s))) = true := by
  have hzero : (FloatArith.ieee fmt eb).fabs (ieeePack fmt (.zero s)) = 0 ∧
      ieeeUnpack fmt 0 = .zero .positive := by
    rcases hfmt with rfl | rfl
    · cases s <;> exact ⟨rfl, rfl⟩
    · cases s <;> exact ⟨rfl, rfl⟩
  rw [hzero.1]
  show compareBound (fun a b => decide (a < b)) eb.absErrBound (ieeeUnpack fmt 0) = true
  rw [hzero.2]
  exact decide_eq_true eb.pos

/-- Where the difference is a number, the rule for NaNs does not matter. -/
theorem minus_eq_sub [NanRule] {x y : BitVec fmt.numBits} (eb : ErrorBound)
    (h : UnpackedFloat.sub (ieeeSpec fmt) (ieeeUnpack fmt x) (ieeeUnpack fmt y) ≠ .notANumber) :
    minus fmt x y = (FloatArith.ieee fmt eb).sub x y :=
  packOrNan_of_ne h

theorem minus_eq_nan [NanRule] {x y : BitVec fmt.numBits}
    (h : UnpackedFloat.sub (ieeeSpec fmt) (ieeeUnpack fmt x) (ieeeUnpack fmt y) = .notANumber) :
    minus fmt x y = NanRule.nan fmt x y := by
  rw [minus, h]
  rfl

theorem ieeeUnpack_ne_notANumber {x : BitVec fmt.numBits} (hx : fmt.Finite (bitsOf x)) :
    ieeeUnpack fmt x ≠ .notANumber := by
  rw [ieeeUnpack_of_finite hx]
  by_cases hs : 0 < fmt.signif (bitsOf x)
  · rw [dif_pos hs]
    exact UnpackedFloat.noConfusion
  · rw [dif_neg hs]
    exact UnpackedFloat.noConfusion

theorem sub_ne_notANumber_of_minus [NanRule] {x y : BitVec fmt.numBits}
    (h : fmt.Finite (bitsOf (minus fmt x y))) :
    UnpackedFloat.sub (ieeeSpec fmt) (ieeeUnpack fmt x) (ieeeUnpack fmt y) ≠ .notANumber := by
  intro hnan
  rw [minus_eq_nan hnan] at h
  exact ieeeUnpack_ne_notANumber h (NanRule.isNan fmt x y)

/-- A difference `x - y` with `x < y` false has sign bit 0, unless it is a zero or no number. -/
theorem minus_msb [NanRule] (hfmt : fmt = double ∨ fmt = float) (eb : ErrorBound)
    {x y : BitVec fmt.numBits} (h : (ieeeUnpack fmt x).lt (ieeeUnpack fmt y) = false)
    (hnan : UnpackedFloat.sub (ieeeSpec fmt) (ieeeUnpack fmt x) (ieeeUnpack fmt y) ≠
      .notANumber) :
    (FloatArith.ieee fmt eb).ltBound ((FloatArith.ieee fmt eb).fabs (minus fmt x y)) = true ∨
      (minus fmt x y).msb = false := by
  rw [Bool.eq_false_iff, ne_eq, lt_iff_extendedValue] at h
  have hsub := @sub_nonnegative_of_le (ieeeSpec fmt) (ieeeUnpack fmt x) (ieeeUnpack fmt y)
    fun a b ha hb hab => h ⟨a, b, ha, hb, hab⟩
  rw [minus, packOrNan_of_ne hnan]
  rcases pack_msb (ieeeSpec fmt) hsub with hmsb | ⟨s, hs⟩
  · exact .inr hmsb
  · rw [hs]
    exact .inl (ltBound_zero hfmt eb s)

/-! ## Negative zeros -/

theorem zero_or_finite_ne_negative_zero (m : Nat) (e : Int) :
    (if h : m = 0 then UnpackedFloat.zero .positive
      else .finite .positive m e (Nat.pos_of_ne_zero h)) ≠ .zero .negative := by
  by_cases h : m = 0
  · rw [dif_pos h]
    intro hz
    cases hz
  · rw [dif_neg h]
    intro hz
    cases hz

/-- Rounding a number without a minus sign leaves no `-0`. -/
theorem normalize_ne_negative_zero (spec : Float.Model.Format) {m : Int} (hm : 0 ≤ m) (e : Int) :
    UnpackedFloat.normalize spec m e .positive ≠ .zero .negative := by
  delta UnpackedFloat.normalize
  split
  · next h => exact absurd (compare_lt_iff_lt.mp h) (by omega)
  · intro hz
    cases hz
  · exact zero_or_finite_ne_negative_zero _ _

/-- A number less one that is not above it is `-0` only if it is `-0` itself, less `+0`. -/
theorem sub_eq_negative_zero (spec : Float.Model.Format) {u v : UnpackedFloat}
    (h : ∀ a b, extendedValue u = some a → extendedValue v = some b → ¬ a < b)
    (hz : UnpackedFloat.sub spec u v = .zero .negative) :
    u = .zero .negative ∧ v = .zero .positive := by
  cases u with
  | notANumber => cases v <;> cases hz
  | infinity s =>
      cases v with
      | infinity t => cases s <;> cases t <;> cases hz
      | notANumber => cases hz
      | zero t => cases hz
      | finite t n f hn => cases hz
  | zero s =>
      cases v with
      | infinity t => cases hz
      | notANumber => cases hz
      | zero t =>
          cases s <;> cases t
          · cases hz
          · exact ⟨rfl, rfl⟩
          · cases hz
          · cases hz
      | finite t n f hn => cases hz
  | finite s m e hm =>
      cases v with
      | infinity t => cases hz
      | notANumber => cases hz
      | zero t => cases hz
      | finite t n f hn =>
          -- a difference of finite numbers is rounded, and an exact zero gets the sign +
          have hle := h _ _ rfl rfl
          rw [WithBot.coe_lt_coe, WithTop.coe_lt_coe, not_lt] at hle
          obtain ⟨d, hd, hsub⟩ := @sub_finite_eq_normalize spec s t m n e f hm hn hle
          exact absurd (hsub.symm.trans hz) (normalize_ne_negative_zero spec hd _)

/-- The bit pattern that is unpacked to a zero. -/
theorem toNat_of_unpack_zero {x : BitVec fmt.numBits} {s : Sign}
    (h : ieeeUnpack fmt x = .zero s) :
    s = signOf x.msb ∧ x.toNat = x.msb.toNat * 2 ^ (fmt.expoBits + fmt.mantBits) := by
  have hfin : fmt.Finite (bitsOf x) := by
    by_contra hx
    rcases ieeeUnpack_of_not_finite hx with ⟨t, ht⟩ | ht
    · rw [ht] at h
      cases h
    · rw [ht] at h
      cases h
  rw [ieeeUnpack_of_finite hfin] at h
  by_cases hs : 0 < fmt.signif (bitsOf x)
  · rw [dif_pos hs] at h
    cases h
  · rw [dif_neg hs] at h
    -- a significand of 0 needs both fields 0
    have hpow := Nat.two_pow_pos fmt.mantBits
    have hfields := Format.bitsOf_fields x
    rw [Format.signif] at hs
    split at hs
    · next he =>
        rw [he, Nat.zero_mul, show fmt.mantField (bitsOf x) = 0 by omega] at hfields
        exact ⟨(UnpackedFloat.zero.inj h).symm, by omega⟩
    · omega

/-- A number of value zero is a sign bit and nothing else. -/
theorem toNat_of_value_zero {x : BitVec fmt.numBits} (hx : fmt.Finite (bitsOf x))
    (h : fmt.value (bitsOf x) = 0) :
    x.toNat = x.msb.toNat * 2 ^ (fmt.expoBits + fmt.mantBits) := by
  have hs : ¬ 0 < fmt.signif (bitsOf x) := by
    intro hs
    have hpos := Format.magnitude_pos hs
    rw [Format.value_eq_magnitude] at h
    split at h
    · linarith
    · linarith
  refine (@toNat_of_unpack_zero fmt x (signOf x.msb) ?_).2
  rw [ieeeUnpack_of_finite hx, dif_neg hs]

/-- A difference `x - y` with `x < y` false has sign bit 1 exactly if it is `-0 - +0`. -/
theorem minus_msb_eq_true_iff [NanRule] {x y : BitVec double.numBits}
    (h : (ieeeUnpack double x).lt (ieeeUnpack double y) = false)
    (hnan : UnpackedFloat.sub (ieeeSpec double) (ieeeUnpack double x) (ieeeUnpack double y) ≠
      .notANumber) :
    (minus double x y).msb = true ↔ x = 0x8000000000000000 ∧ y = 0 := by
  rw [minus_eq_sub absErrorBound hnan]
  rw [Bool.eq_false_iff, ne_eq, lt_iff_extendedValue] at h
  have hle : ∀ a b, extendedValue (ieeeUnpack double x) = some a →
      extendedValue (ieeeUnpack double y) = some b → ¬ a < b :=
    fun a b ha hb hab => h ⟨a, b, ha, hb, hab⟩
  constructor
  · intro hmsb
    -- a sign bit can only come from the difference -0
    rcases pack_msb (ieeeSpec double) (sub_nonnegative_of_le (ieeeSpec double) hle)
      with hpos | ⟨s, hs⟩
    · exact absurd (hpos.symm.trans hmsb) Bool.false_ne_true
    · have hneg : s = .negative := by
        cases s with
        | negative => rfl
        | positive =>
            have hzero : (FloatArith.ieee double absErrorBound).sub x y = 0 := by
              show ieeePack double (.sub (ieeeSpec double) (ieeeUnpack double x)
                (ieeeUnpack double y)) = 0
              rw [hs]
              rfl
            rw [hzero] at hmsb
            cases hmsb
      rw [hneg] at hs
      obtain ⟨hx, hy⟩ := sub_eq_negative_zero (ieeeSpec double) hle hs
      obtain ⟨hsx, hnx⟩ := toNat_of_unpack_zero hx
      obtain ⟨hsy, hny⟩ := toNat_of_unpack_zero hy
      constructor
      · cases hb : x.msb with
        | false =>
            rw [hb] at hsx
            cases hsx
        | true =>
            rw [hb] at hnx
            exact BitVec.eq_of_toNat_eq hnx
      · cases hb : y.msb with
        | true =>
            rw [hb] at hsy
            cases hsy
        | false =>
            rw [hb, Bool.toNat_false, Nat.zero_mul] at hny
            exact BitVec.eq_of_toNat_eq hny
  · rintro ⟨rfl, rfl⟩
    show (ieeePack double (.sub (ieeeSpec double) (ieeeUnpack double 0x8000000000000000)
      (ieeeUnpack double 0))).msb = true
    decide +kernel

theorem minus_negative_zero [NanRule] :
    minus double 0x8000000000000000 0 = 0x8000000000000000 := by
  rw [minus_eq_sub absErrorBound (sub_ne_notANumber _ (by decide +kernel) (by decide +kernel))]
  decide +kernel

end MpiApps.Codec
