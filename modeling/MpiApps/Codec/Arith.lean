/-
  MpiApps.Codec.Arith

  The floating-point arithmetic that the predictive codecs run on, and the
  history of the last three values that both sides keep.

  The codecs never look inside a value: they add, subtract, multiply, take
  absolute values and compare.  `FloatArith` collects these operations, so that
  what does not depend on rounding is proved once for every arithmetic, and
  `FloatArith.exact` is the one in which prediction sums are exact.
-/

import MpiApps.Codec.FloatBits

namespace MpiApps.Codec

open MpiApps.BinaryFormat

/-! ## Arithmetic -/

/-- The operations on `double` or `float` that the codecs use. -/
structure FloatArith (fmt : Format) (V : Type) where
  errorBound : ErrorBound
  ofBits : BitVec fmt.numBits → V
  ofInt : Int → V
  add : V → V → V
  sub : V → V → V
  mul : V → V → V
  fabs : V → V
  lt : V → V → Bool
  eq : V → V → Bool
  /-- `x < absErrorBound` -/
  ltBound : V → Bool
  /-- `x <= absErrorBound` -/
  leBound : V → Bool

/-- Exact rational arithmetic on the numbers that finite bit patterns stand for. -/
def FloatArith.exact (fmt : Format) (eb : ErrorBound) : FloatArith fmt ℚ where
  errorBound := eb
  ofBits x := fmt.value (bitsOf x)
  ofInt n := n
  add x y := x + y
  sub x y := x - y
  mul x y := x * y
  fabs x := |x|
  lt x y := decide (x < y)
  eq x y := decide (x = y)
  ltBound x := decide (x < eb.absErrBound)
  leBound x := decide (x ≤ eb.absErrBound)

/-! ## History -/

/-- `before_value1`, `before_value2`, `before_value3`, the latest first. -/
structure History (V : Type) where
  beforeValue1 : V
  beforeValue2 : V
  beforeValue3 : V
  deriving DecidableEq, Repr

section History

variable {fmt : Format} {V : Type} (A : FloatArith fmt V)

/-- `before_value1=-1, before_value2=-1, before_value3=-1`. -/
def History.init : History V := ⟨A.ofInt (-1), A.ofInt (-1), A.ofInt (-1)⟩

/-- The test for a slot that has no value yet. -/
def History.unset (v : V) : Bool := A.eq v (A.ofInt (-1))

/-- `before_value3 == -1 || before_value2 == -1 || before_value1 == -1`. -/
def History.anyUnset (h : History V) : Bool :=
  History.unset A h.beforeValue3 || History.unset A h.beforeValue2 ||
    History.unset A h.beforeValue1

/-- Put a value into the first slot that counts as unset, the third one first. -/
def History.fill (h : History V) (v : V) : History V :=
  if History.unset A h.beforeValue3 then { h with beforeValue3 := v }
  else if History.unset A h.beforeValue2 then { h with beforeValue2 := v }
  else if History.unset A h.beforeValue1 then { h with beforeValue1 := v }
  else h

/-- Move every value one slot on and put the new one first. -/
def History.shift (h : History V) (v : V) : History V := ⟨v, h.beforeValue1, h.beforeValue2⟩

/-- The update of the decompressors: fill while a slot is unset, then shift. -/
def History.push (h : History V) (v : V) : History V :=
  if History.unset A h.beforeValue3 then { h with beforeValue3 := v }
  else if History.unset A h.beforeValue2 then { h with beforeValue2 := v }
  else if History.unset A h.beforeValue1 then { h with beforeValue1 := v }
  else h.shift v

theorem History.push_of_anyUnset {h : History V} (hu : h.anyUnset A = true) (v : V) :
    h.push A v = h.fill A v := by
  unfold History.push History.fill
  split
  · rfl
  · split
    · rfl
    · split
      · rfl
      · simp_all [History.anyUnset]

theorem History.push_of_allSet {h : History V} (hu : h.anyUnset A = false) (v : V) :
    h.push A v = h.shift v := by
  simp only [History.anyUnset, Bool.or_eq_false_iff] at hu
  simp [History.push, hu]

/-- `2*before_value1 - before_value2`. -/
def History.predict2 (h : History V) : V :=
  A.sub (A.mul (A.ofInt 2) h.beforeValue1) h.beforeValue2

/-- `3*before_value1 - 3*before_value2 + before_value3`. -/
def History.predict3 (h : History V) : V :=
  A.add (A.sub (A.mul (A.ofInt 3) h.beforeValue1) (A.mul (A.ofInt 3) h.beforeValue2))
    h.beforeValue3

end History

end MpiApps.Codec
