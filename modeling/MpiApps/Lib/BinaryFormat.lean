/-
  MpiApps.Lib.BinaryFormat

  Binary floating-point formats read off bit strings, most significant bit first.

  A format has one sign bit, `expoBits` exponent bits and `mantBits` mantissa
  bits.  `Format.value` is the rational a finite bit string stands for.  The
  results are the ones a codec that drops low mantissa bits needs: bit strings and
  bit vectors are in bijection, dropped bits replaced by a midpoint move the value
  by at most half of what was dropped, and a large value has a large exponent.
-/

import Mathlib.Algebra.Order.Field.Rat
import Mathlib.Algebra.Order.Field.Basic
import Mathlib.Algebra.Order.Field.Power
import Mathlib.Data.List.Basic
import Mathlib.Tactic.Ring
import Mathlib.Tactic.Linarith
import Mathlib.Tactic.Positivity
import Mathlib.Tactic.NormNum
import Mathlib.Tactic.GCongr

namespace MpiApps.BinaryFormat

/-! ## Bit strings as naturals -/

/-- The natural written by a bit string, most significant bit first. -/
def natOfBits (l : List Bool) : Nat := l.foldl (fun acc b => 2 * acc + b.toNat) 0

@[simp] theorem natOfBits_nil : natOfBits [] = 0 := rfl

theorem natOfBits_concat (l : List Bool) (b : Bool) :
    natOfBits (l ++ [b]) = 2 * natOfBits l + b.toNat := by
  simp [natOfBits, List.foldl_append]

theorem natOfBits_append (xs ys : List Bool) :
    natOfBits (xs ++ ys) = natOfBits xs * 2 ^ ys.length + natOfBits ys := by
  induction ys using List.reverseRecOn with
  | nil => simp
  | append_singleton ys b ih =>
      rw [← List.append_assoc, natOfBits_concat, ih, natOfBits_concat, List.length_append,
        List.length_singleton, pow_succ]
      ring

theorem natOfBits_cons (b : Bool) (l : List Bool) :
    natOfBits (b :: l) = b.toNat * 2 ^ l.length + natOfBits l := by
  rw [← List.singleton_append, natOfBits_append]
  simp [natOfBits]

theorem natOfBits_lt (l : List Bool) : natOfBits l < 2 ^ l.length := by
  induction l using List.reverseRecOn with
  | nil => simp
  | append_singleton l b ih =>
      rw [natOfBits_concat, List.length_append, List.length_singleton, pow_succ]
      have hb : b.toNat ≤ 1 := Bool.toNat_le b
      omega

@[simp] theorem natOfBits_replicate_false (n : Nat) :
    natOfBits (List.replicate n false) = 0 := by
  induction n with
  | zero => rfl
  | succ n ih => rw [List.replicate_succ, natOfBits_cons, ih]; simp

/-- A string that starts with ones writes a large number. -/
theorem le_natOfBits_of_ones {l : List Bool} {k : Nat} (hk : k ≤ l.length)
    (h : (l.take k).all id = true) : 2 ^ l.length - 2 ^ (l.length - k) ≤ natOfBits l := by
  have hones : ∀ m : List Bool, m.all id = true → natOfBits m + 1 = 2 ^ m.length := by
    intro m
    induction m with
    | nil => intro _; rfl
    | cons b m ih =>
        intro hm
        obtain ⟨hb, hm'⟩ := (Bool.and_eq_true _ _).mp (List.all_cons ▸ hm)
        have hb' : b = true := hb
        rw [natOfBits_cons, hb', List.length_cons, pow_succ, Bool.toNat_true, one_mul,
          Nat.add_assoc, ih hm']
        omega
  have htake := hones (l.take k) h
  rw [List.length_take, Nat.min_eq_left hk] at htake
  have hsplit : 2 ^ l.length = 2 ^ k * 2 ^ (l.length - k) := by
    rw [← pow_add]
    congr 1
    omega
  conv_rhs => rw [← List.take_append_drop k l, natOfBits_append, List.length_drop]
  rw [hsplit, ← htake, Nat.add_mul, one_mul]
  omega

theorem natOfBits_testBit (l : List Bool) (i : Nat) (hi : i < l.length) :
    (natOfBits l).testBit i = l[l.length - 1 - i] := by
  induction l using List.reverseRecOn generalizing i with
  | nil => simp at hi
  | append_singleton l b ih =>
      rw [natOfBits_concat]
      cases i with
      | zero =>
          cases b <;> simp [Nat.testBit_zero]
      | succ i =>
          have hi' : i < l.length := by simpa using hi
          have hdiv : (2 * natOfBits l + b.toNat) / 2 = natOfBits l := by
            have hb : b.toNat ≤ 1 := Bool.toNat_le b
            omega
          rw [Nat.testBit_succ, hdiv, ih i hi']
          rw [List.getElem_append_left (by simp; omega)]
          congr 1
          simp
          omega

/-! ## Bit strings and bit vectors -/

/-- The bits of a vector, most significant first. -/
def bitsOf {w : Nat} (x : BitVec w) : List Bool := (List.range w).map x.getMsbD

/-- The vector with the given bits, most significant first. -/
def vecOf (w : Nat) (l : List Bool) : BitVec w := BitVec.ofNat w (natOfBits l)

@[simp] theorem bitsOf_length {w : Nat} (x : BitVec w) : (bitsOf x).length = w := by
  simp [bitsOf]

theorem getLsbD_vecOf {w : Nat} {l : List Bool} (hl : l.length = w) {i : Nat} (hi : i < w) :
    (vecOf w l).getLsbD i = l[w - 1 - i] := by
  subst hl
  rw [vecOf, BitVec.getLsbD_ofNat, natOfBits_testBit l i hi]
  simp [hi]

@[simp] theorem vecOf_bitsOf {w : Nat} (x : BitVec w) : vecOf w (bitsOf x) = x := by
  apply BitVec.eq_of_getLsbD_eq
  intro i hi
  rw [getLsbD_vecOf (bitsOf_length x) hi]
  simp only [bitsOf, List.getElem_map, List.getElem_range, BitVec.getMsbD]
  rw [decide_eq_true (by omega : w - 1 - i < w), Bool.true_and]
  congr 1
  omega

@[simp] theorem bitsOf_vecOf {w : Nat} {l : List Bool} (hl : l.length = w) :
    bitsOf (vecOf w l) = l := by
  apply List.ext_getElem
  · simp [hl]
  · intro i hi hi'
    have hiw : i < w := by simpa using hi
    simp only [bitsOf, List.getElem_map, List.getElem_range, BitVec.getMsbD]
    rw [decide_eq_true hiw, Bool.true_and, getLsbD_vecOf hl (by omega)]
    congr 1
    omega

theorem natOfBits_bitsOf {w : Nat} (x : BitVec w) : natOfBits (bitsOf x) = x.toNat := by
  have h := congrArg BitVec.toNat (vecOf_bitsOf x)
  have hlt := natOfBits_lt (bitsOf x)
  rw [bitsOf_length] at hlt
  rw [vecOf, BitVec.toNat_ofNat, Nat.mod_eq_of_lt hlt] at h
  exact h

theorem headD_bitsOf {w : Nat} (hw : 0 < w) (x : BitVec w) : (bitsOf x).headD false = x.msb := by
  obtain ⟨n, rfl⟩ : ∃ n, w = n + 1 := ⟨w - 1, by omega⟩
  rw [bitsOf, List.range_succ_eq_map, List.map_cons]
  rfl

/-! ## Formats -/

/-- A binary interchange format, wide enough to leave room for the bookkeeping
    of the codecs that work on it. -/
structure Format where
  expoBits : Nat
  mantBits : Nat
  expo_wide : 8 ≤ expoBits
  mant_wide : 9 ≤ mantBits

/-- IEEE binary64. -/
def double : Format := ⟨11, 52, by decide, by decide⟩

/-- IEEE binary32. -/
def float : Format := ⟨8, 23, by decide, by decide⟩

namespace Format

variable (fmt : Format)

/-- Number of bits of a value. -/
abbrev numBits : Nat := 1 + fmt.expoBits + fmt.mantBits

theorem numBits_eq : fmt.numBits = 1 + fmt.expoBits + fmt.mantBits := rfl

/-- The exponent bias. -/
def bias : Nat := 2 ^ (fmt.expoBits - 1) - 1

theorem bias_ge : 127 ≤ fmt.bias := by
  have h : 2 ^ 7 ≤ 2 ^ (fmt.expoBits - 1) :=
    Nat.pow_le_pow_right (by decide) (by have := fmt.expo_wide; omega)
  unfold bias
  omega

/-- The biased exponent of a bit string. -/
def expoField (l : List Bool) : Nat := natOfBits ((l.drop 1).take fmt.expoBits)

/-- The trailing mantissa of a bit string. -/
def mantField (l : List Bool) : Nat := natOfBits ((l.drop (1 + fmt.expoBits)).take fmt.mantBits)

/-- The integer significand: the leading one is implicit unless the exponent is zero. -/
def signif (l : List Bool) : Nat :=
  (if fmt.expoField l = 0 then 0 else 2 ^ fmt.mantBits) + fmt.mantField l

/-- The power of two that the significand is scaled by. -/
def scale (l : List Bool) : ℤ := max (fmt.expoField l : ℤ) 1 - fmt.bias - fmt.mantBits

/-- The rational a finite bit string stands for. -/
def value (l : List Bool) : ℚ :=
  (if l.headD false then -1 else 1) * ((fmt.signif l : ℚ) * 2 ^ fmt.scale l)

/-- Neither infinite nor a NaN: the exponent is not all ones. -/
def Finite (l : List Bool) : Prop := fmt.expoField l ≠ 2 ^ fmt.expoBits - 1

instance (l : List Bool) : Decidable (fmt.Finite l) := inferInstanceAs (Decidable (_ ≠ _))

/-! ## Fields of an assembled bit string -/

variable {fmt}

theorem expoField_mk (s : Bool) {e : List Bool} (t : List Bool) (he : e.length = fmt.expoBits) :
    fmt.expoField (s :: (e ++ t)) = natOfBits e := by
  rw [expoField, List.drop_one, List.tail_cons, ← he, List.take_left]

theorem mantField_mk (s : Bool) {e t : List Bool} (he : e.length = fmt.expoBits)
    (ht : t.length = fmt.mantBits) : fmt.mantField (s :: (e ++ t)) = natOfBits t := by
  rw [mantField, Nat.add_comm, List.drop_succ_cons, ← he, List.drop_left, ← ht, List.take_length]

theorem mantField_lt (l : List Bool) : fmt.mantField l < 2 ^ fmt.mantBits := by
  refine lt_of_lt_of_le (natOfBits_lt _) (Nat.pow_le_pow_right (by decide) ?_)
  simp

theorem signif_lt (l : List Bool) : fmt.signif l < 2 ^ (fmt.mantBits + 1) := by
  have h := fmt.mantField_lt l
  unfold signif
  rw [pow_succ]
  split <;> omega

/-- A value is below the next power of two of its exponent. -/
theorem value_lt {l : List Bool} (h : l.headD false = false) :
    fmt.value l < 2 ^ (max (fmt.expoField l : ℤ) 1 - fmt.bias + 1) := by
  have hs : (fmt.signif l : ℚ) < 2 ^ ((fmt.mantBits + 1 : ℕ) : ℤ) := by
    rw [zpow_natCast]
    exact_mod_cast fmt.signif_lt l
  have hp : (0 : ℚ) < 2 ^ fmt.scale l := by positivity
  rw [value, h, if_neg (by decide), one_mul]
  calc (fmt.signif l : ℚ) * 2 ^ fmt.scale l
      < 2 ^ ((fmt.mantBits + 1 : ℕ) : ℤ) * 2 ^ fmt.scale l := by gcongr
    _ = 2 ^ (max (fmt.expoField l : ℤ) 1 - fmt.bias + 1) := by
        rw [← zpow_add₀ (by norm_num)]
        congr 1
        rw [scale]
        push_cast
        ring

/-- Two bit strings with the same sign and exponent differ by the scaled
    difference of their mantissas. -/
theorem value_sub_value (s : Bool) {e t t' : List Bool} (he : e.length = fmt.expoBits)
    (ht : t.length = fmt.mantBits) (ht' : t'.length = fmt.mantBits) :
    |fmt.value (s :: (e ++ t)) - fmt.value (s :: (e ++ t'))| =
      |(natOfBits t : ℚ) - natOfBits t'| *
        2 ^ (max (natOfBits e : ℤ) 1 - fmt.bias - fmt.mantBits) := by
  have hp : (0 : ℚ) < 2 ^ (max (natOfBits e : ℤ) 1 - fmt.bias - fmt.mantBits) := by positivity
  have hsign : |(if (s :: (e ++ t)).headD false then (-1 : ℚ) else 1)| = 1 := by
    cases s <;> simp
  have hsigns : (if (s :: (e ++ t')).headD false then (-1 : ℚ) else 1) =
      if (s :: (e ++ t)).headD false then (-1 : ℚ) else 1 := rfl
  rw [value, value, hsigns, ← mul_sub, abs_mul, hsign, one_mul]
  rw [signif, signif, scale, scale, expoField_mk s _ he, expoField_mk s _ he,
    mantField_mk s he ht, mantField_mk s he ht', ← sub_mul, abs_mul, abs_of_pos hp]
  congr 2
  push_cast
  ring

/-- Replacing the mantissa bits after the first `k.length` by a one and zeros
    moves the value by at most half the weight of the last kept bit. -/
theorem value_midpoint (s : Bool) {e k t : List Bool} (he : e.length = fmt.expoBits)
    (ht : t.length + k.length = fmt.mantBits) (hpos : t ≠ []) :
    |fmt.value (s :: (e ++ (k ++ true :: List.replicate (t.length - 1) false))) -
        fmt.value (s :: (e ++ (k ++ t)))| ≤
      2 ^ (max (natOfBits e : ℤ) 1 - fmt.bias - k.length - 1) := by
  obtain ⟨j, hj⟩ : ∃ j, t.length = j + 1 :=
    ⟨t.length - 1, by have := List.length_pos_of_ne_nil hpos; omega⟩
  rw [value_sub_value s he (by simp; omega) (by simp; omega)]
  -- the midpoint is at most half an interval away from any tail
  have hmid : natOfBits (true :: List.replicate (t.length - 1) false) = 2 ^ j := by
    rw [natOfBits_cons]
    simp [hj]
  have hlt : natOfBits t < 2 * 2 ^ j := by
    have := natOfBits_lt t
    rwa [hj, pow_succ, Nat.mul_comm] at this
  have hdiff : |(natOfBits (k ++ true :: List.replicate (t.length - 1) false) : ℚ) -
      natOfBits (k ++ t)| ≤ 2 ^ (j : ℤ) := by
    rw [natOfBits_append, natOfBits_append, hmid]
    have hlen : (true :: List.replicate (t.length - 1) false).length = t.length := by
      simp [hj]
    rw [hlen, zpow_natCast]
    have hq : (natOfBits t : ℚ) < 2 * 2 ^ j := by exact_mod_cast hlt
    have h0 : (0 : ℚ) ≤ natOfBits t := by positivity
    push_cast
    rw [abs_le]
    constructor <;> linarith
  calc |(natOfBits (k ++ true :: List.replicate (t.length - 1) false) : ℚ) -
          natOfBits (k ++ t)| * 2 ^ (max (natOfBits e : ℤ) 1 - fmt.bias - fmt.mantBits)
      ≤ 2 ^ (j : ℤ) * 2 ^ (max (natOfBits e : ℤ) 1 - fmt.bias - fmt.mantBits) := by gcongr
    _ = 2 ^ (max (natOfBits e : ℤ) 1 - fmt.bias - k.length - 1) := by
        rw [← zpow_add₀ (by norm_num)]
        congr 1
        omega

/-! ## Bit vectors of a format -/

theorem expoField_lt (l : List Bool) : fmt.expoField l < 2 ^ fmt.expoBits := by
  refine lt_of_lt_of_le (natOfBits_lt _) (Nat.pow_le_pow_right (by decide) ?_)
  simp

/-- The fields of a bit pattern. -/
theorem bitsOf_fields (x : BitVec fmt.numBits) :
    x.toNat = x.msb.toNat * 2 ^ (fmt.expoBits + fmt.mantBits) +
      fmt.expoField (bitsOf x) * 2 ^ fmt.mantBits + fmt.mantField (bitsOf x) := by
  have hW := fmt.numBits_eq
  have hlen := bitsOf_length x
  obtain ⟨b, l, hl⟩ : ∃ b l, bitsOf x = b :: l :=
    List.exists_cons_of_length_pos (by omega)
  have hb : x.msb = b := by rw [← headD_bitsOf (by omega), hl]; rfl
  rw [hl, List.length_cons] at hlen
  have ht : (l.drop fmt.expoBits).take fmt.mantBits = l.drop fmt.expoBits := by
    rw [List.take_of_length_le]
    rw [List.length_drop]
    omega
  have hfield : fmt.expoField (b :: l) = natOfBits (l.take fmt.expoBits) := rfl
  have hmant : fmt.mantField (b :: l) = natOfBits (l.drop fmt.expoBits) := by
    rw [Format.mantField, Nat.add_comm, List.drop_succ_cons, ht]
  have hmlen : (l.drop fmt.expoBits).length = fmt.mantBits := by rw [List.length_drop]; omega
  rw [← natOfBits_bitsOf, hl, hb, hfield, hmant, natOfBits_cons]
  conv_lhs => rw [← List.take_append_drop fmt.expoBits l, natOfBits_append, hmlen]
  rw [List.take_append_drop, show l.length = fmt.expoBits + fmt.mantBits by omega, Nat.add_assoc]

theorem expoField_bitsOf (x : BitVec fmt.numBits) :
    fmt.expoField (bitsOf x) = x.toNat / 2 ^ fmt.mantBits % 2 ^ fmt.expoBits := by
  have h := bitsOf_fields x
  have hm := fmt.mantField_lt (bitsOf x)
  have he := @expoField_lt fmt (bitsOf x)
  have hdiv : x.toNat / 2 ^ fmt.mantBits =
      fmt.expoField (bitsOf x) + 2 ^ fmt.expoBits * x.msb.toNat := by
    rw [h, pow_add]
    rw [show x.msb.toNat * (2 ^ fmt.expoBits * 2 ^ fmt.mantBits) +
      fmt.expoField (bitsOf x) * 2 ^ fmt.mantBits + fmt.mantField (bitsOf x) =
      fmt.mantField (bitsOf x) + 2 ^ fmt.mantBits *
        (fmt.expoField (bitsOf x) + 2 ^ fmt.expoBits * x.msb.toNat) by ring]
    rw [Nat.add_mul_div_left _ _ (by positivity), Nat.div_eq_of_lt hm, Nat.zero_add]
  rw [hdiv, Nat.add_mul_mod_self_left, Nat.mod_eq_of_lt he]

theorem mantField_bitsOf (x : BitVec fmt.numBits) :
    fmt.mantField (bitsOf x) = x.toNat % 2 ^ fmt.mantBits := by
  have h := bitsOf_fields x
  have hm := fmt.mantField_lt (bitsOf x)
  rw [h, pow_add]
  rw [show x.msb.toNat * (2 ^ fmt.expoBits * 2 ^ fmt.mantBits) +
      fmt.expoField (bitsOf x) * 2 ^ fmt.mantBits + fmt.mantField (bitsOf x) =
      fmt.mantField (bitsOf x) + 2 ^ fmt.mantBits *
        (fmt.expoField (bitsOf x) + 2 ^ fmt.expoBits * x.msb.toNat) by ring]
  rw [Nat.add_mul_mod_self_left, Nat.mod_eq_of_lt hm]

/-! ## Magnitudes -/

variable (fmt) in
/-- The absolute value of what a bit string stands for. -/
def magnitude (l : List Bool) : ℚ := (fmt.signif l : ℚ) * 2 ^ fmt.scale l

theorem magnitude_nonneg (l : List Bool) : 0 ≤ fmt.magnitude l := by
  unfold magnitude
  positivity

theorem magnitude_pos {l : List Bool} (h : 0 < fmt.signif l) : 0 < fmt.magnitude l := by
  have : (0 : ℚ) < fmt.signif l := by exact_mod_cast h
  unfold magnitude
  positivity

theorem magnitude_eq_zero {l : List Bool} (h : ¬ 0 < fmt.signif l) : fmt.magnitude l = 0 := by
  rw [magnitude, Nat.eq_zero_of_not_pos h, Nat.cast_zero, zero_mul]

theorem value_eq_magnitude (x : BitVec fmt.numBits) :
    fmt.value (bitsOf x) =
      if x.msb then -fmt.magnitude (bitsOf x) else fmt.magnitude (bitsOf x) := by
  have hW := fmt.numBits_eq
  rw [Format.value, headD_bitsOf (by omega), magnitude]
  cases x.msb <;> simp

/-- Of two numbers the one with the larger scale is larger: it has its implicit bit. -/
theorem magnitude_lt_of_scale_lt {l l' : List Bool} (h : fmt.scale l < fmt.scale l') :
    fmt.magnitude l < fmt.magnitude l' := by
  -- the larger one is normal, its significand has the leading 1
  have hfield : fmt.expoField l' ≠ 0 := by
    intro h0
    rw [Format.scale, Format.scale, h0] at h
    omega
  have hlow : 2 ^ fmt.mantBits ≤ fmt.signif l' := by
    rw [Format.signif, if_neg hfield]
    omega
  have hup := fmt.signif_lt l
  have hscale : (0 : ℚ) < 2 ^ fmt.scale l := by positivity
  calc fmt.magnitude l < (2 : ℚ) ^ ((fmt.mantBits + 1 : ℕ) : ℤ) * 2 ^ fmt.scale l := by
        rw [magnitude, zpow_natCast]
        gcongr
        exact_mod_cast hup
    _ = 2 ^ ((fmt.mantBits : ℤ) + (fmt.scale l + 1)) := by
        rw [← zpow_add₀ (by norm_num)]
        congr 1
        push_cast
        ring
    _ ≤ 2 ^ ((fmt.mantBits : ℤ) + fmt.scale l') := by
        refine zpow_le_zpow_right₀ (by norm_num) ?_
        omega
    _ = 2 ^ fmt.mantBits * 2 ^ fmt.scale l' := by
        rw [zpow_add₀ (by norm_num), zpow_natCast]
    _ ≤ fmt.magnitude l' := by
        rw [magnitude]
        gcongr
        exact_mod_cast hlow

/-- A number with an implicit bit is at least the power of two of its exponent. -/
theorem le_magnitude {l : List Bool} (h : fmt.expoField l ≠ 0) :
    2 ^ ((fmt.expoField l : ℤ) - fmt.bias) ≤ fmt.magnitude l := by
  have hlow : 2 ^ fmt.mantBits ≤ fmt.signif l := by
    rw [Format.signif, if_neg h]
    omega
  have hscale : fmt.scale l = fmt.expoField l - fmt.bias - fmt.mantBits := by
    rw [Format.scale]
    omega
  calc (2 : ℚ) ^ ((fmt.expoField l : ℤ) - fmt.bias)
      = 2 ^ fmt.mantBits * 2 ^ fmt.scale l := by
        rw [hscale, ← zpow_natCast, ← zpow_add₀ (by norm_num)]
        congr 1
        ring
    _ ≤ fmt.magnitude l := by
        rw [magnitude]
        gcongr
        exact_mod_cast hlow

end Format

end MpiApps.BinaryFormat
