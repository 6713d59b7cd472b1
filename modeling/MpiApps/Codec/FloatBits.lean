/-
  MpiApps.Codec.FloatBits

  How a compressor takes a floating-point number apart and how a decompressor
  puts one together.

  `floattostr` and `doubletostr` write a number as a string of bits, the most
  significant one first; `strtofloat` and `strtodbl` read it back.  A literal
  code word is such a string cut off after the mantissa bits that the error
  bound asks for, and the decompressor completes it with a one and zeros, which
  is the middle of the interval that was cut off.

  Every function of this family exists once for `double` and once for `float`;
  the definitions below take the format as a parameter.
-/

import MpiApps.Lib.BinaryFormat
import MpiApps.Codec.BitBuffer

namespace MpiApps.Codec

open MpiApps.BinaryFormat

/-! ## The error bound -/

/-- `to_absErrorBound_binary`: the first `n < 100` with `absErrBound >= pow(2, -n)`.
    The loop falls off the end of the function when there is none. -/
def toAbsErrorBoundBinary (absErrBound : ℚ) : Option Nat :=
  (List.range 100).find? fun n => decide (1 / 2 ^ n ≤ absErrBound)

/-- An error bound for which `to_absErrorBound_binary` returns a value. -/
structure ErrorBound where
  absErrBound : ℚ
  returns : (toAbsErrorBoundBinary absErrBound).isSome

/-- The value cached in `absErrorBound_binary`. -/
def ErrorBound.binary (eb : ErrorBound) : Nat :=
  (toAbsErrorBoundBinary eb.absErrBound).get eb.returns

/-- `absErrorBound`, the double nearest to `0.000001`; nothing assigns
    `absErrBound` a different value. -/
def absErrorBound : ErrorBound := ⟨4722366482869645 / 2 ^ 72, by decide +kernel⟩

theorem ErrorBound.binary_mem (eb : ErrorBound) :
    toAbsErrorBoundBinary eb.absErrBound = some eb.binary := by
  simp [ErrorBound.binary]

theorem ErrorBound.binary_lt (eb : ErrorBound) : eb.binary < 100 := by
  have h := List.mem_of_find?_eq_some eb.binary_mem
  simpa using h

/-- The bound itself is at least `2 ^ -n`. -/
theorem ErrorBound.le_absErrBound (eb : ErrorBound) :
    (2 : ℚ) ^ (-(eb.binary : ℤ)) ≤ eb.absErrBound := by
  have h := List.find?_some eb.binary_mem
  rw [zpow_neg, zpow_natCast, ← one_div]
  simpa using h

theorem ErrorBound.pos (eb : ErrorBound) : 0 < eb.absErrBound :=
  lt_of_lt_of_le (by positivity) eb.le_absErrBound

example : absErrorBound.binary = 20 := by decide +kernel

/-! ## Numbers as strings of bits -/

/-- `doubletostr`, `floattostr`: `str[w-1-i] = c & 1; c >>= 1`, for `i` from `0`.
    A string of the characters `0` and `1` is a list of booleans here. -/
def tostr {w : Nat} (x : BitVec w) : List Bool :=
  ((List.range w).foldl (fun (s : List Bool × BitVec w) _ =>
    (s.2.getLsbD 0 :: s.1, s.2 >>> 1)) ([], x)).1

/-- `strtodbl`, `strtofloat`: `dbl += str[i]; dbl <<= 1` for all bits but the
    last, which is only added. -/
def strto (w : Nat) (str : List Bool) : BitVec w :=
  ((str.take (w - 1)).foldl (fun dbl b => (dbl + BitVec.ofNat w b.toNat) <<< 1) 0) +
    BitVec.ofNat w (str.getD (w - 1) false).toNat

theorem tostr_eq {w : Nat} (x : BitVec w) : tostr x = bitsOf x := by
  have key : ∀ k ≤ w, (List.range k).foldl (fun (s : List Bool × BitVec w) _ =>
      (s.2.getLsbD 0 :: s.1, s.2 >>> 1)) ([], x) =
      ((List.range' (w - k) k).map x.getMsbD, x >>> k) := by
    intro k hk
    induction k with
    | zero => simp
    | succ k ih =>
        rw [List.range_succ, List.foldl_append, ih (by omega)]
        simp only [List.foldl_cons, List.foldl_nil, Prod.mk.injEq]
        constructor
        · have hsucc : w - (k + 1) + 1 = w - k := by omega
          rw [List.range'_succ, List.map_cons, hsucc, BitVec.getLsbD_ushiftRight,
            BitVec.getMsbD, decide_eq_true (by omega : w - (k + 1) < w), Bool.true_and]
          congr 2
          omega
        · rw [BitVec.shiftRight_add]
  rw [tostr, key w (Nat.le_refl w), bitsOf, Nat.sub_self, List.range_eq_range']

@[simp] theorem tostr_length {w : Nat} (x : BitVec w) : (tostr x).length = w := by
  rw [tostr_eq, bitsOf_length]

theorem tostr_eq_cons {w : Nat} (hw : 0 < w) (x : BitVec w) :
    ∃ l, tostr x = x.msb :: l := by
  obtain ⟨n, rfl⟩ : ∃ n, w = n + 1 := ⟨w - 1, by omega⟩
  rw [tostr_eq, bitsOf, List.range_succ_eq_map, List.map_cons]
  exact ⟨_, rfl⟩

theorem strto_eq {w : Nat} {str : List Bool} (h : str.length = w) (hw : 0 < w) :
    strto w str = vecOf w str := by
  have fold : ∀ l : List Bool,
      l.foldl (fun dbl b => (dbl + BitVec.ofNat w b.toNat) <<< 1) 0 =
        BitVec.ofNat w (2 * natOfBits l) := by
    intro l
    induction l using List.reverseRecOn with
    | nil => simp
    | append_singleton l b ih =>
        rw [List.foldl_append, ih, natOfBits_concat]
        simp only [List.foldl_cons, List.foldl_nil, ← BitVec.ofNat_add]
        apply BitVec.eq_of_toNat_eq
        simp [Nat.shiftLeft_eq, Nat.mul_comm]
  obtain ⟨init, last, rfl⟩ : ∃ init last, str = init ++ [last] :=
    ⟨str.dropLast, str.getLast (by rintro rfl; simp at h; omega),
      (List.dropLast_append_getLast _).symm⟩
  have hlen : w - 1 = init.length := by simp at h; omega
  have hget : (init ++ [last]).getD init.length false = last := by simp
  rw [strto, hlen, List.take_left, fold, hget, vecOf, natOfBits_concat, ← BitVec.ofNat_add]

/-! ## Words that hold a number -/

/-- `expo_value`: the weighted sum of the bits `1..E`, minus the bias. -/
def expoValue (fmt : Format) (bits : List Bool) : Int :=
  (((List.range fmt.expoBits).map fun i =>
    (bits.getD (i + 1) false).toNat * 2 ^ (fmt.expoBits - 1 - i)).sum : Nat) - fmt.bias

/-- `mantissa_bits_within_error_bound`, clamped to `0..M`. -/
def mantissaBitsWithinErrorBound (fmt : Format) (eb : ErrorBound) (bits : List Bool) : Nat :=
  let m : Int := eb.binary + expoValue fmt bits
  if m > fmt.mantBits then fmt.mantBits
  else if m < 0 then 0
  else m.toNat

/-- The bits that `compress_bitwise_double`, `compress_bitwise_float` add for a number. -/
def literal (fmt : Format) (eb : ErrorBound) (x : BitVec fmt.numBits) : List Bool :=
  let arr := tostr x
  arr.take (1 + fmt.expoBits + mantissaBitsWithinErrorBound fmt eb arr)

/-- `compress_bitwise_double`, `compress_bitwise_float`. -/
def compressBitwise (fmt : Format) (eb : ErrorBound) (x : BitVec fmt.numBits)
    (s : ByteBuffer) : ByteBuffer :=
  pushBits s (literal fmt eb x)

/-- The string completed to a full number: a one after the bits received, then zeros.
    `none` where the code would write past the reallocated string. -/
def fillBits (fmt : Format) (bits : List Bool) : Option (BitVec fmt.numBits) :=
  if bits.length = fmt.numBits then some (strto fmt.numBits bits)
  else if bits.length < fmt.numBits then
    some (strto fmt.numBits
      (bits ++ true :: List.replicate (fmt.numBits - (bits.length + 1)) false))
  else none

variable {fmt : Format} {eb : ErrorBound}

theorem expoValue_eq (bits : List Bool) (h : 1 + fmt.expoBits ≤ bits.length) :
    expoValue fmt bits = fmt.expoField bits - fmt.bias := by
  have sum : ∀ l : List Bool,
      ((List.range l.length).map fun i => (l.getD i false).toNat * 2 ^ (l.length - 1 - i)).sum =
        natOfBits l := by
    intro l
    induction l with
    | nil => rfl
    | cons b l ih =>
        rw [List.length_cons, List.range_succ_eq_map, List.map_cons, List.sum_cons, List.map_map,
          natOfBits_cons, ← ih]
        congr 2
        apply List.map_congr_left
        intro i hi
        simp only [Function.comp_apply, List.getD_cons_succ]
        congr 2
        omega
  have hlen : ((bits.drop 1).take fmt.expoBits).length = fmt.expoBits := by simp; omega
  have hsum := sum ((bits.drop 1).take fmt.expoBits)
  rw [hlen] at hsum
  rw [expoValue, Format.expoField, ← hsum]
  congr 3
  apply List.map_congr_left
  intro i hi
  rw [List.mem_range] at hi
  congr 2
  simp [List.getD_eq_getElem?_getD, hi]

theorem mantissaBits_le (fmt : Format) (eb : ErrorBound) (bits : List Bool) :
    mantissaBitsWithinErrorBound fmt eb bits ≤ fmt.mantBits := by
  simp only [mantissaBitsWithinErrorBound]
  split_ifs <;> omega

/-- The number of mantissa bits depends on the exponent bits only. -/
theorem mantissaBits_take (bits : List Bool) (k : Nat) (hk : 1 + fmt.expoBits ≤ k) :
    mantissaBitsWithinErrorBound fmt eb (bits.take k) =
      mantissaBitsWithinErrorBound fmt eb bits := by
  have hexpo : expoValue fmt (bits.take k) = expoValue fmt bits := by
    unfold expoValue
    congr 3
    apply List.map_congr_left
    intro i hi
    rw [List.mem_range] at hi
    congr 2
    simp only [List.getD_eq_getElem?_getD]
    rw [List.getElem?_take_of_lt (by omega)]
  simp only [mantissaBitsWithinErrorBound, hexpo]

/-- The bits of a literal. -/
def literalBits (fmt : Format) (eb : ErrorBound) (x : BitVec fmt.numBits) : Nat :=
  1 + fmt.expoBits + mantissaBitsWithinErrorBound fmt eb (tostr x)

theorem literal_length (eb : ErrorBound) (x : BitVec fmt.numBits) :
    (literal fmt eb x).length =
      1 + fmt.expoBits + mantissaBitsWithinErrorBound fmt eb (tostr x) := by
  have := mantissaBits_le fmt eb (tostr x)
  simp only [literal, List.length_take, tostr_length, Format.numBits]
  omega

theorem mantissaBits_literal (x : BitVec fmt.numBits) :
    mantissaBitsWithinErrorBound fmt eb (literal fmt eb x) =
      mantissaBitsWithinErrorBound fmt eb (tostr x) :=
  mantissaBits_take _ _ (Nat.le_add_right _ _)

/-- The number that a literal word is completed to. -/
theorem fillBits_literal (x : BitVec fmt.numBits) :
    fillBits fmt (literal fmt eb x) = some (vecOf fmt.numBits
      (literal fmt eb x ++ if (literal fmt eb x).length = fmt.numBits then [] else
        true :: List.replicate (fmt.numBits - (literal fmt eb x).length - 1) false)) := by
  have hle : (literal fmt eb x).length ≤ fmt.numBits := by
    have hm := mantissaBits_le fmt eb (tostr x)
    have hw := fmt.numBits_eq
    rw [literal_length]
    omega
  have hpos : 0 < fmt.numBits := by rw [fmt.numBits_eq]; omega
  unfold fillBits
  split
  · next heq => rw [strto_eq heq hpos, List.append_nil]
  · next hne =>
      rw [if_pos (by omega), strto_eq (by simp; omega) hpos]
      rfl

end MpiApps.Codec
