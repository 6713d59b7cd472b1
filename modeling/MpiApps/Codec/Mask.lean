/-
  MpiApps.Codec.Mask

  The bitmask codec: literals are written against a mask.

  The mask holds the sign, the exponent and eight mantissa bits of the mean of the data.
  A number with the sign and exponent of the mask is written as `0`, `type` ones and a
  flag, which stand for these bits, and for the eight mantissa bits too if the flag is 0.
  `type` is chosen so that no exponent in the data starts with that many ones.

  This module has the two sides of one word and the choice of `type` and mean; the
  automaton that cuts the stream into words follows in `MpiApps.Codec.MaskFraming`.
-/

import MpiApps.Codec.Decompress
import MpiApps.Codec.Ieee

namespace MpiApps.Codec

open MpiApps.BinaryFormat
open Float.Model (UnpackedFloat)

/-! ## Mean and type -/

section Dataset

variable (fmt : Format)

/-- `x / y`. -/
def ieeeDiv (x y : BitVec fmt.numBits) : BitVec fmt.numBits :=
  ieeePack fmt (.div (ieeeSpec fmt) (ieeeUnpack fmt x) (ieeeUnpack fmt y))

/-- `x < pow(2, k)`. -/
def ltPow (x : BitVec fmt.numBits) (k : Int) : Bool :=
  compareBound (fun a b => decide (a < b)) (2 ^ k) (ieeeUnpack fmt x)

/-- The loop over `i`: `add += pow(2, i)` until `max < pow(2, add-bias)`.  Without a break
    `type` keeps the 0 that every caller starts it with. -/
def typeLoop (max : BitVec fmt.numBits) : Nat → Nat → Nat
  | 0, _ => 0
  | i + 1, add =>
    let add := add + 2 ^ (i + 1)
    if ltPow fmt max (add - fmt.bias) then fmt.expoBits - (i + 1) else typeLoop max i add

/-- `if(data[i] > max) max = data[i];` -/
def maxStep (max x : BitVec fmt.numBits) : BitVec fmt.numBits :=
  if (ieeeUnpack fmt max).lt (ieeeUnpack fmt x) then x else max

/-- `max` after the loop, from `data[0]`. -/
def maxOf (data : List (BitVec fmt.numBits)) : BitVec fmt.numBits :=
  data.foldl (maxStep fmt) (data.headD 0)

/-- `total` after the loop. -/
def totalOf (data : List (BitVec fmt.numBits)) : BitVec fmt.numBits :=
  data.foldl (FloatArith.ieee fmt absErrorBound).add ((FloatArith.ieee fmt absErrorBound).ofInt 0)

/-- `med_dataset_double`, `med_dataset_float`: the mean, and `*type`. -/
def medDataset (data : List (BitVec fmt.numBits)) : BitVec fmt.numBits × Nat :=
  (ieeeDiv fmt (totalOf fmt data) ((FloatArith.ieee fmt absErrorBound).ofInt data.length),
    typeLoop fmt (maxOf fmt data) (fmt.expoBits - 1) 0)

/-- `mask`: the first characters of the mean. -/
def maskOf (medium : BitVec fmt.numBits) : List Bool := (tostr medium).take (1 + fmt.expoBits + 8)

end Dataset

/-- `med_dataset_double`. -/
def medDatasetDouble (data : List (BitVec 64)) : BitVec 64 × Nat := medDataset double data

/-- `med_dataset_float`. -/
def medDatasetFloat (data : List (BitVec 32)) : BitVec 32 × Nat := medDataset float data

/-! ## Compression -/

section Compress

variable (fmt : Format) (eb : ErrorBound) (type : Nat) (mask : List Bool)

/-- The number has the sign and the exponent of the mask. -/
def Masked (x : BitVec fmt.numBits) : Prop :=
  (tostr x).take (1 + fmt.expoBits) = mask.take (1 + fmt.expoBits)

instance (x : BitVec fmt.numBits) : Decidable (Masked fmt mask x) :=
  inferInstanceAs (Decidable (_ = _))

/-- The number has the eight mantissa bits of the mask (`error == 0`). -/
def MaskedMantissa (x : BitVec fmt.numBits) : Prop :=
  ((tostr x).drop (1 + fmt.expoBits)).take 8 = (mask.drop (1 + fmt.expoBits)).take 8

instance (x : BitVec fmt.numBits) : Decidable (MaskedMantissa fmt mask x) :=
  inferInstanceAs (Decidable (_ = _))

/-- `0`, `type` ones and the flag. -/
def maskPrefix (flag : Bool) : List Bool := false :: (List.replicate type true ++ [flag])

/-- The bits that `compress_bitwise_double_mask`, `compress_bitwise_float_mask` add. -/
def maskLiteral (x : BitVec fmt.numBits) : List Bool :=
  if Masked fmt mask x then
    -- `error` counts at most one difference, so the third branch is never taken
    if MaskedMantissa fmt mask x then
      maskPrefix type false ++ (literal fmt eb x).drop (1 + fmt.expoBits + 8)
    else maskPrefix type true ++ (literal fmt eb x).drop (1 + fmt.expoBits)
  else literal fmt eb x

/-- `compress_bitwise_double_mask`, `compress_bitwise_float_mask`. -/
def compressBitwiseMask (x : BitVec fmt.numBits) (s : ByteBuffer) : ByteBuffer :=
  pushBits s (maskLiteral fmt eb type mask x)

end Compress

/-- `myCompress_bitwise_double_mask`. -/
def myCompressBitwiseDoubleMask {V : Type} (A : FloatArith double V) (data : List (BitVec 64))
    (type : Nat) (mask : List Bool) : ByteBuffer :=
  compressWith A (maskLiteral double A.errorBound type mask) data

/-- `myCompress_bitwise_mask`. -/
def myCompressBitwiseMask {V : Type} (A : FloatArith float V) (data : List (BitVec 32))
    (type : Nat) (mask : List Bool) : ByteBuffer :=
  compressWith A (maskLiteral float A.errorBound type mask) data

/-! ## Decompression of one word -/

section Decompress

/-- `bits[n]`. -/
def readChar (bits : List Bool) (n : Nat) : Except Fault Bool :=
  match bits[n]? with
  | some b => return b
  | none => throw .outOfBounds

/-- `buf[i] = b`; a character is `none` until it is written. -/
def writeChar (buf : List (Option Bool)) (i : Nat) (b : Bool) :
    Except Fault (List (Option Bool)) :=
  if i < buf.length then return buf.set i (some b) else throw .outOfBounds

/-- A loop that writes consecutive characters from index `i` on. -/
def writeChars (buf : List (Option Bool)) (i : Nat) : List Bool → Except Fault (List (Option Bool))
  | [] => return buf
  | b :: bs => do
    let buf ← writeChar buf i b
    writeChars buf (i + 1) bs

/-- A one at index `i`, and zeros from there to the end of the buffer. -/
def closeChars (buf : List (Option Bool)) (i : Nat) : Except Fault (List (Option Bool)) := do
  let buf ← writeChar buf i true
  writeChars buf (i + 1) (List.replicate (buf.length - (i + 1)) false)

/-- `strtodbl(bits64)`, `strtofloat(bits32)`: every character has to be there. -/
def strtoChars (w : Nat) (buf : List (Option Bool)) : Except Fault (BitVec w) :=
  match buf.mapM id with
  | some str => return strto w str
  | none => throw .outOfBounds

/-- `masked` after the loop over `k` characters of `bits` from index `n` on. -/
def maskedLoop (bits : List Bool) (n : Nat) : Nat → Except Fault Bool
  | 0 => return true
  | k + 1 => do
    if ← readChar bits n then maskedLoop bits (n + 1) k else return false

/-- `realloc(bits, w)`. -/
def reallocChars (w : Nat) (bits : List Bool) : List (Option Bool) :=
  (bits.take w).map some ++ List.replicate (w - bits.length) none

variable (fmt : Format) (type : Nat) (mask : List Bool)

/-- The number for a string that is not a code. -/
def expandMasked (bits : List Bool) : Except Fault (BitVec fmt.numBits) := do
  if bits.length = fmt.numBits then return strto fmt.numBits bits
  else
    let masked ← maskedLoop bits 1 type
    if masked then
      let buf ← writeChars (List.replicate fmt.numBits none) 0 mask
      let flag ← readChar bits (type + 1)
      let start := if flag then 1 + fmt.expoBits else 1 + fmt.expoBits + 8
      let buf ← writeChars buf start (bits.drop (1 + type + 1))
      let buf ← closeChars buf (start + bits.length - (1 + type + 1))
      strtoChars fmt.numBits buf
    else
      let buf ← closeChars (reallocChars fmt.numBits bits) bits.length
      strtoChars fmt.numBits buf

/-- `decompress_bitwise_double_mask`, `decompress_bitwise_float_mask`. -/
def decompressBitwiseMask {fmt : Format} {V : Type} (A : FloatArith fmt V) (type : Nat)
    (mask bits : List Bool) (h : History V) : Except Fault V :=
  match bits with
  | [true, false, false] => return A.ofInt 0
  | [true, false, true] => return h.beforeValue1
  | [true, true, false] => return h.predict2 A
  | [true, true, true] => return h.predict3 A
  | bits => (expandMasked fmt type mask bits).map A.ofBits

end Decompress

/-! ## What the writes leave in the buffer -/

section Chars

theorem take_set_self {α : Type} {l : List α} {i : Nat} (h : i < l.length) (a : α) :
    (l.set i a).take (i + 1) = l.take i ++ [a] := by
  have hlen : (l.take i ++ [a]).length = i + 1 := by
    rw [List.length_append, List.length_take, List.length_singleton]
    omega
  rw [List.set_eq_take_append_cons_drop, if_pos h, List.append_cons, ← hlen, List.take_left]

theorem writeChars_ok {buf : List (Option Bool)} {i : Nat} {bs : List Bool}
    (h : i + bs.length ≤ buf.length) :
    writeChars buf i bs = .ok (buf.take i ++ bs.map some ++ buf.drop (i + bs.length)) := by
  induction bs generalizing buf i with
  | nil => simp [writeChars]; rfl
  | cons b bs ih =>
      rw [List.length_cons] at h
      have hlt : i < buf.length := by omega
      rw [writeChars, writeChar, if_pos hlt, pure_bind, ih (by rw [List.length_set]; omega)]
      congr 1
      rw [take_set_self hlt, List.drop_set_of_lt (by omega), List.length_cons, List.map_cons,
        Nat.add_right_comm, Nat.add_assoc]
      simp

theorem writeChars_error {buf : List (Option Bool)} {i : Nat} {bs : List Bool} (hne : bs ≠ [])
    (h : buf.length < i + bs.length) : writeChars buf i bs = .error .outOfBounds := by
  induction bs generalizing buf i with
  | nil => exact absurd rfl hne
  | cons b bs ih =>
      rw [writeChars, writeChar]
      by_cases hlt : i < buf.length
      · rw [if_pos hlt, pure_bind]
        rw [List.length_cons] at h
        refine ih ?_ (by rw [List.length_set]; omega)
        rintro rfl
        rw [List.length_nil] at h
        omega
      · rw [if_neg hlt]
        rfl

theorem closeChars_ok {buf : List (Option Bool)} {i : Nat} (h : i < buf.length) :
    closeChars buf i =
      .ok (buf.take i ++ (true :: List.replicate (buf.length - (i + 1)) false).map some) := by
  rw [closeChars, writeChar, if_pos h, pure_bind, List.length_set,
    writeChars_ok (by rw [List.length_set, List.length_replicate]; omega)]
  congr 1
  rw [take_set_self h, List.length_replicate,
    List.drop_eq_nil_of_le (by rw [List.length_set]; omega), List.append_nil]
  simp

theorem closeChars_error {buf : List (Option Bool)} {i : Nat} (h : buf.length ≤ i) :
    closeChars buf i = .error .outOfBounds := by
  rw [closeChars, writeChar, if_neg (by omega)]
  rfl

theorem strtoChars_map_some (w : Nat) (str : List Bool) :
    strtoChars w (str.map some) = .ok (strto w str) := by
  have hm : (str.map some).mapM id = some str := by
    induction str with
    | nil => rfl
    | cons b str ih => simp [ih]
  rw [strtoChars, hm]
  rfl

theorem maskedLoop_eq {bits : List Bool} {n k : Nat} (h : n + k ≤ bits.length) :
    maskedLoop bits n k = .ok (((bits.drop n).take k).all id) := by
  induction k generalizing n with
  | zero => rfl
  | succ k ih =>
      have hlt : n < bits.length := by omega
      rw [maskedLoop, readChar, List.getElem?_eq_getElem hlt, List.drop_eq_getElem_cons hlt,
        List.take_succ_cons, List.all_cons]
      cases hb : bits[n] with
      | false => rfl
      | true =>
          rw [pure_bind, if_pos rfl, ih (by omega)]
          rfl

end Chars

section Expand

variable {fmt : Format} {type : Nat} {mask : List Bool}

/-- A number completed behind `str`, if there is room for at least one character. -/
def completed (fmt : Format) (str : List Bool) : Except Fault (BitVec fmt.numBits) :=
  if str.length < fmt.numBits then
    .ok (strto fmt.numBits
      (str ++ true :: List.replicate (fmt.numBits - (str.length + 1)) false))
  else .error .outOfBounds

theorem strtoChars_closeChars {buf : List (Option Bool)} {str : List Bool}
    (hlen : buf.length = fmt.numBits) (hstr : buf.take str.length = str.map some) :
    (closeChars buf str.length >>= strtoChars fmt.numBits) = completed fmt str := by
  unfold completed
  by_cases h : str.length < fmt.numBits
  · rw [if_pos h, closeChars_ok (by omega), ok_bind, hstr, ← List.map_append,
      strtoChars_map_some, hlen]
  · rw [if_neg h, closeChars_error (by omega)]
    rfl

/-- A word that is not recognised as masked is completed like a literal. -/
theorem expandMasked_unmasked {bits : List Bool} (hlen : bits.length ≠ fmt.numBits)
    (htype : 1 + type ≤ bits.length) (hm : ((bits.drop 1).take type).all id = false) :
    expandMasked fmt type mask bits = completed fmt bits := by
  rw [expandMasked, if_neg hlen, maskedLoop_eq htype, hm, ok_bind]
  simp only [Bool.false_eq_true, if_false]
  by_cases h : bits.length ≤ fmt.numBits
  · have hbuf : reallocChars fmt.numBits bits =
        bits.map some ++ List.replicate (fmt.numBits - bits.length) none := by
      rw [reallocChars, List.take_of_length_le h]
    rw [hbuf]
    refine strtoChars_closeChars (by simp; omega) ?_
    rw [List.take_left' (by simp)]
  · have hbuf : (reallocChars fmt.numBits bits).length ≤ bits.length := by
      rw [reallocChars, List.length_append, List.length_map, List.length_take,
        List.length_replicate]
      omega
    rw [closeChars_error hbuf, completed, if_neg (by omega)]
    rfl

/-- A word that starts with `type` ones behind its first character takes the first part of
    the mask, as long as the flag says. -/
theorem expandMasked_masked (hmask : mask.length = 1 + fmt.expoBits + 8) (b flag : Bool)
    {payload : List Bool}
    (hlen : (b :: (List.replicate type true ++ flag :: payload)).length ≠ fmt.numBits) :
    expandMasked fmt type mask (b :: (List.replicate type true ++ flag :: payload)) =
      completed fmt
        (mask.take (if flag then 1 + fmt.expoBits else 1 + fmt.expoBits + 8) ++ payload) := by
  have hM := fmt.mant_wide
  have hW := fmt.numBits_eq
  generalize hbits : b :: (List.replicate type true ++ flag :: payload) = bits at hlen
  have hcount : bits.length = 1 + type + 1 + payload.length := by
    rw [← hbits]
    simp
    omega
  -- the mask test passes, and the flag and the payload stand behind it
  have hall : ((bits.drop 1).take type).all id = true := by
    rw [← hbits, List.drop_one, List.tail_cons, List.take_left' (by simp)]
    simp
  have hflag : readChar bits (type + 1) = .ok flag := by
    rw [readChar, ← hbits, List.getElem?_cons_succ, List.getElem?_append_right (by simp)]
    simp
    rfl
  have hpayload : bits.drop (1 + type + 1) = payload := by
    have hsplit : bits = (b :: (List.replicate type true ++ [flag])) ++ payload := by
      rw [← hbits]
      simp
    rw [hsplit, List.drop_left' (by simp; omega)]
  -- `s` characters of the mask are kept and the payload is written behind them
  generalize hs : (if flag then 1 + fmt.expoBits else 1 + fmt.expoBits + 8) = s
  have hle : s ≤ mask.length := by
    rw [← hs, hmask]
    split <;> omega
  have hstr : (mask.take s ++ payload).length = s + payload.length := by
    rw [List.length_append, List.length_take, Nat.min_eq_left hle]
  have hidx : s + bits.length - (1 + type + 1) = (mask.take s ++ payload).length := by omega
  rw [expandMasked, if_neg hlen, maskedLoop_eq (by omega), hall, ok_bind]
  simp only [if_true]
  rw [writeChars_ok (by simp; omega), ok_bind, hflag, ok_bind, hs, hpayload, hidx]
  simp only [List.take_zero, List.nil_append, Nat.zero_add, List.drop_replicate]
  generalize hbuf : mask.map some ++ List.replicate (fmt.numBits - mask.length) none = buf
  have hbuflen : buf.length = fmt.numBits := by
    rw [← hbuf]
    simp
    omega
  have hbuftake : buf.take s = (mask.take s).map some := by
    rw [← hbuf, List.take_append_of_le_length (by simpa using hle), List.map_take]
  -- the copy loop leaves the buffer exactly if the payload does not fit
  by_cases hfit : s + payload.length ≤ fmt.numBits
  · rw [writeChars_ok (by omega), ok_bind, hbuftake]
    refine strtoChars_closeChars ?_ ?_
    · simp
      omega
    · rw [List.map_append, List.take_left' (by simp)]
  · have hne : payload ≠ [] := by
      rintro rfl
      rw [List.length_nil] at hfit
      omega
    rw [writeChars_error hne (by omega), completed, if_neg (by omega)]
    rfl

end Expand

end MpiApps.Codec
