/-
  MpiApps.Codec.Ratio

  The compression ratio that is predicted without compressing.

  `calCompressRatio_bitwise_double` and its siblings count the bits of the literals.  That is
  exactly what the compressors without prediction write, and an upper bound for those with
  prediction, which is met only when nothing is predicted (`ratio_predicts`).
-/

import MpiApps.Codec.Compress
import MpiApps.Codec.Ieee
import MpiApps.Codec.WordSize

namespace MpiApps.Codec

open MpiApps.BinaryFormat
open Float.Model (UnpackedFloat)

/-! ## The code -/

/-- `bits_after_compress` behind the loop, an `int` that counts up to `2^31 - 1` bits. -/
def bitsAfterCompress (fmt : Format) (eb : ErrorBound) (data : List (BitVec fmt.numBits)) : Nat :=
  data.foldl (fun bits x =>
    bits + (1 + fmt.expoBits + mantissaBitsWithinErrorBound fmt eb (tostr x))) 0

/-- The ratio of so many bits to `num` numbers, as the `float` that is returned: the `int` and
    the `size_t` are both converted to `float`. -/
def ratioOf (fmt : Format) (num bits : Nat) : BitVec 32 :=
  ieeePack float (UnpackedFloat.div (ieeeSpec float) (.ofInt (ieeeSpec float) bits)
    (.ofInt (ieeeSpec float) ↑(fmt.numBits * num)))

-- 40 of 128 bits are 0.3125
example : ratioOf double 2 40 = 0x3EA00000 := by decide +kernel

/-- `calCompressRatio_bitwise_double`. -/
def calCompressRatioBitwiseDouble (eb : ErrorBound) (data : List (BitVec 64)) : BitVec 32 :=
  ratioOf double data.length (bitsAfterCompress double eb data)

/-- `calCompressRatio_bitwise_float`. -/
def calCompressRatioBitwiseFloat (eb : ErrorBound) (data : List (BitVec 32)) : BitVec 32 :=
  ratioOf float data.length (bitsAfterCompress float eb data)

/-! ## The bits of a stream -/

/-- The bits in a buffer whose last byte has been filled up to `pos`. -/
def bitsWritten (s : ByteBuffer) : Nat := 8 * s.bytes - if s.pos = 8 then 0 else s.pos

theorem Packed.bitsWritten_eq {s : ByteBuffer} {bs : List Bool} (h : Packed s bs) :
    bitsWritten s = bs.length := by
  have hlen := h.length_eq
  have hpos := h.pos_eq
  rw [bitsWritten]
  by_cases h8 : bs.length % 8 = 0
  · have hpad : padding bs.length = 0 := by simp [padding, h8]
    rw [if_pos (by omega)]
    omega
  · have hpad : padding bs.length = 8 - bs.length % 8 := by
      rw [padding]
      omega
    rw [if_neg (by omega)]
    omega

section Bits

variable {fmt : Format} {eb : ErrorBound}

theorem bitsAfterCompress_eq (data : List (BitVec fmt.numBits)) :
    bitsAfterCompress fmt eb data = (data.map (literal fmt eb)).flatten.length := by
  have hfold : ∀ bits, data.foldl (fun bits x =>
        bits + (1 + fmt.expoBits + mantissaBitsWithinErrorBound fmt eb (tostr x))) bits =
      bits + (data.map (literal fmt eb)).flatten.length := by
    induction data with
    | nil => exact fun _ => rfl
    | cons x data ih =>
        intro bits
        rw [List.foldl_cons, ih, List.map_cons, List.flatten_cons, List.length_append,
          literal_length, Nat.add_assoc]
  rw [bitsAfterCompress, hfold, Nat.zero_add]

variable {V : Type} (A : FloatArith fmt V)

/-- The number of elements that are written as one of the four codes. -/
def codedCount (h : History V) : List (BitVec fmt.numBits) → Nat
  | [] => 0
  | x :: xs => (if coded A h x then 1 else 0) + codedCount (h.push A (A.ofBits x)) xs

/-- A code saves all bits of the literal but three. -/
theorem codeWord_saves (h : History V) (x : BitVec fmt.numBits) :
    let count := if coded A h x then 1 else 0
    (codeWord A (literal fmt eb) h x).length + (fmt.expoBits - 2) * count ≤
        (literal fmt eb x).length ∧
      (literal fmt eb x).length ≤
        (codeWord A (literal fmt eb) h x).length + (fmt.numBits - 3) * count := by
  have hE := fmt.expo_wide
  have hlit := literal_length eb x
  have hle := literal_length_le eb x
  intro count
  rw [codeWord_length]
  by_cases hcoded : coded A h x = true
  · simp only [count, hcoded, if_true]
    omega
  · simp only [count, hcoded, if_false, Nat.mul_zero, Nat.add_zero, Nat.le_refl, and_self,
      Bool.false_eq_true]

/-- Run lemma: what all codes save. -/
theorem codeWords_save (h : History V) (data : List (BitVec fmt.numBits)) :
    (codeWords A (literal fmt eb) h data).flatten.length +
        (fmt.expoBits - 2) * codedCount A h data ≤
        (data.map (literal fmt eb)).flatten.length ∧
      (data.map (literal fmt eb)).flatten.length ≤
        (codeWords A (literal fmt eb) h data).flatten.length +
          (fmt.numBits - 3) * codedCount A h data := by
  induction data generalizing h with
  | nil => exact ⟨Nat.le_refl _, Nat.le_refl _⟩
  | cons x data ih =>
      obtain ⟨hsaved, hspent⟩ := ih (h.push A (A.ofBits x))
      obtain ⟨hsaved', hspent'⟩ := @codeWord_saves fmt eb V A h x
      rw [codedCount, codeWords, List.flatten_cons, List.length_append, List.map_cons,
        List.flatten_cons, List.length_append, Nat.mul_add, Nat.mul_add]
      constructor <;> omega

end Bits

/-! ## The prediction -/

/-- What the bit count, and the ratio made from it, say about the two compressors. -/
structure RatioPredicts {fmt : Format} {V : Type} (A : FloatArith fmt V)
    (data : List (BitVec fmt.numBits)) (ratio : BitVec 32) : Prop where
  /-- the compressor without prediction writes just so many bits -/
  withoutPrediction : bitsWritten (compressNp fmt A.errorBound data) =
    bitsAfterCompress fmt A.errorBound data
  /-- and the ratio is that of its stream -/
  ratio_eq : ratio = ratioOf fmt data.length (bitsWritten (compressNp fmt A.errorBound data))
  /-- with prediction each code saves most of the exponent at least -/
  saved : bitsWritten (compressWith A (literal fmt A.errorBound) data) +
      (fmt.expoBits - 2) * codedCount A (History.init A) data ≤
    bitsAfterCompress fmt A.errorBound data
  /-- and at most all bits of a number but three -/
  spent : bitsAfterCompress fmt A.errorBound data ≤
    bitsWritten (compressWith A (literal fmt A.errorBound) data) +
      (fmt.numBits - 3) * codedCount A (History.init A) data
  /-- the count is met exactly if there is none -/
  met_iff : bitsWritten (compressWith A (literal fmt A.errorBound) data) =
      bitsAfterCompress fmt A.errorBound data ↔
    codedCount A (History.init A) data = 0

theorem ratioPredicts {fmt : Format} {V : Type} (A : FloatArith fmt V)
    (data : List (BitVec fmt.numBits)) : RatioPredicts A data
      (ratioOf fmt data.length (bitsAfterCompress fmt A.errorBound data)) := by
  have hE := fmt.expo_wide
  have hnp : bitsWritten (compressNp fmt A.errorBound data) =
      bitsAfterCompress fmt A.errorBound data := by
    rw [(compressNp_packed A.errorBound data).bitsWritten_eq, bitsAfterCompress_eq]
  have hwith := (compressWith_packed A (literal fmt A.errorBound) data).bitsWritten_eq
  obtain ⟨hsaved, hspent⟩ := @codeWords_save fmt A.errorBound V A (History.init A) data
  rw [← bitsAfterCompress_eq, ← hwith] at hsaved hspent
  refine ⟨hnp, by rw [hnp], hsaved, hspent, fun hbits => ?_, fun hcount => ?_⟩
  · rw [hbits] at hsaved
    have hzero : (fmt.expoBits - 2) * codedCount A (History.init A) data = 0 := by
      omega
    exact (Nat.mul_eq_zero.mp hzero).resolve_left (by omega)
  · rw [hcount, Nat.mul_zero, Nat.add_zero] at hsaved hspent
    exact Nat.le_antisymm hsaved hspent

/-- For every list of doubles and of floats. -/
theorem ratio_predicts (eb : ErrorBound) (data : List (BitVec 64)) (data' : List (BitVec 32)) :
    @RatioPredicts double _ (FloatArith.ieee double eb) data
        (calCompressRatioBitwiseDouble eb data) ∧
      @RatioPredicts float _ (FloatArith.ieee float eb) data'
        (calCompressRatioBitwiseFloat eb data') :=
  ⟨ratioPredicts (FloatArith.ieee double eb) data,
    ratioPredicts (FloatArith.ieee float eb) data'⟩

end MpiApps.Codec
