/-
  MpiApps.Codec.WordSize

  How long a compressed list can get.

  No code word is longer than the number it stands for: the codes have three bits, a
  literal has at most all bits, and a masked word replaces the exponent by at most as many
  characters.  The total is therefore at most the size of the list, and rounding to bytes
  does not change that because a number has whole bytes (`compressWith_bytes_le`).

  `savedBits` is what the words of a run are shorter by; which elements get a code depends
  on the values alone, since the compressors predict from the original values.
-/

import MpiApps.Codec.MaskWords

namespace MpiApps.Codec

open MpiApps.BinaryFormat

/-! ## Bytes -/

theorem Packed.bytes_le_iff {s : ByteBuffer} {bs : List Bool} (h : Packed s bs) (n : Nat) :
    s.bytes ≤ n ↔ bs.length ≤ 8 * n := by
  have hlen := h.length_eq
  have hpad : padding bs.length < 8 := Nat.mod_lt _ (by omega)
  -- less than a byte of padding: the last byte starts inside the words
  have hmod : (bs.length + padding bs.length) % 8 = 0 := by omega
  constructor <;> intro hle <;> omega

/-! ## Words -/

section Words

variable {fmt : Format} {V : Type} (A : FloatArith fmt V)

/-- What the words of a list are shorter by than its numbers, when a literal for `x` has
    `litBits x` bits. -/
def savedBits (litBits : BitVec fmt.numBits → Nat) (h : History V) :
    List (BitVec fmt.numBits) → Nat
  | [] => 0
  | x :: xs =>
    fmt.numBits - (if coded A h x then 3 else litBits x) +
      savedBits litBits (h.push A (A.ofBits x)) xs

/-- The words and what they save make up the list. -/
theorem codeWords_length_add_savedBits {lit : BitVec fmt.numBits → List Bool}
    (hlit : ∀ x, (lit x).length ≤ fmt.numBits) (h : History V) (xs : List (BitVec fmt.numBits)) :
    (codeWords A lit h xs).flatten.length + savedBits A (fun x => (lit x).length) h xs =
      fmt.numBits * xs.length := by
  have hE := fmt.expo_wide
  have hW := fmt.numBits_eq
  induction xs generalizing h with
  | nil => rfl
  | cons x xs ih =>
      have hword : (codeWord A lit h x).length ≤ fmt.numBits := by
        rw [codeWord_length]
        split
        · omega
        · exact hlit x
      have hrest := ih (h.push A (A.ofBits x))
      rw [codeWords, List.flatten_cons, List.length_append, savedBits, ← codeWord_length,
        List.length_cons, Nat.mul_succ]
      omega

/-- With literals of at most the size of the number, the bytes of a run are at most those
    of the list. -/
theorem compressWith_bytes_le {lit : BitVec fmt.numBits → List Bool} {k : Nat}
    (hk : fmt.numBits = 8 * k) (hlit : ∀ x, (lit x).length ≤ fmt.numBits)
    (xs : List (BitVec fmt.numBits)) : (compressWith A lit xs).bytes ≤ k * xs.length := by
  rw [(compressWith_packed A lit xs).bytes_le_iff, ← Nat.mul_assoc, ← hk,
    ← codeWords_length_add_savedBits A hlit (History.init A) xs]
  exact Nat.le_add_right _ _

end Words

/-! ## Literals -/

section Literals

variable {fmt : Format} (eb : ErrorBound)

theorem literal_length_le (x : BitVec fmt.numBits) : (literal fmt eb x).length ≤ fmt.numBits := by
  have hm := mantissaBits_le fmt eb (tostr x)
  have hW := fmt.numBits_eq
  rw [literal_length]
  omega

/-- The codec without prediction keeps `mantissaBitsWithinErrorBound` of each mantissa. -/
def savedBitsNp (xs : List (BitVec fmt.numBits)) : Nat :=
  (xs.map fun x => fmt.mantBits - mantissaBitsWithinErrorBound fmt eb (tostr x)).sum

theorem literals_length_add_savedBitsNp (xs : List (BitVec fmt.numBits)) :
    (xs.map (literal fmt eb)).flatten.length + savedBitsNp eb xs = fmt.numBits * xs.length := by
  have hW := fmt.numBits_eq
  induction xs with
  | nil => rfl
  | cons x xs ih =>
      have hm := mantissaBits_le fmt eb (tostr x)
      have hlit := literal_length eb x
      rw [savedBitsNp] at ih ⊢
      rw [List.map_cons, List.flatten_cons, List.length_append, List.map_cons, List.sum_cons,
        List.length_cons, Nat.mul_succ]
      omega

theorem compressNp_bytes_le {k : Nat} (hk : fmt.numBits = 8 * k)
    (xs : List (BitVec fmt.numBits)) : (compressNp fmt eb xs).bytes ≤ k * xs.length := by
  rw [(compressNp_packed eb xs).bytes_le_iff, ← Nat.mul_assoc, ← hk,
    ← literals_length_add_savedBitsNp eb xs]
  exact Nat.le_add_right _ _

/-- A masked word spends at most `type + 2` characters on sign and exponent, and `type` is
    less than the number of exponent bits. -/
theorem maskLiteral_length_le {type : Nat} (htype : type ≤ fmt.expoBits - 1) (mask : List Bool)
    (x : BitVec fmt.numBits) : (maskLiteral fmt eb type mask x).length ≤ fmt.numBits := by
  have hE := fmt.expo_wide
  have hlit := literal_length eb x
  have hle := literal_length_le eb x
  unfold maskLiteral
  split
  · split
    · simp only [maskPrefix, List.length_append, List.length_cons, List.length_replicate,
        List.length_nil, List.length_drop]
      omega
    · simp only [maskPrefix, List.length_append, List.length_cons, List.length_replicate,
        List.length_nil, List.length_drop]
      omega
  · exact hle

end Literals

end MpiApps.Codec
