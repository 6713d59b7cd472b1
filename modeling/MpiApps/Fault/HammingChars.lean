/-
  MpiApps.Fault.HammingChars

  The verifier and the repair on characters, beside those on packed bytes.

  `hamming_verify` and `hamming_rectify` walk over an array with one character for each
  data bit; `hamming_verify_bit` and `hamming_rectify_bit` find the bit in its byte.  The
  characters are those of `cast_bits_to_char`, and flipping one of them is flipping its bit
  (`castBitsToChar_modify`), so the two pairs agree on every block.
-/

import MpiApps.Fault.Hamming

namespace MpiApps.Fault

/-! ## The code -/

/-- `hamming_verify`. -/
def hammingVerify (data c : List Char) (k r : Nat) : List Char :=
  let v := (List.range r).map fun i =>
    if (walkSum (fun dnum => digit (data.getD dnum '0')) i (r + k)).1.tmod 2 =
      digit (c.getD i '0') then '0' else '1'
  let sum := ((List.range k).map fun i => digit (data.getD i '0')).sum +
    ((List.range r).map fun i => digit (c.getD i '0')).sum
  v ++ [if sum.tmod 2 = digit (c.getD r '0') then '0' else '1']

/-- The walk of `hamming_rectify`, with `dnum` and `cnum`: `data` and `c` after it. -/
def hammingRectifyLoop (errorBitPos : Int) :
    List Nat → Nat → Nat → List Char × List Char → List Char × List Char
  | [], _, _, b => b
  | j :: js, dnum, cnum, b =>
    if j = 2 ^ cnum then
      if j = errorBitPos then (b.1, b.2.modify cnum flipChar)
      else hammingRectifyLoop errorBitPos js dnum (cnum + 1) b
    else
      if j = errorBitPos then (b.1.modify dnum flipChar, b.2)
      else hammingRectifyLoop errorBitPos js (dnum + 1) cnum b

/-- `hamming_rectify`. -/
def hammingRectify (data c : List Char) (k r : Nat) (errorBitPos : Int) :
    List Char × List Char :=
  hammingRectifyLoop errorBitPos (List.range' 1 (r + k)) 0 0 (data, c)

/-! ## Characters of packed bytes -/

@[simp] theorem castBitsToChar_length (bits : List (BitVec 8)) :
    (castBitsToChar bits).length = bits.length * 8 := by
  simp [castBitsToChar, List.length_flatMap]

/-- Character `d` shows bit `7 - d % 8` of byte `d / 8`. -/
theorem getD_castBitsToChar (bits : List (BitVec 8)) (d : Nat) :
    (castBitsToChar bits).getD d '0' =
      if (bits.getD (d / 8) 0).getLsbD (7 - d % 8) then '1' else '0' := by
  have h := digit_castBitsToChar bits [] d
  rw [Block.dataBit_eq] at h
  change _ = (((bits.getD (d / 8) 0).getLsbD (7 - d % 8)).toNat : Int) at h
  apply digit_injective
  rw [h]
  cases (bits.getD (d / 8) 0).getLsbD (7 - d % 8) <;> rfl

/-- Flipping a bit in its byte flips its character and no other one. -/
theorem castBitsToChar_modify (bits : List (BitVec 8)) (d : Nat) :
    castBitsToChar (bits.modify (d / 8) (· ^^^ (1 : BitVec 8) <<< (7 - d % 8))) =
      (castBitsToChar bits).modify d flipChar := by
  apply List.ext_getElem (by simp)
  intro e he he'
  have hlt : e < (castBitsToChar bits).length := by simpa using he'
  have hbyte : e / 8 < bits.length := by
    rw [castBitsToChar_length] at hlt
    omega
  rw [← List.getD_eq_getElem _ '0' he, List.getElem_modify, ← List.getD_eq_getElem _ '0' hlt,
    getD_castBitsToChar, getD_castBitsToChar, List.getD_eq_getElem?_getD,
    List.getD_eq_getElem?_getD, List.getElem?_modify, List.getElem?_eq_getElem hbyte]
  by_cases hb : d / 8 = e / 8
  · -- the same byte: the mask has its one at bit `7 - d % 8`
    simp only [if_pos hb]
    show (if (bits[e / 8] ^^^ (1 : BitVec 8) <<< (7 - d % 8)).getLsbD (7 - e % 8) then '1'
      else '0') = if d = e then flipChar (if bits[e / 8].getLsbD (7 - e % 8) then '1' else '0')
        else if bits[e / 8].getLsbD (7 - e % 8) then '1' else '0'
    rw [BitVec.getLsbD_xor, getLsbD_one_shiftLeft (by omega) (by omega)]
    by_cases hde : d = e
    · rw [if_pos hde, decide_eq_true (by omega)]
      cases bits[e / 8].getLsbD (7 - e % 8) <;> rfl
    · rw [if_neg hde, decide_eq_false (by omega), Bool.xor_false]
  · have hde : d ≠ e := fun h => hb (by rw [h])
    simp only [if_neg hb, if_neg hde]
    rfl

/-! ## Agreement -/

/-- The two verifiers sum the same bits, once through characters and once through bytes. -/
theorem hammingVerify_castBitsToChar (b : Block) (r : Nat) :
    hammingVerify (castBitsToChar b.bits) b.c (b.bits.length * 8) r = hammingVerifyBit b r := by
  have hvalue : (fun dnum => digit ((castBitsToChar b.bits).getD dnum '0')) = b.dataBit :=
    funext fun d => digit_castBitsToChar b.bits b.c d
  rw [hammingVerify, hammingVerifyBit, sum_digit_castBitsToChar, hvalue]

/-- One step of the walk keeps the data bits and their characters together. -/
theorem hammingRectifyLoop_castBitsToChar (errorBitPos : Int) (js : List Nat) (num cnum : Nat)
    (b : Block) :
    hammingRectifyLoop errorBitPos js num cnum (castBitsToChar b.bits, b.c) =
      (castBitsToChar (hammingRectifyBitLoop errorBitPos js num cnum b).bits,
        (hammingRectifyBitLoop errorBitPos js num cnum b).c) := by
  induction js generalizing num cnum with
  | nil => rfl
  | cons j js ih =>
      rw [hammingRectifyLoop, hammingRectifyBitLoop]
      by_cases hcheck : j = 2 ^ cnum
      · -- the place of a check character
        rw [if_pos hcheck, if_pos hcheck]
        by_cases hpos : (j : Int) = errorBitPos
        · rw [if_pos hpos, if_pos hpos]
        · rw [if_neg hpos, if_neg hpos, ih]
      · rw [if_neg hcheck, if_neg hcheck]
        by_cases hpos : (j : Int) = errorBitPos
        · rw [if_pos hpos, if_pos hpos, castBitsToChar_modify]
        · rw [if_neg hpos, if_neg hpos, ih]

/-- On every block of bytes with check characters, the verifiers give the same string, and for
    every error position the repairs change the check characters in the same way and leave the
    characters of the repaired bytes. -/
theorem hamming_chars_agree (bits : List (BitVec 8)) (c : List Char) (r : Nat) :
    hammingVerify (castBitsToChar bits) c (bits.length * 8) r = hammingVerifyBit ⟨bits, c⟩ r ∧
    ∀ errorBitPos : Int,
      hammingRectify (castBitsToChar bits) c (bits.length * 8) r errorBitPos =
        (castBitsToChar (hammingRectifyBit ⟨bits, c⟩ r errorBitPos).bits,
          (hammingRectifyBit ⟨bits, c⟩ r errorBitPos).c) :=
  ⟨hammingVerify_castBitsToChar ⟨bits, c⟩ r,
    fun errorBitPos => hammingRectifyLoop_castBitsToChar errorBitPos _ 0 0 ⟨bits, c⟩⟩

-- Position 3 of the block is its first data bit.
example : hammingRectify (castBitsToChar [0xca]) (hammingEncode [0xca]).1 8 4 3 =
    (castBitsToChar [0x4a], (hammingEncode [0xca]).1) := by decide

end MpiApps.Fault
