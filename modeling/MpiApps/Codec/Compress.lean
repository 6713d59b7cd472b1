/-
  MpiApps.Codec.Compress

  The bitwise compressors.

  All of them walk through the data once and add one code word per element: a
  3-bit code when the element is small or predicted well enough, a literal
  otherwise.  They differ in how a literal is written, which is a parameter of
  the loop here: cut off at the error bound (`myCompress_bitwise`), in full
  (`myCompress_bitwise_op`) or against a mask.  The `np` compressors write
  literals only.

  `compressWith_packed` reduces each compressor to the list of its code words.
-/

import MpiApps.Codec.Arith

namespace MpiApps.Codec

open MpiApps.BinaryFormat

/-! ## The code -/

/-- `compress_type`. -/
inductive CompressType
  | a
  | b
  | c
  deriving DecidableEq, Repr

/-- The three bits that stand for a prediction. -/
def CompressType.code : CompressType → List Bool
  | .a => [true, false, true]
  | .b => [true, true, false]
  | .c => [true, true, true]

/-- The three bits that stand for a value below the error bound. -/
def smallCode : List Bool := [true, false, false]

section Compress

variable {fmt : Format} {V : Type} (A : FloatArith fmt V)

/-- `predict_value1`, `predict_value2`, `predict_value3`. -/
def History.predictValue (h : History V) : CompressType → V
  | .a => h.beforeValue1
  | .b => h.predict2 A
  | .c => h.predict3 A

/-- `diff1`, `diff2`, `diff3`. -/
def History.diff (h : History V) (realValue : V) (t : CompressType) : V :=
  A.fabs (A.sub (h.predictValue A t) realValue)

/-- `compress_type` and `diff_min` after the two comparisons. -/
def History.select (h : History V) (realValue : V) : CompressType × V :=
  let sel := (CompressType.a, h.diff A realValue .a)
  let sel := if A.lt (h.diff A realValue .b) sel.2 then (.b, h.diff A realValue .b) else sel
  if A.lt (h.diff A realValue .c) sel.2 then (.c, h.diff A realValue .c) else sel

variable (lit : BitVec fmt.numBits → List Bool)

/-- The bits that the loop body adds for one element. -/
def codeWord (h : History V) (x : BitVec fmt.numBits) : List Bool :=
  let realValue := A.ofBits x
  if h.anyUnset A then
    if A.ltBound (A.fabs realValue) then smallCode else lit x
  else
    let sel := h.select A realValue
    if A.ltBound (A.fabs realValue) then smallCode
    else if A.leBound sel.2 then sel.1.code
    else lit x

/-- How the loop body updates the history: with the original value. -/
def recordValue (h : History V) (x : BitVec fmt.numBits) : History V :=
  if h.anyUnset A then h.fill A (A.ofBits x) else h.shift (A.ofBits x)

/-- The loop body. -/
def compressStep (s : ByteBuffer × History V) (x : BitVec fmt.numBits) : ByteBuffer × History V :=
  (pushBits s.1 (codeWord A lit s.2 x), recordValue A s.2 x)

/-- The loop, from an empty buffer. -/
def compressWith (data : List (BitVec fmt.numBits)) : ByteBuffer :=
  (data.foldl (compressStep A lit) (ByteBuffer.empty, History.init A)).1

end Compress

/-- `myCompress_bitwise_double`. -/
def myCompressBitwiseDouble {V : Type} (A : FloatArith double V) (data : List (BitVec 64)) :
    ByteBuffer :=
  compressWith A (literal double A.errorBound) data

/-- `myCompress_bitwise`. -/
def myCompressBitwise {V : Type} (A : FloatArith float V) (data : List (BitVec 32)) :
    ByteBuffer :=
  compressWith A (literal float A.errorBound) data

/-- `myCompress_bitwise_double_op`: literals are all 64 bits. -/
def myCompressBitwiseDoubleOp {V : Type} (A : FloatArith double V) (data : List (BitVec 64)) :
    ByteBuffer :=
  compressWith A tostr data

/-- `myCompress_bitwise_op`: literals are all 32 bits. -/
def myCompressBitwiseOp {V : Type} (A : FloatArith float V) (data : List (BitVec 32)) :
    ByteBuffer :=
  compressWith A tostr data

/-- The loop of the compressors without prediction. -/
def compressNp (fmt : Format) (eb : ErrorBound) (data : List (BitVec fmt.numBits)) : ByteBuffer :=
  data.foldl (fun s x => compressBitwise fmt eb x s) ByteBuffer.empty

/-- `myCompress_bitwise_double_np`. -/
def myCompressBitwiseDoubleNp (eb : ErrorBound) (data : List (BitVec 64)) : ByteBuffer :=
  compressNp double eb data

/-- `myCompress_bitwise_np`. -/
def myCompressBitwiseNp (eb : ErrorBound) (data : List (BitVec 32)) : ByteBuffer :=
  compressNp float eb data

/-! ## The code words of a run -/

section Words

variable {fmt : Format} {V : Type} (A : FloatArith fmt V) (lit : BitVec fmt.numBits → List Bool)

theorem recordValue_eq_push (h : History V) (x : BitVec fmt.numBits) :
    recordValue A h x = h.push A (A.ofBits x) := by
  unfold recordValue
  split
  · next hu => rw [History.push_of_anyUnset A hu]
  · next hu => rw [History.push_of_allSet A (by simpa using hu)]

/-- The code words for the elements of a list, in order. -/
def codeWords (h : History V) : List (BitVec fmt.numBits) → List (List Bool)
  | [] => []
  | x :: xs => codeWord A lit h x :: codeWords (h.push A (A.ofBits x)) xs

@[simp] theorem codeWords_length (h : History V) (xs : List (BitVec fmt.numBits)) :
    (codeWords A lit h xs).length = xs.length := by
  induction xs generalizing h with
  | nil => rfl
  | cons x xs ih => simp [codeWords, ih]

theorem CompressType.code_length (t : CompressType) : t.code.length = 3 := by
  cases t <;> rfl

/-- The test for an element that is written as one of the four codes. -/
def coded (h : History V) (x : BitVec fmt.numBits) : Bool :=
  A.ltBound (A.fabs (A.ofBits x)) ||
    (!h.anyUnset A && A.leBound (h.select A (A.ofBits x)).2)

theorem codeWord_length (h : History V) (x : BitVec fmt.numBits) :
    (codeWord A lit h x).length = if coded A h x then 3 else (lit x).length := by
  unfold codeWord coded
  cases hs : A.ltBound (A.fabs (A.ofBits x)) <;> cases hu : h.anyUnset A
  · cases hb : A.leBound (h.select A (A.ofBits x)).2
    · simp [hs, hb]
    · simp [hs, hb, CompressType.code_length]
  · simp [hs]
  · simp [hs, smallCode]
  · simp [hs, smallCode]

/-- The bits of the words of a list, when a literal for `x` has `litBits x` bits. -/
def codeLengths (litBits : BitVec fmt.numBits → Nat) (h : History V) :
    List (BitVec fmt.numBits) → List Nat
  | [] => []
  | x :: xs =>
    (if coded A h x then 3 else litBits x) :: codeLengths litBits (h.push A (A.ofBits x)) xs

theorem codeWords_map_length (h : History V) (xs : List (BitVec fmt.numBits)) :
    (codeWords A lit h xs).map List.length = codeLengths A (fun x => (lit x).length) h xs := by
  induction xs generalizing h with
  | nil => rfl
  | cons x xs ih => rw [codeWords, List.map_cons, ih, codeWord_length, codeLengths]

theorem foldl_compressStep (data : List (BitVec fmt.numBits)) (s : ByteBuffer) (h : History V) :
    (data.foldl (compressStep A lit) (s, h)).1 =
      pushBits s (codeWords A lit h data).flatten := by
  induction data generalizing s h with
  | nil => rfl
  | cons x data ih =>
      rw [List.foldl_cons, compressStep, ih, codeWords, List.flatten_cons, pushBits_append,
        recordValue_eq_push]

/-- A compressor leaves the buffer that packs the concatenated code words. -/
theorem compressWith_packed (data : List (BitVec fmt.numBits)) :
    Packed (compressWith A lit data) (codeWords A lit (History.init A) data).flatten := by
  rw [compressWith, foldl_compressStep]
  exact pushBits_packed _

/-- A list that is not empty takes at least a byte. -/
theorem compressWith_pos (hlit : ∀ x, 0 < (lit x).length) {data : List (BitVec fmt.numBits)}
    (hdata : 1 ≤ data.length) : 0 < (compressWith A lit data).dataBits.length := by
  obtain ⟨x, xs, rfl⟩ := List.exists_cons_of_length_pos hdata
  have hpacked := compressWith_packed A lit (x :: xs)
  have hword : 0 < (codeWord A lit (History.init A) x).length := by
    have := hlit x
    rw [codeWord_length]
    split <;> omega
  have hbits := hpacked.length_eq
  rw [hpacked.bytes_eq, codeWords, List.flatten_cons, List.length_append] at hbits
  omega

theorem compressNp_packed (eb : ErrorBound) (data : List (BitVec fmt.numBits)) :
    Packed (compressNp fmt eb data) (data.map (literal fmt eb)).flatten := by
  have fold : ∀ s, data.foldl (fun s x => compressBitwise fmt eb x s) s =
      pushBits s (data.map (literal fmt eb)).flatten := by
    induction data with
    | nil => intro s; rfl
    | cons x data ih =>
        intro s
        rw [List.foldl_cons, ih, List.map_cons, List.flatten_cons, pushBits_append,
          compressBitwise]
  rw [compressNp, fold]
  exact pushBits_packed _

/-- A code word is the small code, a prediction code or a literal. -/
theorem codeWord_cases (h : History V) (x : BitVec fmt.numBits) :
    (codeWord A lit h x = smallCode ∧ A.ltBound (A.fabs (A.ofBits x)) = true) ∨
    (h.anyUnset A = false ∧
      codeWord A lit h x = (h.select A (A.ofBits x)).1.code ∧
      A.leBound (h.select A (A.ofBits x)).2 = true) ∨
    (codeWord A lit h x = lit x ∧ A.ltBound (A.fabs (A.ofBits x)) = false) := by
  simp only [codeWord]
  by_cases hs : A.ltBound (A.fabs (A.ofBits x)) = true
  · exact .inl ⟨by simp [hs], hs⟩
  · by_cases hu : h.anyUnset A = true
    · exact .inr (.inr ⟨by simp [hs, hu], by simpa using hs⟩)
    · by_cases hb : A.leBound (h.select A (A.ofBits x)).2 = true
      · exact .inr (.inl ⟨by simpa using hu, by simp [hs, hu, hb], hb⟩)
      · exact .inr (.inr ⟨by simp [hs, hu, hb], by simpa using hs⟩)

/-- `diff_min` is the difference to the selected prediction. -/
theorem History.select_diff (h : History V) (v : V) :
    (h.select A v).2 = h.diff A v (h.select A v).1 := by
  simp only [History.select]
  split <;> split <;> rfl

end Words

end MpiApps.Codec
