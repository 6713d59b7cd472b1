/-
  MpiApps.Codec.Bytewise

  The bytewise codec: three arrays instead of a bit stream.

  Elements that are not predicted go to `array_double` (`array_float`) verbatim, a
  predicted element leaves a letter in `array_char` and its position, counted from
  one, in `array_char_displacement`.  The decompressor merges the three again.

  `decompressLoop_replay` shows that the merge replays the compressor's decisions
  one by one; the error law of the codec then follows as for the bitwise codecs,
  with one more slot of history.
-/

import MpiApps.Codec.OnlyPrediction

namespace MpiApps.Codec

open MpiApps.BinaryFormat

/-! ## The code -/

/-- `before_value1` to `before_value4`, the latest first. -/
structure ByteHistory (V : Type) where
  beforeValue1 : V
  beforeValue2 : V
  beforeValue3 : V
  beforeValue4 : V

/-- `compress_type` of the bytewise codec. -/
inductive Letter
  | a
  | b
  | c
  | d
  deriving DecidableEq, Repr

/-- `array_double` (`array_float`), `array_char` and `array_char_displacement`. -/
structure ByteArrays (V : Type) where
  arrayDouble : List V
  arrayChar : List Letter
  arrayCharDisplacement : List Int

section Code

variable {fmt : Format} {V : Type} (A : FloatArith fmt V)

/-- All four slots start at `-1`. -/
def ByteHistory.init : ByteHistory V :=
  ⟨A.ofInt (-1), A.ofInt (-1), A.ofInt (-1), A.ofInt (-1)⟩

/-- `before_value4 == -1 || ... || before_value1 == -1`. -/
def ByteHistory.anyUnset (h : ByteHistory V) : Bool :=
  History.unset A h.beforeValue4 || History.unset A h.beforeValue3 ||
    History.unset A h.beforeValue2 || History.unset A h.beforeValue1

/-- Put a value into the first slot that counts as unset, the fourth one first. -/
def ByteHistory.fill (h : ByteHistory V) (v : V) : ByteHistory V :=
  if History.unset A h.beforeValue4 then { h with beforeValue4 := v }
  else if History.unset A h.beforeValue3 then { h with beforeValue3 := v }
  else if History.unset A h.beforeValue2 then { h with beforeValue2 := v }
  else if History.unset A h.beforeValue1 then { h with beforeValue1 := v }
  else h

/-- Move every value one slot on and put the new one first. -/
def ByteHistory.shift (h : ByteHistory V) (v : V) : ByteHistory V :=
  ⟨v, h.beforeValue1, h.beforeValue2, h.beforeValue3⟩

/-- `predict_value1` to `predict_value4`. -/
def ByteHistory.predictValue (h : ByteHistory V) : Letter → V
  | .a => h.beforeValue1
  | .b => A.sub (A.mul (A.ofInt 2) h.beforeValue1) h.beforeValue2
  | .c => A.add (A.sub (A.mul (A.ofInt 3) h.beforeValue1) (A.mul (A.ofInt 3) h.beforeValue2))
      h.beforeValue3
  | .d => A.sub (A.add (A.sub (A.mul (A.ofInt 4) h.beforeValue1)
      (A.mul (A.ofInt 6) h.beforeValue2)) (A.mul (A.ofInt 4) h.beforeValue3)) h.beforeValue4

/-- `diff1` to `diff4`. -/
def ByteHistory.diff (h : ByteHistory V) (realValue : V) (t : Letter) : V :=
  A.fabs (A.sub (h.predictValue A t) realValue)

/-- `compress_type` and `diff_min` after the three comparisons. -/
def ByteHistory.select (h : ByteHistory V) (realValue : V) : Letter × V :=
  let sel := (Letter.a, h.diff A realValue .a)
  let sel := if A.lt (h.diff A realValue .b) sel.2 then (.b, h.diff A realValue .b) else sel
  let sel := if A.lt (h.diff A realValue .c) sel.2 then (.c, h.diff A realValue .c) else sel
  if A.lt (h.diff A realValue .d) sel.2 then (.d, h.diff A realValue .d) else sel

/-- The loop body of the compressor. -/
def compressBytesStep (s : ByteArrays V × ByteHistory V) (x : BitVec fmt.numBits) :
    ByteArrays V × ByteHistory V :=
  let realValue := A.ofBits x
  if s.2.anyUnset A then
    ({ s.1 with arrayDouble := s.1.arrayDouble ++ [realValue] }, s.2.fill A realValue)
  else
    let sel := s.2.select A realValue
    if A.leBound sel.2 then
      let arrayChar := s.1.arrayChar ++ [sel.1]
      -- array_double_len + array_char_len, with the letter already counted
      ({ s.1 with
          arrayChar := arrayChar
          arrayCharDisplacement := s.1.arrayCharDisplacement ++
            [(s.1.arrayDouble.length + arrayChar.length : Int)] }, s.2.shift realValue)
    else
      ({ s.1 with arrayDouble := s.1.arrayDouble ++ [realValue] }, s.2.shift realValue)

/-- The loop of the compressor, from three null pointers. -/
def compressBytes (data : List (BitVec fmt.numBits)) : ByteArrays V :=
  (data.foldl (compressBytesStep A) (⟨[], [], []⟩, ByteHistory.init A)).1

/-- `data[i]`. -/
def readData (data : List V) (i : Int) : Except Fault V :=
  if 0 ≤ i then
    match data[i.toNat]? with
    | some v => .ok v
    | none => .error .outOfBounds
  else .error .outOfBounds

/-- The extrapolation that a letter stands for, at position `i`. -/
def extrapolate (data : List V) (i : Int) : Letter → Except Fault V
  | .a => readData data (i - 1)
  | .b => do
    let d₁ ← readData data (i - 1)
    let d₂ ← readData data (i - 2)
    return A.sub (A.mul (A.ofInt 2) d₁) d₂
  | .c => do
    let d₁ ← readData data (i - 1)
    let d₂ ← readData data (i - 2)
    let d₃ ← readData data (i - 3)
    return A.add (A.sub (A.mul (A.ofInt 3) d₁) (A.mul (A.ofInt 3) d₂)) d₃
  | .d => do
    let d₁ ← readData data (i - 1)
    let d₂ ← readData data (i - 2)
    let d₃ ← readData data (i - 3)
    let d₄ ← readData data (i - 4)
    return A.sub (A.add (A.sub (A.mul (A.ofInt 4) d₁) (A.mul (A.ofInt 6) d₂))
      (A.mul (A.ofInt 4) d₃)) d₄

/-- The variables of the decompressor: `data` written so far and the three cursors. -/
structure ByteCursors (V : Type) where
  data : List V
  arrayDoubleP : Nat
  arrayCharP : Nat
  arrayCharDisplacementP : Nat

/-- The loop body of the decompressor.  The displacement array is read before it is
    known whether an entry is left; `past` is the integer that a read past its end finds. -/
def decompressBytesStep (arrays : ByteArrays V) (past : Int) (s : ByteCursors V) (i : Nat) :
    Except Fault (ByteCursors V) := do
  if arrays.arrayCharDisplacement ≠ [] ∧
      arrays.arrayCharDisplacement.getD s.arrayCharDisplacementP past - 1 = i then
    match arrays.arrayChar[s.arrayCharP]? with
    | some letter =>
      let v ← extrapolate A s.data i letter
      return { s with
        data := s.data ++ [v]
        arrayCharP := s.arrayCharP + 1
        arrayCharDisplacementP := s.arrayCharDisplacementP + 1 }
    | none => throw .outOfBounds
  else
    match arrays.arrayDouble[s.arrayDoubleP]? with
    | some v => return { s with data := s.data ++ [v], arrayDoubleP := s.arrayDoubleP + 1 }
    | none => throw .outOfBounds

/-- The loop of the decompressor. -/
def decompressBytes (arrays : ByteArrays V) (past : Int) (num : Nat) : Except Fault (List V) := do
  let s ← (List.range num).foldlM (decompressBytesStep A arrays past) ⟨[], 0, 0, 0⟩
  return s.data

end Code

/-- `myCompress_double`. -/
def myCompressDouble {V : Type} (A : FloatArith double V) (data : List (BitVec 64)) :
    ByteArrays V :=
  compressBytes A data

/-- `myCompress`. -/
def myCompress {V : Type} (A : FloatArith float V) (data : List (BitVec 32)) : ByteArrays V :=
  compressBytes A data

/-- `myDecompress_double`. -/
def myDecompressDouble {V : Type} (A : FloatArith double V) (arrays : ByteArrays V) (past : Int)
    (num : Nat) : Except Fault (List V) :=
  decompressBytes A arrays past num

/-- `myDecompress`. -/
def myDecompress {V : Type} (A : FloatArith float V) (arrays : ByteArrays V) (past : Int)
    (num : Nat) : Except Fault (List V) :=
  decompressBytes A arrays past num

/-! ## The decisions of the compressor -/

section Codes

variable {fmt : Format} {V : Type} (A : FloatArith fmt V)

/-- The letter for an element, `none` if it is sent verbatim. -/
def byteCode (h : ByteHistory V) (x : BitVec fmt.numBits) : Option Letter :=
  if h.anyUnset A then none
  else if A.leBound (h.select A (A.ofBits x)).2 then some (h.select A (A.ofBits x)).1
  else none

/-- How an element changes the history. -/
def ByteHistory.push (h : ByteHistory V) (v : V) : ByteHistory V :=
  if h.anyUnset A then h.fill A v else h.shift v

/-- The elements of a list with the letters chosen for them. -/
def byteCodes (h : ByteHistory V) : List (BitVec fmt.numBits) → List (V × Option Letter)
  | [] => []
  | x :: xs => (A.ofBits x, byteCode A h x) :: byteCodes (h.push A (A.ofBits x)) xs

/-- What goes to `array_double`. -/
def verbatim (ps : List (V × Option Letter)) : List V :=
  ps.filterMap fun p => if p.2.isNone then some p.1 else none

/-- What goes to `array_char`. -/
def letters (ps : List (V × Option Letter)) : List Letter := ps.filterMap (·.2)

/-- What goes to `array_char_displacement` when `n` elements came before. -/
def displacements : Nat → List (V × Option Letter) → List Int
  | _, [] => []
  | n, (_, none) :: ps => displacements (n + 1) ps
  | n, (_, some _) :: ps => ((n + 1 : Nat) : Int) :: displacements (n + 1) ps

@[simp] theorem byteCodes_length (h : ByteHistory V) (xs : List (BitVec fmt.numBits)) :
    (byteCodes A h xs).length = xs.length := by
  induction xs generalizing h with
  | nil => rfl
  | cons x xs ih => simp [byteCodes, ih]

/-- Run lemma: the arrays grow by what the decisions say.  A displacement is the number
    of elements up to and including the one that it stands for. -/
theorem foldl_compressBytesStep (xs : List (BitVec fmt.numBits)) (arrays : ByteArrays V)
    (h : ByteHistory V) :
    (xs.foldl (compressBytesStep A) (arrays, h)).1 =
      ⟨arrays.arrayDouble ++ verbatim (byteCodes A h xs),
        arrays.arrayChar ++ letters (byteCodes A h xs),
        arrays.arrayCharDisplacement ++
          displacements (arrays.arrayDouble.length + arrays.arrayChar.length)
            (byteCodes A h xs)⟩ := by
  induction xs generalizing arrays h with
  | nil => simp [byteCodes, verbatim, letters, displacements]
  | cons x xs ih =>
      rw [List.foldl_cons, compressBytesStep]
      -- a history that is not full, a prediction within the bound, one outside
      by_cases hu : h.anyUnset A = true
      · have hcode : byteCode A h x = none := by simp [byteCode, hu]
        simp only [hu, if_true]
        rw [ih]
        simp [byteCodes, hcode, ByteHistory.push, hu, verbatim, letters, displacements,
          Nat.add_right_comm]
      · by_cases hb : A.leBound (h.select A (A.ofBits x)).2 = true
        · have hcode : byteCode A h x = some (h.select A (A.ofBits x)).1 := by
            simp [byteCode, hu, hb]
          simp only [hu, hb, if_true, Bool.false_eq_true, if_false]
          rw [ih]
          simp [byteCodes, hcode, ByteHistory.push, hu, verbatim, letters, displacements,
            add_assoc]
        · have hcode : byteCode A h x = none := by simp [byteCode, hu, hb]
          simp only [hu, hb, Bool.false_eq_true, if_false]
          rw [ih]
          simp [byteCodes, hcode, ByteHistory.push, hu, verbatim, letters, displacements,
            Nat.add_right_comm]

theorem compressBytes_eq (xs : List (BitVec fmt.numBits)) :
    compressBytes A xs =
      ⟨verbatim (byteCodes A (ByteHistory.init A) xs),
        letters (byteCodes A (ByteHistory.init A) xs),
        displacements 0 (byteCodes A (ByteHistory.init A) xs)⟩ := by
  rw [compressBytes, foldl_compressBytesStep]
  simp

/-! ## The merge replays the decisions -/

/-- One decision: a verbatim element is copied, a letter is extrapolated. -/
def replayStep (data : List V) (p : V × Option Letter) : Except Fault (List V) :=
  match p.2 with
  | none => .ok (data ++ [p.1])
  | some t => (extrapolate A data data.length t).map fun v => data ++ [v]

theorem lt_of_mem_displacements {n : Nat} {ps : List (V × Option Letter)} {d : Int}
    (h : d ∈ displacements n ps) : (n : Int) < d := by
  induction ps generalizing n with
  | nil => simp [displacements] at h
  | cons p ps ih =>
      obtain ⟨v, code⟩ := p
      cases code with
      | none =>
          have := ih h
          omega
      | some t =>
          rcases List.mem_cons.mp h with rfl | h
          · omega
          · have := ih h
            omega

/-- At a verbatim element the displacement cursor points further on, or past the end. -/
theorem displacements_eq_nil {n : Nat} {ps : List (V × Option Letter)} {past : Int}
    {done : List Int}
    (h : (done ++ displacements (n + 1) ps).getD done.length past - 1 = n) :
    displacements (n + 1) ps = [] ∧ past - 1 = n := by
  rw [List.getD_eq_getElem?_getD, List.getElem?_append_right (Nat.le_refl _), Nat.sub_self] at h
  cases hd : displacements (n + 1) ps with
  | nil =>
      rw [hd] at h
      exact ⟨rfl, h⟩
  | cons d ds =>
      have hlt : ((n + 1 : Nat) : Int) < d := lt_of_mem_displacements (hd ▸ List.mem_cons_self)
      rw [hd, List.getElem?_cons_zero, Option.getD_some] at h
      omega

theorem letters_eq_nil {n : Nat} {ps : List (V × Option Letter)} (h : displacements n ps = []) :
    letters ps = [] := by
  induction ps generalizing n with
  | nil => rfl
  | cons p ps ih =>
      obtain ⟨v, code⟩ := p
      cases code with
      | none => exact ih h
      | some t => simp [displacements] at h

/-- Arrays of which `ds`, `cs` and `js` have been read, before the decisions `ps` for the
    elements from `n` on. -/
def arraysBefore (ds : List V) (cs : List Letter) (js : List Int) (n : Nat)
    (ps : List (V × Option Letter)) : ByteArrays V :=
  ⟨ds ++ verbatim ps, cs ++ letters ps, js ++ displacements n ps⟩

section Replay

variable (past : Int) (data ds : List V) (cs : List Letter) (js : List Int) (x : V) (t : Letter)
  (ps : List (V × Option Letter))

theorem arraysBefore_verbatim (n : Nat) :
    arraysBefore ds cs js n ((x, none) :: ps) = arraysBefore (ds ++ [x]) cs js (n + 1) ps := by
  simp [arraysBefore, verbatim, letters, displacements]

theorem arraysBefore_letter (n : Nat) :
    arraysBefore ds cs js n ((x, some t) :: ps) =
      arraysBefore ds (cs ++ [t]) (js ++ [((n + 1 : Nat) : Int)]) (n + 1) ps := by
  simp [arraysBefore, verbatim, letters, displacements]

/-- Step lemma: a verbatim element is copied.  If no displacement is left and the integer
    behind them happens to be its position, the read of a letter for it is out of bounds. -/
theorem decompressBytesStep_verbatim :
    decompressBytesStep A (arraysBefore ds cs js data.length ((x, none) :: ps)) past
        ⟨data, ds.length, cs.length, js.length⟩ data.length =
      .ok ⟨data ++ [x], ds.length + 1, cs.length, js.length⟩ ∨
    past - 1 = (data.length : Int) ∧
      decompressBytesStep A (arraysBefore ds cs js data.length ((x, none) :: ps)) past
        ⟨data, ds.length, cs.length, js.length⟩ data.length = .error .outOfBounds := by
  -- the cursor can point at a literal only from behind the displacements
  by_cases hC : js ++ displacements data.length ((x, none) :: ps) ≠ [] ∧
      (js ++ displacements data.length ((x, none) :: ps)).getD js.length past - 1 =
        (data.length : Int)
  · obtain ⟨hnil, hp⟩ := displacements_eq_nil hC.2
    have hget : (cs ++ letters ((x, none) :: ps))[cs.length]? = none := by
      show (cs ++ letters ps)[cs.length]? = none
      rw [letters_eq_nil hnil, List.append_nil, List.getElem?_eq_none (Nat.le_refl _)]
    refine .inr ⟨hp, ?_⟩
    simp only [decompressBytesStep, arraysBefore, if_pos hC, hget]
    rfl
  · have hget : (ds ++ verbatim ((x, none) :: ps))[ds.length]? = some x := by
      simp [verbatim]
    refine .inl ?_
    simp only [decompressBytesStep, arraysBefore, if_neg hC, hget]
    rfl

/-- Step lemma: for a letter the element is extrapolated. -/
theorem decompressBytesStep_letter :
    decompressBytesStep A (arraysBefore ds cs js data.length ((x, some t) :: ps)) past
        ⟨data, ds.length, cs.length, js.length⟩ data.length =
      (extrapolate A data data.length t).map fun v =>
        ⟨data ++ [v], ds.length, cs.length + 1, js.length + 1⟩ := by
  have hpos : js ++ displacements data.length ((x, some t) :: ps) ≠ [] ∧
      (js ++ displacements data.length ((x, some t) :: ps)).getD js.length past - 1 =
        (data.length : Int) := by
    constructor
    · simp [displacements]
    · simp [displacements, List.getD_eq_getElem?_getD]
  have hget : (cs ++ letters ((x, some t) :: ps))[cs.length]? = some t := by
    simp [letters]
  simp only [decompressBytesStep, arraysBefore, if_pos hpos, hget]
  cases extrapolate A data data.length t <;> rfl

end Replay

/-- Run lemma: from the `n`-th element on, with the cursors behind what the elements
    before it have left in the arrays.  If the integer behind the displacements happens
    to be the position of a verbatim element, the read of its letter is out of bounds. -/
theorem decompressLoop_replay (past : Int) (ps : List (V × Option Letter))
    (data ds : List V) (cs : List Letter) (js : List Int) :
    (List.range' data.length ps.length).foldlM
        (decompressBytesStep A (arraysBefore ds cs js data.length ps) past)
        ⟨data, ds.length, cs.length, js.length⟩ =
      ((ps.foldlM (replayStep A) data).map fun data' =>
        ⟨data', ds.length + (verbatim ps).length, cs.length + (letters ps).length,
          js.length + (letters ps).length⟩) ∨
    ((∃ i, data.length ≤ i ∧ i < data.length + ps.length ∧ past - 1 = (i : Int)) ∧
      (List.range' data.length ps.length).foldlM
        (decompressBytesStep A (arraysBefore ds cs js data.length ps) past)
        ⟨data, ds.length, cs.length, js.length⟩ = .error .outOfBounds) := by
  induction ps generalizing data ds cs js with
  | nil => exact .inl rfl
  | cons p ps ih =>
      obtain ⟨x, code⟩ := p
      rw [List.length_cons, List.range'_succ, List.foldlM_cons, List.foldlM_cons]
      cases code with
      | none =>
          -- a literal: `past` may point at it, and the letter that is wanted is not there
          rcases decompressBytesStep_verbatim A past data ds cs js x ps with hone | ⟨hp, hone⟩
          · have h := ih (data ++ [x]) (ds ++ [x]) cs js
            simp only [List.length_append, List.length_singleton] at h
            rw [hone, ok_bind, arraysBefore_verbatim, replayStep, ok_bind]
            have hlen : ds.length + (verbatim ((x, none) :: ps)).length =
                ds.length + 1 + (verbatim ps).length := by
              show ds.length + ((verbatim ps).length + 1) = _
              omega
            rw [hlen]
            exact h.imp id fun ⟨⟨i, h1, h2, h3⟩, h⟩ => ⟨⟨i, by omega, by omega, h3⟩, h⟩
          · refine .inr ⟨⟨data.length, Nat.le_refl _, by omega, hp⟩, ?_⟩
            rw [hone]
            rfl
      | some t =>
          -- a letter: its displacement is the next one
          rw [decompressBytesStep_letter A past data ds cs js x t ps, arraysBefore_letter]
          simp only [replayStep]
          cases extrapolate A data data.length t with
          | error f => exact .inl rfl
          | ok v =>
              have h := ih (data ++ [v]) ds (cs ++ [t]) (js ++ [((data.length + 1 : Nat) : Int)])
              simp only [List.length_append, List.length_singleton] at h
              simp only [map_ok, ok_bind]
              have hlen : ∀ n : Nat, n + (letters ((x, some t) :: ps)).length =
                  n + 1 + (letters ps).length := fun n => by
                show n + ((letters ps).length + 1) = _
                omega
              rw [hlen, hlen]
              exact h.imp id fun ⟨⟨i, h1, h2, h3⟩, h⟩ => ⟨⟨i, by omega, by omega, h3⟩, h⟩

/-- The decompressor on the compressor's arrays: the decisions one by one, unless the
    integer behind the displacements is the position of an element. -/
theorem decompressBytes_compressBytes (past : Int) (xs : List (BitVec fmt.numBits)) :
    decompressBytes A (compressBytes A xs) past xs.length =
        (byteCodes A (ByteHistory.init A) xs).foldlM (replayStep A) [] ∨
      (0 < past ∧ past ≤ xs.length ∧
        decompressBytes A (compressBytes A xs) past xs.length = .error .outOfBounds) := by
  have h := decompressLoop_replay A past (byteCodes A (ByteHistory.init A) xs) [] [] [] []
  simp only [arraysBefore, List.nil_append, List.length_nil, byteCodes_length] at h
  rw [compressBytes_eq, decompressBytes, List.range_eq_range']
  obtain h | ⟨⟨i, _, hi, hp⟩, h⟩ := h
  · refine .inl ?_
    rw [h]
    cases (byteCodes A (ByteHistory.init A) xs).foldlM (replayStep A) [] <;> rfl
  · refine .inr ⟨by omega, by omega, ?_⟩
    rw [h]
    rfl

theorem byteCodes_getElem? (h : ByteHistory V) (xs : List (BitVec fmt.numBits)) (i : Nat) :
    (byteCodes A h xs)[i]? = xs[i]?.map fun x =>
      (A.ofBits x,
        byteCode A (((xs.take i).map A.ofBits).foldl (fun h v => h.push A v) h) x) := by
  induction xs generalizing h i with
  | nil => simp [byteCodes]
  | cons x xs ih =>
      cases i with
      | zero => simp [byteCodes]
      | succ i => simp [byteCodes, ih]

end Codes

/-! ## The error law -/

section Law

variable {fmt : Format} {eb : ErrorBound}

/-- The weights with which the errors of the last four elements enter a prediction. -/
def Letter.amplify (e₁ e₂ e₃ e₄ : ℚ) : Letter → ℚ
  | .a => e₁
  | .b => 2 * e₁ + e₂
  | .c => 3 * e₁ + 3 * e₂ + e₃
  | .d => 4 * e₁ + 6 * e₂ + 4 * e₃ + e₄

/-- The bound after one more element, from the bounds of the last four. -/
def byteBoundStep (eb : ErrorBound) (e : ℚ × ℚ × ℚ × ℚ) (code : Option Letter) :
    ℚ × ℚ × ℚ × ℚ :=
  (match code with
    | some t => eb.absErrBound + t.amplify e.1 e.2.1 e.2.2.1 e.2.2.2
    | none => 0, e.1, e.2.1, e.2.2.1)

/-- The bound of element `i`: zero if it is verbatim, `absErrBound` plus the weighted
    bounds of the last four elements if it is predicted. -/
def byteBoundAt (eb : ErrorBound) (codes : List (Option Letter)) (i : Nat) : ℚ :=
  ((codes.take (i + 1)).foldl (byteBoundStep eb) (0, 0, 0, 0)).1

/-- The error law of the bytewise codec: a run that returns has all elements, and each of
    them satisfies the bounds. -/
def ByteErrorLaw (fmt : Format) (eb : ErrorBound) (xs : List (BitVec fmt.numBits))
    (codes : List (Option Letter)) (run : Except Fault (List ℚ)) : Prop :=
  ∀ ys, run = .ok ys → ys.length = xs.length ∧ ∀ (i : Nat) code, codes[i]? = some code →
    -- verbatim elements
    (code = none → errorAt fmt xs ys i = 0) ∧
    -- predicted elements, one step
    (∀ t, code = some t → 4 ≤ i ∧ errorAt fmt xs ys i ≤ eb.absErrBound +
      t.amplify (errorAt fmt xs ys (i - 1)) (errorAt fmt xs ys (i - 2))
        (errorAt fmt xs ys (i - 3)) (errorAt fmt xs ys (i - 4))) ∧
    -- and accumulated from the first element on
    errorAt fmt xs ys i ≤ byteBoundAt eb codes i

/-- The last four values of a list. -/
def lastFour (vs : List ℚ) : ByteHistory ℚ :=
  ⟨vs.getD (vs.length - 1) 0, vs.getD (vs.length - 2) 0, vs.getD (vs.length - 3) 0,
    vs.getD (vs.length - 4) 0⟩

/-- The history after a list of values, the latest first, none of which is `-1`. -/
def byteHistoryOf : List ℚ → ByteHistory ℚ
  | [] => ⟨-1, -1, -1, -1⟩
  | [v₁] => ⟨-1, -1, -1, v₁⟩
  | [v₁, v₂] => ⟨-1, -1, v₁, v₂⟩
  | [v₁, v₂, v₃] => ⟨-1, v₁, v₂, v₃⟩
  | v₁ :: v₂ :: v₃ :: v₄ :: _ => ⟨v₁, v₂, v₃, v₄⟩

theorem push_byteHistoryOf {vs : List ℚ} (hvs : ∀ v ∈ vs, v ≠ -1) (v : ℚ) :
    (byteHistoryOf vs).push (FloatArith.exact fmt eb) v = byteHistoryOf (v :: vs) := by
  -- up to four values the history fills up, then it shifts
  match vs with
  | [] =>
      simp [byteHistoryOf, ByteHistory.push, ByteHistory.anyUnset, ByteHistory.fill,
        History.unset, FloatArith.exact]
  | [v₁] =>
      have h₁ := hvs v₁ (by simp)
      simp [byteHistoryOf, ByteHistory.push, ByteHistory.anyUnset, ByteHistory.fill,
        History.unset, FloatArith.exact, h₁]
  | [v₁, v₂] =>
      have h₁ := hvs v₁ (by simp)
      have h₂ := hvs v₂ (by simp)
      simp [byteHistoryOf, ByteHistory.push, ByteHistory.anyUnset, ByteHistory.fill,
        History.unset, FloatArith.exact, h₁, h₂]
  | [v₁, v₂, v₃] =>
      have h₁ := hvs v₁ (by simp)
      have h₂ := hvs v₂ (by simp)
      have h₃ := hvs v₃ (by simp)
      simp [byteHistoryOf, ByteHistory.push, ByteHistory.anyUnset, ByteHistory.fill,
        History.unset, FloatArith.exact, h₁, h₂, h₃]
  | v₁ :: v₂ :: v₃ :: v₄ :: vs =>
      have h₁ := hvs v₁ (by simp)
      have h₂ := hvs v₂ (by simp)
      have h₃ := hvs v₃ (by simp)
      have h₄ := hvs v₄ (by simp)
      simp [byteHistoryOf, ByteHistory.push, ByteHistory.anyUnset, ByteHistory.shift,
        History.unset, FloatArith.exact, h₁, h₂, h₃, h₄]

/-- Run lemma: pushing values that are not `-1` from the start. -/
theorem foldl_bytePush_eq (fmt : Format) (eb : ErrorBound) {vs : List ℚ}
    (hvs : ∀ v ∈ vs, v ≠ -1) :
    vs.foldl (fun h v => h.push (FloatArith.exact fmt eb) v)
      (ByteHistory.init (FloatArith.exact fmt eb)) = byteHistoryOf vs.reverse := by
  induction vs using List.reverseRecOn with
  | nil => simp [ByteHistory.init, byteHistoryOf, FloatArith.exact]
  | append_singleton vs v ih =>
      have hvs' : ∀ u ∈ vs, u ≠ -1 := fun u hu => hvs u (by simp [hu])
      rw [List.foldl_append, ih hvs', List.foldl_cons, List.foldl_nil,
        push_byteHistoryOf (by simpa using hvs'), List.reverse_append, List.reverse_singleton,
        List.singleton_append]

theorem anyUnset_byteHistoryOf_short {vs : List ℚ} (h : vs.length < 4) :
    (byteHistoryOf vs).anyUnset (FloatArith.exact fmt eb) = true := by
  match vs with
  | [] => simp [byteHistoryOf, ByteHistory.anyUnset, History.unset, FloatArith.exact]
  | [v₁] => simp [byteHistoryOf, ByteHistory.anyUnset, History.unset, FloatArith.exact]
  | [v₁, v₂] => simp [byteHistoryOf, ByteHistory.anyUnset, History.unset, FloatArith.exact]
  | [v₁, v₂, v₃] => simp [byteHistoryOf, ByteHistory.anyUnset, History.unset, FloatArith.exact]
  | v₁ :: v₂ :: v₃ :: v₄ :: vs => exact absurd h (by simp)

theorem byteHistoryOf_reverse {vs : List ℚ} (h : 4 ≤ vs.length) :
    byteHistoryOf vs.reverse = lastFour vs := by
  obtain ⟨k, hk⟩ : ∃ k, vs.length = k + 4 := ⟨vs.length - 4, by omega⟩
  have h0 : k < vs.length := by omega
  have h1 : k + 1 < vs.length := by omega
  have h2 : k + 2 < vs.length := by omega
  have h3 : k + 3 < vs.length := by omega
  have hsplit : vs = vs.take k ++ [vs[k], vs[k + 1], vs[k + 2], vs[k + 3]] := by
    conv_lhs => rw [← List.take_length (l := vs), hk]
    rw [List.take_succ_eq_append_getElem h3, List.take_succ_eq_append_getElem h2,
      List.take_succ_eq_append_getElem h1, List.take_succ_eq_append_getElem h0,
      List.append_assoc, List.append_assoc, List.append_assoc]
    rfl
  conv_lhs => rw [hsplit]
  rw [List.reverse_append]
  simp [byteHistoryOf, lastFour, hk]

/-- Behind four elements a letter extrapolates the last four. -/
theorem extrapolate_eq {data : List ℚ} (h : 4 ≤ data.length) (t : Letter) :
    extrapolate (FloatArith.exact fmt eb) data data.length t =
      .ok ((lastFour data).predictValue (FloatArith.exact fmt eb) t) := by
  -- the four last values are there
  have hread : ∀ k : Nat, 1 ≤ k → k ≤ 4 →
      readData data ((data.length : Int) - k) = .ok (data.getD (data.length - k) 0) := by
    intro k hk1 hk4
    have hlt : data.length - k < data.length := by omega
    have hnat : ((data.length : Int) - k).toNat = data.length - k := by omega
    rw [readData, if_pos (by omega), hnat, List.getD_eq_getElem?_getD,
      List.getElem?_eq_getElem hlt]
    rfl
  have h1 := hread 1 (by decide) (by decide)
  have h2 := hread 2 (by decide) (by decide)
  have h3 := hread 3 (by decide) (by decide)
  have h4 := hread 4 (by decide) (by decide)
  simp only [Nat.cast_one, Nat.cast_ofNat] at h1 h2 h3 h4
  cases t with
  | a => exact h1
  | b =>
      simp only [extrapolate, h1, h2, ok_bind]
      rfl
  | c =>
      simp only [extrapolate, h1, h2, h3, ok_bind]
      rfl
  | d =>
      simp only [extrapolate, h1, h2, h3, h4, ok_bind]
      rfl

/-- Replaying decisions whose letters all come behind four elements. -/
theorem foldlM_replayStep (fmt : Format) (eb : ErrorBound) (ps : List (ℚ × Option Letter))
    (data : List ℚ)
    (h : ∀ (i : Nat) p, ps[i]? = some p → p.2 ≠ none → 4 ≤ data.length + i) :
    ∃ ys, ps.foldlM (replayStep (FloatArith.exact fmt eb)) data = .ok (data ++ ys) ∧
      ys.length = ps.length ∧
      ∀ (i : Nat) p y, ps[i]? = some p → ys[i]? = some y →
        (p.2 = none → y = p.1) ∧
        (∀ t, p.2 = some t →
          y = (lastFour (data ++ ys.take i)).predictValue (FloatArith.exact fmt eb) t) := by
  induction ps generalizing data with
  | nil => exact ⟨[], by simp; rfl, rfl, by simp⟩
  | cons p ps ih =>
      -- a letter is met with four values in front of it
      obtain ⟨v, hv, hval⟩ : ∃ v, replayStep (FloatArith.exact fmt eb) data p = .ok (data ++ [v]) ∧
          ((p.2 = none → v = p.1) ∧
          (∀ t, p.2 = some t →
            v = (lastFour data).predictValue (FloatArith.exact fmt eb) t)) := by
        cases hp : p.2 with
        | none => exact ⟨p.1, by rw [replayStep, hp], fun _ => rfl, by simp⟩
        | some t =>
            have h4 : 4 ≤ data.length := by
              have := h 0 p rfl (by simp [hp])
              omega
            refine ⟨(lastFour data).predictValue (FloatArith.exact fmt eb) t, ?_, by simp, ?_⟩
            · simp only [replayStep, hp]
              rw [extrapolate_eq h4, map_ok]
            · intro t' ht'
              rw [Option.some.inj ht']
      obtain ⟨ys, hys, hlen, hall⟩ := ih (data ++ [v]) (by
        intro i q hq hne
        have := h (i + 1) q (by simpa using hq) hne
        rw [List.length_append, List.length_singleton]
        omega)
      refine ⟨v :: ys, ?_, by simp [hlen], ?_⟩
      · rw [List.foldlM_cons, hv, ok_bind, hys]
        simp
      · intro i q y hq hy
        cases i with
        | zero =>
            obtain rfl : p = q := by simpa using hq
            obtain rfl : v = y := by simpa using hy
            simpa using hval
        | succ i =>
            have := hall i q y (by simpa using hq) (by simpa using hy)
            simpa using this

theorem Letter.amplify_mono (t : Letter) {e₁ e₂ e₃ e₄ f₁ f₂ f₃ f₄ : ℚ} (h₁ : e₁ ≤ f₁)
    (h₂ : e₂ ≤ f₂) (h₃ : e₃ ≤ f₃) (h₄ : e₄ ≤ f₄) :
    t.amplify e₁ e₂ e₃ e₄ ≤ t.amplify f₁ f₂ f₃ f₄ := by
  cases t <;> simp only [Letter.amplify] <;> linarith

theorem abs_bytePredict_sub_le (fmt : Format) (eb : ErrorBound) (h h' : ByteHistory ℚ)
    (t : Letter) :
    |h'.predictValue (FloatArith.exact fmt eb) t - h.predictValue (FloatArith.exact fmt eb) t| ≤
      t.amplify |h'.beforeValue1 - h.beforeValue1| |h'.beforeValue2 - h.beforeValue2|
        |h'.beforeValue3 - h.beforeValue3| |h'.beforeValue4 - h.beforeValue4| := by
  have e1 := abs_le.mp (le_refl |h'.beforeValue1 - h.beforeValue1|)
  have e2 := abs_le.mp (le_refl |h'.beforeValue2 - h.beforeValue2|)
  have e3 := abs_le.mp (le_refl |h'.beforeValue3 - h.beforeValue3|)
  have e4 := abs_le.mp (le_refl |h'.beforeValue4 - h.beforeValue4|)
  -- each prediction is linear in the history, with the coefficients of `amplify`
  cases t with
  | a => exact le_refl _
  | b =>
      simp only [ByteHistory.predictValue, FloatArith.exact, Letter.amplify, Int.cast_ofNat]
      rw [abs_le]
      constructor <;> linarith [e1.1, e1.2, e2.1, e2.2]
  | c =>
      simp only [ByteHistory.predictValue, FloatArith.exact, Letter.amplify, Int.cast_ofNat]
      rw [abs_le]
      constructor <;> linarith [e1.1, e1.2, e2.1, e2.2, e3.1, e3.2]
  | d =>
      simp only [ByteHistory.predictValue, FloatArith.exact, Letter.amplify, Int.cast_ofNat]
      rw [abs_le]
      constructor <;> linarith [e1.1, e1.2, e2.1, e2.2, e3.1, e3.2, e4.1, e4.2]

/-- `diff_min` is the difference to the selected prediction. -/
theorem ByteHistory.select_diff {V : Type} (A : FloatArith fmt V) (h : ByteHistory V) (v : V) :
    (h.select A v).2 = h.diff A v (h.select A v).1 := by
  simp only [ByteHistory.select]
  split <;> split <;> split <;> rfl

/-- What the compressor knows when it writes a letter. -/
theorem byteCode_some {h : ByteHistory ℚ} {x : BitVec fmt.numBits} {t : Letter}
    (hc : byteCode (FloatArith.exact fmt eb) h x = some t) :
    h.anyUnset (FloatArith.exact fmt eb) = false ∧
    |h.predictValue (FloatArith.exact fmt eb) t - fmt.value (bitsOf x)| ≤ eb.absErrBound := by
  unfold byteCode at hc
  split at hc
  · cases hc
  · next hu =>
      split at hc
      · next hb =>
          refine ⟨by simpa using hu, ?_⟩
          have ht : (h.select (FloatArith.exact fmt eb) (fmt.value (bitsOf x))).1 = t :=
            Option.some.inj hc
          have hle : (h.select (FloatArith.exact fmt eb) (fmt.value (bitsOf x))).2 ≤
              eb.absErrBound := of_decide_eq_true hb
          rw [ByteHistory.select_diff, ht] at hle
          exact hle
      · cases hc

theorem foldl_byteBoundStep (codes : List (Option Letter)) {i : Nat} (h4 : 4 ≤ i)
    (hi : i ≤ codes.length) :
    (codes.take i).foldl (byteBoundStep eb) (0, 0, 0, 0) =
      (byteBoundAt eb codes (i - 1), byteBoundAt eb codes (i - 2), byteBoundAt eb codes (i - 3),
        byteBoundAt eb codes (i - 4)) := by
  obtain ⟨k, rfl⟩ : ∃ k, i = k + 4 := ⟨i - 4, by omega⟩
  have h1 : k + 1 < codes.length := by omega
  have h2 : k + 2 < codes.length := by omega
  have h3 : k + 3 < codes.length := by omega
  simp only [byteBoundAt, Nat.add_sub_cancel, show k + 4 - 1 = k + 3 by omega,
    show k + 4 - 2 = k + 2 by omega, show k + 4 - 3 = k + 1 by omega]
  rw [List.take_succ_eq_append_getElem h3, List.foldl_append,
    List.take_succ_eq_append_getElem h2, List.foldl_append,
    List.take_succ_eq_append_getElem h1, List.foldl_append]
  simp [byteBoundStep]

theorem byteBoundAt_eq (codes : List (Option Letter)) {i : Nat} {code : Option Letter}
    (hc : codes[i]? = some code) :
    byteBoundAt eb codes i =
      (byteBoundStep eb ((codes.take i).foldl (byteBoundStep eb) (0, 0, 0, 0)) code).1 := by
  obtain ⟨hi, rfl⟩ := List.getElem?_eq_some_iff.mp hc
  rw [byteBoundAt, List.take_succ_eq_append_getElem hi, List.foldl_append]
  rfl

theorem lastFour_take (vs : List ℚ) {i : Nat} (hi : i ≤ vs.length) (h4 : 4 ≤ i) :
    lastFour (vs.take i) =
      ⟨vs.getD (i - 1) 0, vs.getD (i - 2) 0, vs.getD (i - 3) 0, vs.getD (i - 4) 0⟩ := by
  have hlen : (vs.take i).length = i := by rw [List.length_take]; omega
  have hget : ∀ j < i, (vs.take i).getD j 0 = vs.getD j 0 := by
    intro j hj
    rw [List.getD_eq_getElem?_getD, List.getD_eq_getElem?_getD, List.getElem?_take_of_lt hj]
  rw [lastFour, hlen, hget _ (by omega), hget _ (by omega), hget _ (by omega),
    hget _ (by omega)]

/-- The decisions of the compressor in exact arithmetic. -/
def exactCodes (fmt : Format) (eb : ErrorBound) (xs : List (BitVec fmt.numBits)) :
    List (ℚ × Option Letter) :=
  byteCodes (FloatArith.exact fmt eb) (ByteHistory.init (FloatArith.exact fmt eb)) xs

theorem exactCodes_length (xs : List (BitVec fmt.numBits)) :
    (exactCodes fmt eb xs).length = xs.length := byteCodes_length _ _ _

section Replayed

variable {xs : List (BitVec fmt.numBits)} {ys : List ℚ}

/-- Element `i` is decided on from the last four original values. -/
theorem exactCodes_getElem? (hxs : ∀ x ∈ xs, fmt.value (bitsOf x) ≠ -1) {i : Nat}
    {p : ℚ × Option Letter} (hp : (exactCodes fmt eb xs)[i]? = some p) :
    ∃ x, xs[i]? = some x ∧
      p = (fmt.value (bitsOf x), byteCode (FloatArith.exact fmt eb)
        (byteHistoryOf ((xs.take i).map fun x => fmt.value (bitsOf x)).reverse) x) := by
  have henc : ∀ v ∈ (xs.take i).map fun x => fmt.value (bitsOf x), v ≠ -1 := by
    intro v hv
    obtain ⟨u, hu, rfl⟩ := List.mem_map.mp hv
    exact hxs u (List.mem_of_mem_take hu)
  rw [exactCodes, byteCodes_getElem?, Option.map_eq_some_iff] at hp
  obtain ⟨x, hx, rfl⟩ := hp
  refine ⟨x, hx, ?_⟩
  rw [← foldl_bytePush_eq fmt eb henc]
  rfl

theorem four_le_of_exactCodes (hxs : ∀ x ∈ xs, fmt.value (bitsOf x) ≠ -1) {i : Nat}
    {p : ℚ × Option Letter} (hp : (exactCodes fmt eb xs)[i]? = some p) (hne : p.2 ≠ none) :
    4 ≤ i := by
  obtain ⟨x, hx, rfl⟩ := exactCodes_getElem? hxs hp
  obtain ⟨hix, _⟩ := List.getElem?_eq_some_iff.mp hx
  obtain ⟨t, ht⟩ := Option.ne_none_iff_exists'.mp hne
  by_contra hlt
  -- before that one of the slots is unset
  have hset := (byteCode_some ht).1
  rw [anyUnset_byteHistoryOf_short (by simp; omega)] at hset
  cases hset

/-- What the decompressor makes of the decisions: verbatim elements come back, letters
    extrapolate the last four values it has produced. -/
structure Replayed (eb : ErrorBound) (xs : List (BitVec fmt.numBits)) (ys : List ℚ) : Prop where
  length : ys.length = xs.length
  values : ∀ (i : Nat) p y, (exactCodes fmt eb xs)[i]? = some p → ys[i]? = some y →
    (p.2 = none → y = p.1) ∧
    (∀ t, p.2 = some t →
      y = (lastFour (ys.take i)).predictValue (FloatArith.exact fmt eb) t)

theorem exists_replayed (eb : ErrorBound) (hxs : ∀ x ∈ xs, fmt.value (bitsOf x) ≠ -1) :
    ∃ ys, (exactCodes fmt eb xs).foldlM (replayStep (FloatArith.exact fmt eb)) [] = .ok ys ∧
      Replayed eb xs ys := by
  obtain ⟨ys, hrun, hlen, hval⟩ := foldlM_replayStep fmt eb (exactCodes fmt eb xs) []
    fun i p hp hne => by simpa using four_le_of_exactCodes hxs hp hne
  rw [exactCodes_length] at hlen
  exact ⟨ys, hrun, hlen, hval⟩

/-- The step of the error law: nothing is lost in a verbatim element, and a prediction adds
    its own error to the amplified ones before it. -/
theorem Replayed.step (hr : Replayed eb xs ys) (hxs : ∀ x ∈ xs, fmt.value (bitsOf x) ≠ -1)
    {i : Nat} {code : Option Letter}
    (hc : ((exactCodes fmt eb xs).map (·.2))[i]? = some code) :
    (code = none → errorAt fmt xs ys i = 0) ∧
    (∀ t, code = some t → 4 ≤ i ∧ errorAt fmt xs ys i ≤ eb.absErrBound +
      t.amplify (errorAt fmt xs ys (i - 1)) (errorAt fmt xs ys (i - 2))
        (errorAt fmt xs ys (i - 3)) (errorAt fmt xs ys (i - 4))) := by
  have hlen := hr.length
  rw [List.getElem?_map, Option.map_eq_some_iff] at hc
  obtain ⟨p, hp, rfl⟩ := hc
  obtain ⟨x, hx, hpx⟩ := exactCodes_getElem? hxs hp
  obtain ⟨hix, _⟩ := List.getElem?_eq_some_iff.mp hx
  have hy : ys[i]? = some ys[i] := List.getElem?_eq_getElem (by omega)
  obtain ⟨hverb, hpred⟩ := hr.values i p ys[i] hp hy
  rw [errorAt_eq hx hy]
  constructor
  · intro hnone
    rw [hverb hnone, hpx, sub_self, abs_zero]
  · intro t ht
    have h4 := four_le_of_exactCodes hxs hp (by rw [ht]; exact Option.some_ne_none t)
    refine ⟨h4, ?_⟩
    -- the compressor's prediction, from the last four original values
    have henc := (byteCode_some (by rw [hpx] at ht; exact ht)).2
    rw [byteHistoryOf_reverse (by simp; omega), List.map_take,
      lastFour_take _ (by rw [List.length_map]; omega) h4] at henc
    -- the decompressor's, from the last four it has produced
    rw [hpred t ht, lastFour_take ys (by omega) h4]
    have hmap : ∀ j < i, (xs.map fun x => fmt.value (bitsOf x)).getD j 0 =
        fmt.value (bitsOf (xs.getD j 0)) := by
      intro j hj
      have hjx : j < xs.length := by omega
      simp [List.getD_eq_getElem?_getD, hjx]
    have hdiff := abs_bytePredict_sub_le fmt eb
      ⟨(xs.map fun x => fmt.value (bitsOf x)).getD (i - 1) 0,
        (xs.map fun x => fmt.value (bitsOf x)).getD (i - 2) 0,
        (xs.map fun x => fmt.value (bitsOf x)).getD (i - 3) 0,
        (xs.map fun x => fmt.value (bitsOf x)).getD (i - 4) 0⟩
      ⟨ys.getD (i - 1) 0, ys.getD (i - 2) 0, ys.getD (i - 3) 0, ys.getD (i - 4) 0⟩ t
    refine ((abs_sub_le _ _ _).trans (add_le_add hdiff henc)).trans ?_
    simp only [hmap (i - 1) (by omega), hmap (i - 2) (by omega), hmap (i - 3) (by omega),
      hmap (i - 4) (by omega)]
    exact le_of_eq (add_comm _ _)

/-- The run: the errors stay below the bound that accumulates along the decisions. -/
theorem Replayed.bounded (hr : Replayed eb xs ys)
    (hxs : ∀ x ∈ xs, fmt.value (bitsOf x) ≠ -1) (i : Nat) :
    ∀ code, ((exactCodes fmt eb xs).map (·.2))[i]? = some code →
      errorAt fmt xs ys i ≤ byteBoundAt eb ((exactCodes fmt eb xs).map (·.2)) i := by
  -- by strong induction: a letter refers to four earlier elements
  induction i using Nat.strong_induction_on with
  | _ i ih =>
      intro code hc
      have hi : i < ((exactCodes fmt eb xs).map (·.2)).length :=
        (List.getElem?_eq_some_iff.mp hc).1
      have hprev : ∀ j < i, errorAt fmt xs ys j ≤
          byteBoundAt eb ((exactCodes fmt eb xs).map (·.2)) j :=
        fun j hj => ih j hj _ (List.getElem?_eq_getElem (by omega))
      rw [byteBoundAt_eq _ hc]
      cases code with
      | none =>
          rw [(hr.step hxs hc).1 rfl]
          exact le_refl _
      | some t =>
          obtain ⟨h4, hbound⟩ := (hr.step hxs hc).2 t rfl
          rw [foldl_byteBoundStep _ h4 (by omega)]
          have hmono := t.amplify_mono (hprev (i - 1) (by omega)) (hprev (i - 2) (by omega))
            (hprev (i - 3) (by omega)) (hprev (i - 4) (by omega))
          simp only [byteBoundStep]
          linarith

end Replayed

/-- The error law of the bytewise codec.  The run returns unless the integer behind the
    displacements is the position of an element. -/
theorem byteErrorLaw (eb : ErrorBound) {xs : List (BitVec fmt.numBits)} (past : Int)
    (hxs : ∀ x ∈ xs, fmt.value (bitsOf x) ≠ -1) :
    ByteErrorLaw fmt eb xs
      ((byteCodes (FloatArith.exact fmt eb) (ByteHistory.init (FloatArith.exact fmt eb)) xs).map
        (·.2))
      (decompressBytes (FloatArith.exact fmt eb) (compressBytes (FloatArith.exact fmt eb) xs) past
        xs.length) ∧
    (past < 1 ∨ (xs.length : Int) < past →
      ∃ ys, decompressBytes (FloatArith.exact fmt eb)
        (compressBytes (FloatArith.exact fmt eb) xs) past xs.length = .ok ys) := by
  rcases decompressBytes_compressBytes (FloatArith.exact fmt eb) past xs with
    hreplay | ⟨hlow, hhigh, hfault⟩
  · -- the literals and letters are replayed in order
    obtain ⟨ys, hrun, hr⟩ := exists_replayed eb hxs
    rw [hreplay, ← exactCodes, hrun]
    refine ⟨?_, fun _ => ⟨ys, rfl⟩⟩
    rintro _ ⟨⟩
    exact ⟨hr.length, fun i code hc =>
      ⟨(hr.step hxs hc).1, (hr.step hxs hc).2, hr.bounded hxs i code hc⟩⟩
  · -- `past` points at an element, so the run faults and promises nothing
    rw [hfault]
    refine ⟨?_, fun h => by omega⟩
    intro ys h
    cases h

end Law

/-- The error laws of the two codecs whose literals are verbatim, for `double` and `float`. -/
theorem verbatim_codecs_errorLaw (eb : ErrorBound) (past : Int) :
    ((∀ xs : List (BitVec 64), (∀ x ∈ xs, NonNeg double x) →
      ErrorLaw double eb 0 xs
        (codeWords (FloatArith.exact double eb) tostr
          (History.init (FloatArith.exact double eb)) xs)
        (myDecompressBitwiseDoubleOp (FloatArith.exact double eb)
          (myCompressBitwiseDoubleOp (FloatArith.exact double eb) xs).dataBits xs.length)) ∧
      ∀ xs : List (BitVec 32), (∀ x ∈ xs, NonNeg float x) →
        ErrorLaw float eb 0 xs
          (codeWords (FloatArith.exact float eb) tostr
            (History.init (FloatArith.exact float eb)) xs)
          (myDecompressBitwiseOp (FloatArith.exact float eb)
            (myCompressBitwiseOp (FloatArith.exact float eb) xs).dataBits xs.length)) ∧
    (∀ xs : List (BitVec 64),
      (∀ x ∈ xs, double.Finite (bitsOf x) ∧ double.value (bitsOf x) ≠ -1) →
      ByteErrorLaw double eb xs
        ((byteCodes (FloatArith.exact double eb) (ByteHistory.init (FloatArith.exact double eb))
          xs).map (·.2))
        (myDecompressDouble (FloatArith.exact double eb)
          (myCompressDouble (FloatArith.exact double eb) xs) past xs.length) ∧
      (past < 1 ∨ (xs.length : Int) < past →
        ∃ ys, myDecompressDouble (FloatArith.exact double eb)
          (myCompressDouble (FloatArith.exact double eb) xs) past xs.length = .ok ys)) ∧
    (∀ xs : List (BitVec 32),
      (∀ x ∈ xs, float.Finite (bitsOf x) ∧ float.value (bitsOf x) ≠ -1) →
      ByteErrorLaw float eb xs
        ((byteCodes (FloatArith.exact float eb) (ByteHistory.init (FloatArith.exact float eb))
          xs).map (·.2))
        (myDecompress (FloatArith.exact float eb)
          (myCompress (FloatArith.exact float eb) xs) past xs.length) ∧
      (past < 1 ∨ (xs.length : Int) < past →
        ∃ ys, myDecompress (FloatArith.exact float eb)
          (myCompress (FloatArith.exact float eb) xs) past xs.length = .ok ys)) := by
  refine ⟨⟨fun xs hxs => opErrorLaw eb hxs, fun xs hxs => opErrorLaw eb hxs⟩, ?_, ?_⟩
  · intro xs hxs
    exact byteErrorLaw eb past fun x hx => (hxs x hx).2
  · intro xs hxs
    exact byteErrorLaw eb past fun x hx => (hxs x hx).2

/-- Four zeros, `2 ^ -20` and `2 ^ -19`. -/
def doublings : List (BitVec 64) :=
  [0, 0, 0, 0, 0x3EB0000000000000, 0x3EC0000000000000]

theorem doublings_nonNeg : ∀ x ∈ doublings, NonNeg double x := by
  intro x hx
  simp only [doublings, List.mem_cons, List.not_mem_nil, or_false] at hx
  rcases hx with rfl | rfl | rfl | rfl | rfl | rfl
  all_goals exact ⟨by decide +kernel, by decide +kernel⟩

theorem verbatim_codecs_errorLaw_doublings :
    ErrorLaw double absErrorBound 0 doublings
      (codeWords (FloatArith.exact double absErrorBound) tostr
        (History.init (FloatArith.exact double absErrorBound)) doublings)
      (myDecompressBitwiseDoubleOp (FloatArith.exact double absErrorBound)
        (myCompressBitwiseDoubleOp (FloatArith.exact double absErrorBound) doublings).dataBits
        6) ∧
    ∃ ys, myDecompressDouble (FloatArith.exact double absErrorBound)
      (myCompressDouble (FloatArith.exact double absErrorBound) doublings) 0 6 = .ok ys := by
  refine ⟨(verbatim_codecs_errorLaw absErrorBound 0).1.1 doublings doublings_nonNeg, ?_⟩
  refine ((verbatim_codecs_errorLaw absErrorBound 0).2.1 doublings ?_).2 (.inl (by decide))
  intro x hx
  have h := doublings_nonNeg x hx
  refine ⟨h.1, fun h1 => ?_⟩
  have hneg : (0 : ℚ) ≤ -1 := h1 ▸ h.2
  exact absurd hneg (by decide)

/-- Each of the last two elements is within the bound of the element before it, and both
    come back as zero: in both codecs the last value is off by `2 ^ -19`. -/
theorem verbatim_codecs_exceed_bound :
    (∀ x ∈ doublings, NonNeg double x) ∧
    ¬ WithinBound double absErrorBound doublings
      (myDecompressBitwiseDoubleOp (FloatArith.exact double absErrorBound)
        (myCompressBitwiseDoubleOp (FloatArith.exact double absErrorBound) doublings).dataBits
        6) ∧
    myDecompressDouble (FloatArith.exact double absErrorBound)
      (myCompressDouble (FloatArith.exact double absErrorBound) doublings) 0 6 =
      .ok [0, 0, 0, 0, 0, 0] ∧
    absErrorBound.absErrBound < errorAt double doublings [0, 0, 0, 0, 0, 0] 5 :=
  ⟨doublings_nonNeg, not_withinBound 5 (by decide +kernel), by decide +kernel, by decide +kernel⟩

end MpiApps.Codec
