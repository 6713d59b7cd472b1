/-
  MpiApps.Codec.ErrorBound

  The error of the predictive codecs, with prediction sums in exact arithmetic.

  The compressor predicts from the original values, the decompressor from its own
  output.  A prediction that was within the bound for the compressor is therefore
  off by the errors of the elements it is built from, with the weights of the
  extrapolation: an element sent as a literal or as a small value keeps the bound,
  a predicted one can exceed it.

  `predictive_errorLaw` states this for every compressor of the family, whatever
  its literals are; the bitwise codecs are instances.
-/

import MpiApps.Codec.Accuracy

namespace MpiApps.Codec

open MpiApps.BinaryFormat
open MpiApps.Framing

variable {fmt : Format} {eb : ErrorBound} {δ : ℚ}

/-! ## The error law -/

/-- A finite number that is not negative; `-0` is one. -/
def NonNeg (fmt : Format) (x : BitVec fmt.numBits) : Prop :=
  fmt.Finite (bitsOf x) ∧ 0 ≤ fmt.value (bitsOf x)

instance (x : BitVec fmt.numBits) : Decidable (NonNeg fmt x) := inferInstanceAs (Decidable (_ ∧ _))

/-- How far the value in slot `i` is from element `i`. -/
def errorAt (fmt : Format) (xs : List (BitVec fmt.numBits)) (ys : List ℚ) (i : Nat) : ℚ :=
  |ys.getD i 0 - fmt.value (bitsOf (xs.getD i 0))|

/-- The weights with which the errors of the last three elements enter a prediction. -/
def CompressType.amplify (e₁ e₂ e₃ : ℚ) : CompressType → ℚ
  | .a => e₁
  | .b => 2 * e₁ + e₂
  | .c => 3 * e₁ + 3 * e₂ + e₃

/-- The prediction that a code word stands for. -/
def codeType : List Bool → Option CompressType
  | [true, false, true] => some .a
  | [true, true, false] => some .b
  | [true, true, true] => some .c
  | _ => none

/-- The bound of an element that is not predicted: `absErrBound` for a small value and
    `δ` for a literal. -/
def unpredictedBound (eb : ErrorBound) (δ : ℚ) (w : List Bool) : ℚ :=
  if w = smallCode then eb.absErrBound else δ

/-- The bound after one more word, from the bounds of the last three elements. -/
def boundStep (eb : ErrorBound) (δ : ℚ) (e : ℚ × ℚ × ℚ) (w : List Bool) : ℚ × ℚ × ℚ :=
  (match codeType w with
    | some t => eb.absErrBound + t.amplify e.1 e.2.1 e.2.2
    | none => unpredictedBound eb δ w, e.1, e.2.1)

/-- The bound of element `i`: `absErrBound` plus the weighted bounds of the last three
    elements if it is predicted. -/
def boundAt (eb : ErrorBound) (δ : ℚ) (ws : List (List Bool)) (i : Nat) : ℚ :=
  ((ws.take (i + 1)).foldl (boundStep eb δ) (0, 0, 0)).1

/-- The error law of an open-loop predictor whose literals are within `δ`: the run
    returns, and each value that it emits satisfies the bounds. -/
def ErrorLaw (fmt : Format) (eb : ErrorBound) (δ : ℚ) (xs : List (BitVec fmt.numBits))
    (ws : List (List Bool)) (run : Except Fault (Output (History ℚ) ℚ)) : Prop :=
  ∃ o, run = .ok o ∧ o.decompressed.length ≤ xs.length ∧
    ∀ i w, i < o.decompressed.length → ws[i]? = some w →
      -- literals and small values
      (codeType w = none → errorAt fmt xs o.decompressed i ≤ unpredictedBound eb δ w) ∧
      -- predicted values, one step
      (∀ t, codeType w = some t → (∀ j < i, o.decompressed[j]? ≠ some (-1)) →
        3 ≤ i ∧ errorAt fmt xs o.decompressed i ≤ eb.absErrBound + t.amplify
          (errorAt fmt xs o.decompressed (i - 1)) (errorAt fmt xs o.decompressed (i - 2))
          (errorAt fmt xs o.decompressed (i - 3))) ∧
      -- and accumulated from the first element on
      ((∀ j < i, boundAt eb δ ws j < 1) → errorAt fmt xs o.decompressed i ≤ boundAt eb δ ws i)

/-! ## The history of a list of values -/

/-- The history after a list of values, the latest first, none of which is `-1`. -/
def historyOf : List ℚ → History ℚ
  | [] => ⟨-1, -1, -1⟩
  | [v₁] => ⟨-1, -1, v₁⟩
  | [v₁, v₂] => ⟨-1, v₁, v₂⟩
  | v₁ :: v₂ :: v₃ :: _ => ⟨v₁, v₂, v₃⟩

theorem push_historyOf {vs : List ℚ} (hvs : ∀ v ∈ vs, v ≠ -1) (v : ℚ) :
    (historyOf vs).push (FloatArith.exact fmt eb) v = historyOf (v :: vs) := by
  match vs with
  | [] => simp [historyOf, History.push, History.unset, FloatArith.exact]
  | [v₁] =>
      have h₁ := hvs v₁ (by simp)
      simp [historyOf, History.push, History.unset, FloatArith.exact, h₁]
  | [v₁, v₂] =>
      have h₂ := hvs v₂ (by simp)
      have h₁ := hvs v₁ (by simp)
      simp [historyOf, History.push, History.unset, FloatArith.exact, h₁, h₂]
  | v₁ :: v₂ :: v₃ :: vs =>
      have h₁ := hvs v₁ (by simp)
      have h₂ := hvs v₂ (by simp)
      have h₃ := hvs v₃ (by simp)
      simp [historyOf, History.push, History.shift, History.unset, FloatArith.exact, h₁, h₂, h₃]

/-- Run lemma: pushing values that are not `-1` from the start. -/
theorem foldl_push_eq (fmt : Format) (eb : ErrorBound) {vs : List ℚ} (hvs : ∀ v ∈ vs, v ≠ -1) :
    vs.foldl (fun h v => h.push (FloatArith.exact fmt eb) v)
      (History.init (FloatArith.exact fmt eb)) = historyOf vs.reverse := by
  induction vs using List.reverseRecOn with
  | nil => simp [History.init, historyOf, FloatArith.exact]
  | append_singleton vs v ih =>
      have hvs' : ∀ u ∈ vs, u ≠ -1 := fun u hu => hvs u (by simp [hu])
      rw [List.foldl_append, ih hvs', List.foldl_cons, List.foldl_nil,
        push_historyOf (by simpa using hvs'), List.reverse_append, List.reverse_singleton,
        List.singleton_append]

theorem anyUnset_historyOf_short {vs : List ℚ} (h : vs.length < 3) :
    (historyOf vs).anyUnset (FloatArith.exact fmt eb) = true := by
  match vs with
  | [] => simp [historyOf, History.anyUnset, History.unset, FloatArith.exact]
  | [v₁] => simp [historyOf, History.anyUnset, History.unset, FloatArith.exact]
  | [v₁, v₂] => simp [historyOf, History.anyUnset, History.unset, FloatArith.exact]
  | v₁ :: v₂ :: v₃ :: vs => exact absurd h (by simp)

/-- With three values the history holds the last three. -/
theorem historyOf_take_reverse (vs : List ℚ) {i : Nat} (h3 : 3 ≤ i) (hi : i ≤ vs.length) :
    historyOf (vs.take i).reverse =
      ⟨vs.getD (i - 1) 0, vs.getD (i - 2) 0, vs.getD (i - 3) 0⟩ := by
  obtain ⟨k, rfl⟩ : ∃ k, i = k + 3 := ⟨i - 3, by omega⟩
  have h0 : k < vs.length := by omega
  have h1 : k + 1 < vs.length := by omega
  have h2 : k + 2 < vs.length := by omega
  have htake : vs.take (k + 3) = vs.take k ++ [vs[k], vs[k + 1], vs[k + 2]] := by
    rw [List.take_succ_eq_append_getElem h2, List.take_succ_eq_append_getElem h1,
      List.take_succ_eq_append_getElem h0, List.append_assoc, List.append_assoc]
    rfl
  rw [htake, List.reverse_append]
  simp [historyOf, h0, h1, h2]

/-! ## One prediction -/

theorem abs_predict_sub_le (h h' : History ℚ) (t : CompressType) :
    |h'.predictValue (FloatArith.exact fmt eb) t - h.predictValue (FloatArith.exact fmt eb) t| ≤
      t.amplify |h'.beforeValue1 - h.beforeValue1| |h'.beforeValue2 - h.beforeValue2|
        |h'.beforeValue3 - h.beforeValue3| := by
  have e1 := abs_le.mp (le_refl |h'.beforeValue1 - h.beforeValue1|)
  have e2 := abs_le.mp (le_refl |h'.beforeValue2 - h.beforeValue2|)
  have e3 := abs_le.mp (le_refl |h'.beforeValue3 - h.beforeValue3|)
  cases t with
  | a => exact le_refl _
  | b =>
      simp only [History.predictValue, History.predict2, FloatArith.exact, CompressType.amplify,
        Int.cast_ofNat]
      rw [abs_le]
      constructor <;> linarith [e1.1, e1.2, e2.1, e2.2]
  | c =>
      simp only [History.predictValue, History.predict3, FloatArith.exact, CompressType.amplify,
        Int.cast_ofNat]
      rw [abs_le]
      constructor <;> linarith [e1.1, e1.2, e2.1, e2.2, e3.1, e3.2]

theorem codeType_code (t : CompressType) : codeType t.code = some t := by cases t <;> rfl

theorem eq_code_of_codeType {w : List Bool} {t : CompressType} (h : codeType w = some t) :
    w = t.code := by
  unfold codeType at h
  split at h
  all_goals
    cases h
  all_goals rfl

theorem decompress_code {V : Type} (A : FloatArith fmt V) (h : History V) (t : CompressType) :
    decompressBitwise A t.code h = .ok (h.predictValue A t) := by
  cases t <;> rfl

theorem decompress_small {V : Type} (A : FloatArith fmt V) (h : History V) :
    decompressBitwise A smallCode h = .ok (A.ofInt 0) := rfl

/-- A word of more than three bits is a literal. -/
theorem decompressBitwise_of_length {V : Type} (A : FloatArith fmt V) {w : List Bool}
    (hw : 3 < w.length) (h : History V) : decompressBitwise A w h = decompressLiteral A w := by
  unfold decompressBitwise
  split
  all_goals first | rfl | (simp at hw)

theorem codeType_of_length {w : List Bool} (hw : 3 < w.length) : codeType w = none := by
  unfold codeType
  split
  all_goals first | rfl | (simp at hw)

/-! ## A whole stream -/

section Stream

variable {lit : BitVec fmt.numBits → List Bool} {xs : List (BitVec fmt.numBits)}

/-- The code word of element `i`, with the history that the compressor has there. -/
theorem codeWords_getElem? {V : Type} (A : FloatArith fmt V) (h : History V) (i : Nat) :
    (codeWords A lit h xs)[i]? = xs[i]?.map fun x =>
      codeWord A lit (((xs.take i).map A.ofBits).foldl (fun h v => h.push A v) h) x := by
  induction xs generalizing h i with
  | nil => simp [codeWords]
  | cons x xs ih =>
      cases i with
      | zero => simp [codeWords]
      | succ i => simp [codeWords, ih]

/-- What the error law needs to know about the way literals are written. -/
structure LiteralBounded (fmt : Format) (eb : ErrorBound) (δ : ℚ)
    (lit : BitVec fmt.numBits → List Bool) : Prop where
  length_gt : ∀ x, 3 < (lit x).length
  bounded : ∀ x, ∃ v, decompressLiteral (FloatArith.exact fmt eb) (lit x) = .ok v ∧
    |v - fmt.value (bitsOf x)| ≤ δ

theorem codeWord_decompress (hlit : LiteralBounded fmt eb δ lit) (h h' : History ℚ)
    (x : BitVec fmt.numBits) :
    ∃ v, decompressBitwise (FloatArith.exact fmt eb)
      (codeWord (FloatArith.exact fmt eb) lit h x) h' = .ok v := by
  rcases codeWord_cases (FloatArith.exact fmt eb) lit h x with ⟨hw, _⟩ | ⟨_, hw, _⟩ | ⟨hw, _⟩
  · exact ⟨_, by rw [hw, decompress_small]⟩
  · exact ⟨_, by rw [hw, decompress_code]⟩
  · obtain ⟨v, hv, _⟩ := hlit.bounded x
    exact ⟨v, by rw [hw, decompressBitwise_of_length _ (hlit.length_gt x), hv]⟩

/-- What is not predicted is within its bound. -/
theorem error_of_not_predicted (hlit : LiteralBounded fmt eb δ lit) {h h' : History ℚ}
    {x : BitVec fmt.numBits} {v : ℚ}
    (hv : decompressBitwise (FloatArith.exact fmt eb)
      (codeWord (FloatArith.exact fmt eb) lit h x) h' = .ok v)
    (hw : codeType (codeWord (FloatArith.exact fmt eb) lit h x) = none) :
    |v - fmt.value (bitsOf x)| ≤
      unpredictedBound eb δ (codeWord (FloatArith.exact fmt eb) lit h x) := by
  rcases codeWord_cases (FloatArith.exact fmt eb) lit h x with ⟨hc, hs⟩ | ⟨_, hc, _⟩ | ⟨hc, _⟩
  · rw [hc, decompress_small] at hv
    obtain rfl := Except.ok.inj hv
    have hlt : |fmt.value (bitsOf x)| < eb.absErrBound := of_decide_eq_true hs
    rw [hc, unpredictedBound, if_pos rfl]
    simpa [FloatArith.exact] using hlt.le
  · rw [hc, codeType_code] at hw
    cases hw
  · obtain ⟨u, hu, hbound⟩ := hlit.bounded x
    -- a literal is longer than the code of a small number
    have hne : lit x ≠ smallCode := by
      intro he
      have hgt := hlit.length_gt x
      rw [he] at hgt
      exact absurd hgt (by decide)
    rw [hc, decompressBitwise_of_length _ (hlit.length_gt x), hu] at hv
    rw [hc, unpredictedBound, if_neg hne]
    exact Except.ok.inj hv ▸ hbound

/-- A predicted value is off by at most the bound and the weighted errors of the history. -/
theorem error_of_predicted (hlit : LiteralBounded fmt eb δ lit) {h h' : History ℚ}
    {x : BitVec fmt.numBits} {v : ℚ} {t : CompressType}
    (hv : decompressBitwise (FloatArith.exact fmt eb)
      (codeWord (FloatArith.exact fmt eb) lit h x) h' = .ok v)
    (hw : codeType (codeWord (FloatArith.exact fmt eb) lit h x) = some t) :
    h.anyUnset (FloatArith.exact fmt eb) = false ∧
    |v - fmt.value (bitsOf x)| ≤ eb.absErrBound +
      t.amplify |h'.beforeValue1 - h.beforeValue1| |h'.beforeValue2 - h.beforeValue2|
        |h'.beforeValue3 - h.beforeValue3| := by
  rcases codeWord_cases (FloatArith.exact fmt eb) lit h x with ⟨hc, _⟩ | ⟨hu, hc, hb⟩ | ⟨hc, _⟩
  · rw [hc] at hw
    cases hw
  · refine ⟨hu, ?_⟩
    have ht : (h.select (FloatArith.exact fmt eb) (fmt.value (bitsOf x))).1 = t := by
      rw [hc, codeType_code] at hw
      exact Option.some.inj hw
    rw [eq_code_of_codeType hw, decompress_code] at hv
    have hle : |h.predictValue (FloatArith.exact fmt eb) t - fmt.value (bitsOf x)| ≤
        eb.absErrBound := by
      have h1 : (h.select (FloatArith.exact fmt eb) (fmt.value (bitsOf x))).2 ≤
          eb.absErrBound := of_decide_eq_true hb
      rw [History.select_diff, ht] at h1
      exact h1
    rw [← Except.ok.inj hv]
    -- the error of the prediction and the drift between the two histories
    calc |h'.predictValue (FloatArith.exact fmt eb) t - fmt.value (bitsOf x)|
        ≤ |h'.predictValue (FloatArith.exact fmt eb) t -
            h.predictValue (FloatArith.exact fmt eb) t| +
          |h.predictValue (FloatArith.exact fmt eb) t - fmt.value (bitsOf x)| :=
          abs_sub_le _ _ _
      _ ≤ t.amplify |h'.beforeValue1 - h.beforeValue1| |h'.beforeValue2 - h.beforeValue2|
            |h'.beforeValue3 - h.beforeValue3| + eb.absErrBound :=
          add_le_add (abs_predict_sub_le h h' t) hle
      _ = _ := add_comm _ _
  · rw [hc, codeType_of_length (hlit.length_gt x)] at hw
    cases hw

/-- The bounds of the last three elements are what the accumulation carries along. -/
theorem foldl_boundStep (ws : List (List Bool)) {i : Nat} (h3 : 3 ≤ i) (hi : i ≤ ws.length) :
    (ws.take i).foldl (boundStep eb δ) (0, 0, 0) =
      (boundAt eb δ ws (i - 1), boundAt eb δ ws (i - 2), boundAt eb δ ws (i - 3)) := by
  obtain ⟨k, rfl⟩ : ∃ k, i = k + 3 := ⟨i - 3, by omega⟩
  have h1 : k + 1 < ws.length := by omega
  have h2 : k + 2 < ws.length := by omega
  simp only [boundAt, Nat.add_sub_cancel, show k + 3 - 1 = k + 2 by omega,
    show k + 3 - 2 = k + 1 by omega]
  rw [List.take_succ_eq_append_getElem h2, List.foldl_append,
    List.take_succ_eq_append_getElem h1, List.foldl_append]
  simp [boundStep]

theorem boundAt_eq (ws : List (List Bool)) {i : Nat} {w : List Bool} (hw : ws[i]? = some w) :
    boundAt eb δ ws i = (boundStep eb δ ((ws.take i).foldl (boundStep eb δ) (0, 0, 0)) w).1 := by
  obtain ⟨hi, rfl⟩ := List.getElem?_eq_some_iff.mp hw
  rw [boundAt, List.take_succ_eq_append_getElem hi, List.foldl_append]
  rfl

theorem CompressType.amplify_mono (t : CompressType) {e₁ e₂ e₃ f₁ f₂ f₃ : ℚ} (h₁ : e₁ ≤ f₁)
    (h₂ : e₂ ≤ f₂) (h₃ : e₃ ≤ f₃) : t.amplify e₁ e₂ e₃ ≤ t.amplify f₁ f₂ f₃ := by
  cases t <;> simp only [CompressType.amplify] <;> linarith

/-- A decompressor that replays a first part of the code words, in exact arithmetic. -/
structure Replay (fmt : Format) (eb : ErrorBound) (lit : BitVec fmt.numBits → List Bool)
    (xs : List (BitVec fmt.numBits)) (ys : List ℚ) : Prop where
  length_le : ys.length ≤ xs.length
  value : ∀ (i : Nat) x y, xs[i]? = some x → ys[i]? = some y →
    decompressBitwise (FloatArith.exact fmt eb)
      (codeWord (FloatArith.exact fmt eb) lit
        (((xs.take i).map fun x => fmt.value (bitsOf x)).foldl
          (fun h v => h.push (FloatArith.exact fmt eb) v)
          (History.init (FloatArith.exact fmt eb))) x)
      ((ys.take i).foldl (fun h v => h.push (FloatArith.exact fmt eb) v)
        (History.init (FloatArith.exact fmt eb))) = .ok y

theorem Replay.of_frames (hlit : LiteralBounded fmt eb δ lit) {frames : List (List Bool)}
    (hpre : frames <+: codeWords (FloatArith.exact fmt eb) lit
      (History.init (FloatArith.exact fmt eb)) xs) :
    ∃ o, frames.foldlM ((unpacker (FloatArith.exact fmt eb)).emit xs.length)
        ⟨History.init (FloatArith.exact fmt eb), [], []⟩ = .ok o ∧
      Replay fmt eb lit xs o.decompressed := by
  have hlen := hpre.length_le
  rw [codeWords_length] at hlen
  -- the writer's history before word i is made of the first i inputs
  have hget : ∀ i w, frames[i]? = some w → ∃ x, xs[i]? = some x ∧
      w = codeWord (FloatArith.exact fmt eb) lit
        (((xs.take i).map fun x => fmt.value (bitsOf x)).foldl
          (fun h v => h.push (FloatArith.exact fmt eb) v)
          (History.init (FloatArith.exact fmt eb))) x := by
    intro i w hw
    obtain ⟨hi, _⟩ := List.getElem?_eq_some_iff.mp hw
    rw [List.prefix_iff_eq_take.mp hpre, List.getElem?_take_of_lt hi, codeWords_getElem?,
      Option.map_eq_some_iff] at hw
    obtain ⟨x, hx, rfl⟩ := hw
    exact ⟨x, hx, rfl⟩
  have hok : ∀ w ∈ frames, ∀ h, ∃ v,
      (unpacker (FloatArith.exact fmt eb)).decompress w h = .ok v := by
    intro w hw h
    obtain ⟨i, hi⟩ := List.getElem?_of_mem hw
    obtain ⟨x, _, rfl⟩ := hget i w hi
    exact codeWord_decompress hlit _ h x
  have hslots : (⟨History.init (FloatArith.exact fmt eb), [], []⟩ :
      Output (History ℚ) ℚ).decompressed.length + frames.length ≤ xs.length := by
    simpa using hlen
  obtain ⟨o, ho⟩ := Unpacker.foldlM_ok hok hslots
  obtain ⟨vs, hdec, hvs, hval⟩ := Unpacker.decompress_of_foldlM ho
  rw [List.nil_append] at hdec
  refine ⟨o, ho, ?_⟩
  rw [hdec]
  refine ⟨by omega, fun i x y hx hy => ?_⟩
  obtain ⟨hi, _⟩ := List.getElem?_eq_some_iff.mp hy
  have hw : frames[i]? = some frames[i] := List.getElem?_eq_getElem (by omega)
  obtain ⟨x', hx', hcode⟩ := hget i _ hw
  obtain rfl : x' = x := by
    rw [hx] at hx'
    exact (Option.some.inj hx').symm
  rw [← hcode]
  exact hval i _ y hw hy

section Law

variable {ys : List ℚ} (hlit : LiteralBounded fmt eb δ lit) (hr : Replay fmt eb lit xs ys)
  (hxs : ∀ x ∈ xs, NonNeg fmt x)

theorem errorAt_eq {i : Nat} {x : BitVec fmt.numBits} {y : ℚ} (hx : xs[i]? = some x)
    (hy : ys[i]? = some y) : errorAt fmt xs ys i = |y - fmt.value (bitsOf x)| := by
  simp [errorAt, List.getD_eq_getElem?_getD, hx, hy]

include hlit hr hxs

omit hxs in
theorem Replay.literal_step {i : Nat} {x : BitVec fmt.numBits} {y : ℚ} {w : List Bool}
    (hx : xs[i]? = some x) (hy : ys[i]? = some y)
    (hw : (codeWords (FloatArith.exact fmt eb) lit
      (History.init (FloatArith.exact fmt eb)) xs)[i]? = some w) (hnone : codeType w = none) :
    errorAt fmt xs ys i ≤ unpredictedBound eb δ w := by
  rw [codeWords_getElem?, hx] at hw
  obtain rfl := Option.some.inj hw
  rw [errorAt_eq hx hy]
  exact error_of_not_predicted hlit (hr.value i x y hx hy) hnone

/-- Step lemma: a predicted value. -/
theorem Replay.predicted_step {i : Nat} {x : BitVec fmt.numBits} {y : ℚ} {w : List Bool}
    {t : CompressType} (hx : xs[i]? = some x) (hy : ys[i]? = some y)
    (hw : (codeWords (FloatArith.exact fmt eb) lit
      (History.init (FloatArith.exact fmt eb)) xs)[i]? = some w) (ht : codeType w = some t)
    (hno : ∀ j < i, ys[j]? ≠ some (-1)) :
    3 ≤ i ∧ errorAt fmt xs ys i ≤ eb.absErrBound + t.amplify (errorAt fmt xs ys (i - 1))
      (errorAt fmt xs ys (i - 2)) (errorAt fmt xs ys (i - 3)) := by
  obtain ⟨hix, _⟩ := List.getElem?_eq_some_iff.mp hx
  obtain ⟨hiy, _⟩ := List.getElem?_eq_some_iff.mp hy
  rw [codeWords_getElem?, hx] at hw
  have hval := hr.value i x y hx hy
  -- both histories hold the last three values, the compressor's the original ones
  have henc : ∀ v ∈ (xs.take i).map fun x => fmt.value (bitsOf x), v ≠ -1 := by
    intro v hv
    obtain ⟨u, hu, rfl⟩ := List.mem_map.mp hv
    have := (hxs u (List.mem_of_mem_take hu)).2
    linarith
  have hdec : ∀ v ∈ ys.take i, v ≠ -1 := by
    rintro v hv rfl
    obtain ⟨j, hj⟩ := List.getElem?_of_mem hv
    obtain ⟨hji, _⟩ := List.getElem?_eq_some_iff.mp hj
    rw [List.length_take] at hji
    rw [List.getElem?_take_of_lt (by omega)] at hj
    exact hno j (by omega) hj
  rw [foldl_push_eq fmt eb henc, foldl_push_eq fmt eb hdec] at hval
  have hcode : codeType (codeWord (FloatArith.exact fmt eb) lit
      (historyOf ((xs.take i).map fun x => fmt.value (bitsOf x)).reverse) x) = some t := by
    rw [← ht, ← Option.some.inj hw, ← foldl_push_eq fmt eb henc]
    rfl
  obtain ⟨hset, hbound⟩ := error_of_predicted hlit hval hcode
  have h3 : 3 ≤ i := by
    by_contra hlt
    rw [anyUnset_historyOf_short (by simp; omega)] at hset
    cases hset
  refine ⟨h3, ?_⟩
  rw [errorAt_eq hx hy]
  rw [List.map_take, historyOf_take_reverse ys h3 (by omega),
    historyOf_take_reverse (xs.map _) h3 (by rw [List.length_map]; omega)] at hbound
  have hmap : ∀ j < i, (xs.map fun x => fmt.value (bitsOf x)).getD j 0 =
      fmt.value (bitsOf (xs.getD j 0)) := by
    intro j hj
    have hjx : j < xs.length := by omega
    simp [List.getD_eq_getElem?_getD, hjx]
  rw [hmap _ (by omega), hmap _ (by omega), hmap _ (by omega)] at hbound
  exact hbound

/-- Run lemma: the accumulated bounds hold as long as they stay below one. -/
theorem Replay.accumulated (i : Nat) (hi : i < ys.length)
    (hsmall : ∀ j < i, boundAt eb δ (codeWords (FloatArith.exact fmt eb) lit
      (History.init (FloatArith.exact fmt eb)) xs) j < 1) :
    errorAt fmt xs ys i ≤ boundAt eb δ (codeWords (FloatArith.exact fmt eb) lit
      (History.init (FloatArith.exact fmt eb)) xs) i := by
  induction i using Nat.strong_induction_on with
  | _ i ih =>
      have hlen := hr.length_le
      have hprev : ∀ j < i, errorAt fmt xs ys j ≤ boundAt eb δ
          (codeWords (FloatArith.exact fmt eb) lit
            (History.init (FloatArith.exact fmt eb)) xs) j :=
        fun j hj => ih j hj (by omega) fun k hk => hsmall k (by omega)
      -- an error below one keeps a decoded value of a non-negative element off `-1`
      have hno : ∀ j < i, ys[j]? ≠ some (-1) := by
        intro j hj hy
        have hjx : j < xs.length := by omega
        have hxj : xs[j]? = some xs[j] := List.getElem?_eq_getElem hjx
        have herr := (hprev j hj).trans_lt (hsmall j hj)
        rw [errorAt_eq hxj hy, abs_lt] at herr
        have := (hxs xs[j] (List.getElem_mem hjx)).2
        linarith [herr.1]
      have hx : xs[i]? = some xs[i] := List.getElem?_eq_getElem (by omega)
      have hy : ys[i]? = some ys[i] := List.getElem?_eq_getElem hi
      obtain ⟨w, hw⟩ : ∃ w, (codeWords (FloatArith.exact fmt eb) lit
          (History.init (FloatArith.exact fmt eb)) xs)[i]? = some w :=
        ⟨_, List.getElem?_eq_getElem (by rw [codeWords_length]; omega)⟩
      rw [boundAt_eq _ hw]
      cases ht : codeType w with
      | none =>
          rw [boundStep, ht]
          exact hr.literal_step hlit hx hy hw ht
      | some t =>
          obtain ⟨h3, hbound⟩ := hr.predicted_step hlit hxs hx hy hw ht hno
          rw [foldl_boundStep _ h3 (by rw [codeWords_length]; omega)]
          simp only [boundStep, ht]
          have hmono := t.amplify_mono (hprev (i - 1) (by omega)) (hprev (i - 2) (by omega))
            (hprev (i - 3) (by omega))
          linarith

end Law

/-- Every predictive codec obeys the error law, whatever its literals are. -/
theorem predictive_errorLaw (hlit : LiteralBounded fmt eb δ lit) (hxs : ∀ x ∈ xs, NonNeg fmt x)
    {frames : List (List Bool)}
    (hpre : frames <+: codeWords (FloatArith.exact fmt eb) lit
      (History.init (FloatArith.exact fmt eb)) xs) :
    ErrorLaw fmt eb δ xs (codeWords (FloatArith.exact fmt eb) lit
        (History.init (FloatArith.exact fmt eb)) xs)
      (frames.foldlM ((unpacker (FloatArith.exact fmt eb)).emit xs.length)
        ⟨History.init (FloatArith.exact fmt eb), [], []⟩) := by
  obtain ⟨o, ho, hr⟩ := Replay.of_frames hlit hpre
  refine ⟨o, ho, hr.length_le, fun i w hi hw => ?_⟩
  have hlen := hr.length_le
  have hx : xs[i]? = some xs[i] := List.getElem?_eq_getElem (by omega)
  have hy : o.decompressed[i]? = some o.decompressed[i] := List.getElem?_eq_getElem hi
  exact ⟨fun hnone => hr.literal_step hlit hx hy hw hnone,
    fun t ht hno => hr.predicted_step hlit hxs hx hy hw ht hno,
    fun hsmall => hr.accumulated hlit hxs i hi hsmall⟩

end Stream

/-! ## The default codec -/

/-- A positive number has sign bit 0. -/
theorem msb_of_value_pos {x : BitVec fmt.numBits} (h : 0 < fmt.value (bitsOf x)) :
    x.msb = false := by
  obtain ⟨l, hl⟩ := tostr_eq_cons (by have := fmt.numBits_eq; omega) x
  rw [tostr_eq] at hl
  cases hm : x.msb with
  | false => rfl
  | true =>
      exfalso
      rw [Format.value, hl, hm, List.headD_cons, if_pos rfl] at h
      have hpos : (0 : ℚ) ≤ (fmt.signif (true :: l) : ℚ) * 2 ^ fmt.scale (true :: l) := by
        positivity
      linarith

/-- A non-negative number that is too large for the small code has sign bit 0. -/
theorem NonNeg.msb_of_not_small {x : BitVec fmt.numBits} (hx : NonNeg fmt x)
    (hbig : (FloatArith.exact fmt eb).ltBound
      ((FloatArith.exact fmt eb).fabs ((FloatArith.exact fmt eb).ofBits x)) = false) :
    x.msb = false := by
  have h : ¬ |fmt.value (bitsOf x)| < eb.absErrBound := of_decide_eq_false hbig
  rw [abs_of_nonneg hx.2, not_lt] at h
  exact msb_of_value_pos (lt_of_lt_of_le eb.pos h)

/-- Literals cut at the error bound are within half of the last bit that it asks for. -/
theorem literal_bounded :
    LiteralBounded fmt eb (2 ^ (-(eb.binary + 1 : ℤ))) (literal fmt eb) where
  length_gt x := by
    have hE := fmt.expo_wide
    rw [literal_length]
    omega
  bounded x := by
    obtain ⟨y, hy, hacc, _⟩ := literal_accuracy eb x
    exact ⟨fmt.value (bitsOf y), by rw [decompressLiteral, hy]; rfl, hacc⟩

theorem errorLaw (eb : ErrorBound) {xs : List (BitVec fmt.numBits)}
    (hxs : ∀ x ∈ xs, NonNeg fmt x) :
    ErrorLaw fmt eb (2 ^ (-(eb.binary + 1 : ℤ))) xs
      (codeWords (FloatArith.exact fmt eb) (literal fmt eb)
        (History.init (FloatArith.exact fmt eb)) xs)
      (decompressWith (FloatArith.exact fmt eb)
        (compressWith (FloatArith.exact fmt eb) (literal fmt eb) xs).dataBits xs.length) := by
  rw [decompressWith_eq_frames]
  exact predictive_errorLaw literal_bounded hxs
    (frames_isPrefix (FloatArith.exact fmt eb) fun x hx => (hxs x hx).msb_of_not_small)

/-- The error law of `myCompress_bitwise_double` with `myDecompress_bitwise_double`, and of
    the `float` pair. -/
theorem bitwise_errorLaw (eb : ErrorBound) :
    (2 : ℚ) ^ (-(eb.binary + 1 : ℤ)) ≤ eb.absErrBound / 2 ∧
    (∀ xs : List (BitVec 64), (∀ x ∈ xs, NonNeg double x) →
      ErrorLaw double eb (2 ^ (-(eb.binary + 1 : ℤ))) xs
        (codeWords (FloatArith.exact double eb) (literal double eb)
          (History.init (FloatArith.exact double eb)) xs)
        (myDecompressBitwiseDouble (FloatArith.exact double eb)
          (myCompressBitwiseDouble (FloatArith.exact double eb) xs).dataBits xs.length)) ∧
    (∀ xs : List (BitVec 32), (∀ x ∈ xs, NonNeg float x) →
      ErrorLaw float eb (2 ^ (-(eb.binary + 1 : ℤ))) xs
        (codeWords (FloatArith.exact float eb) (literal float eb)
          (History.init (FloatArith.exact float eb)) xs)
        (myDecompressBitwise (FloatArith.exact float eb)
          (myCompressBitwise (FloatArith.exact float eb) xs).dataBits xs.length)) :=
  ⟨literal_bound_le, fun _ hxs => errorLaw eb hxs, fun _ hxs => errorLaw eb hxs⟩

/-- `1.0`, the number below `4.0`, `9.0` and `16.0`. -/
def squares : List (BitVec 64) :=
  [0x3FF0000000000000, 0x400FFFFFFFFFFFFF, 0x4022000000000000, 0x4030000000000000]

theorem squares_nonNeg : ∀ x ∈ squares, NonNeg double x := by
  intro x hx
  simp only [squares, List.mem_cons, List.not_mem_nil, or_false] at hx
  rcases hx with rfl | rfl | rfl | rfl
  all_goals exact ⟨by decide +kernel, by decide +kernel⟩

theorem bitwise_errorLaw_squares :
    ErrorLaw double absErrorBound (2 ^ (-(absErrorBound.binary + 1 : ℤ))) squares
      (codeWords (FloatArith.exact double absErrorBound) (literal double absErrorBound)
        (History.init (FloatArith.exact double absErrorBound)) squares)
      (myDecompressBitwiseDouble (FloatArith.exact double absErrorBound)
        (myCompressBitwiseDouble (FloatArith.exact double absErrorBound) squares).dataBits 4) :=
  (bitwise_errorLaw absErrorBound).2.1 squares squares_nonNeg

/-- Every value that a run emits is within `absErrBound` of its element. -/
def WithinBound (fmt : Format) (eb : ErrorBound) (xs : List (BitVec fmt.numBits))
    (run : Except Fault (Output (History ℚ) ℚ)) : Prop :=
  ∀ o, run = .ok o → ∀ i < o.decompressed.length,
    errorAt fmt xs o.decompressed i ≤ eb.absErrBound

/-- A run refutes the plain bound when it returns and some slot is too far off. -/
theorem not_withinBound {xs : List (BitVec fmt.numBits)}
    {run : Except Fault (Output (History ℚ) ℚ)} (i : Nat)
    (h : (match run with
      | .ok o => decide (i < o.decompressed.length) &&
          decide (eb.absErrBound < errorAt fmt xs o.decompressed i)
      | .error _ => false) = true) : ¬ WithinBound fmt eb xs run := by
  intro hwithin
  cases run with
  | error f => simp at h
  | ok o =>
      simp only [Bool.and_eq_true, decide_eq_true_eq] at h
      exact absurd (hwithin o rfl i h.1) (not_le.mpr h.2)

/-- The last of the four squares is predicted from the three before it.  The errors of
    these, each below `2 ^ -20`, have alternating signs and add up to more than the bound. -/
theorem bitwise_error_exceeds_bound :
    (∀ x ∈ squares, NonNeg double x) ∧
    ¬ WithinBound double absErrorBound squares
      (myDecompressBitwiseDouble (FloatArith.exact double absErrorBound)
        (myCompressBitwiseDouble (FloatArith.exact double absErrorBound) squares).dataBits 4) :=
  ⟨squares_nonNeg, not_withinBound 3 (by decide +kernel)⟩

end MpiApps.Codec
