/-
  MpiApps.Codec.OnlyPrediction

  The `op` codec: prediction codes, and literals that are sent in full.

  Its words are told apart by their first bit alone, and no word waits for the bit
  after it.  Literals come back as they were, so the errors of the codec are those
  of its predictions (`opErrorLaw`), and without them it is exact (`opExact`).
-/

import MpiApps.Codec.ErrorBound

namespace MpiApps.Codec

open MpiApps.BinaryFormat
open MpiApps.Framing

variable {fmt : Format} {eb : ErrorBound}

/-! ## Words and padding -/

theorem op_complete_code {l : List Bool} (h : l.length + 1 = 3) :
    (opRule fmt).Complete (true :: l) := by
  refine Rule.Complete.of_shorter (by simp only [opRule]; rw [if_pos h]; decide) ?_
  intro p hp hlt
  cases p with
  | nil => rfl
  | cons b p =>
      obtain ⟨rfl, _⟩ := List.cons_prefix_cons.mp hp
      rw [List.length_cons, List.length_cons] at hlt
      simp only [opRule]
      rw [if_neg (by omega)]

theorem op_complete_literal {l : List Bool} (h : l.length + 1 = fmt.numBits) :
    (opRule fmt).Complete (false :: l) := by
  refine Rule.Complete.of_shorter (by simp only [opRule]; rw [if_pos h]; decide) ?_
  intro p hp hlt
  cases p with
  | nil => rfl
  | cons b p =>
      obtain ⟨rfl, _⟩ := List.cons_prefix_cons.mp hp
      rw [List.length_cons, List.length_cons] at hlt
      simp only [opRule]
      rw [if_neg (by omega)]

theorem opCodeWords_complete {V : Type} (A : FloatArith fmt V) (h : History V)
    {xs : List (BitVec fmt.numBits)}
    (hxs : ∀ x ∈ xs, A.ltBound (A.fabs (A.ofBits x)) = false → x.msb = false) :
    ∀ w ∈ codeWords A tostr h xs, (opRule fmt).Complete w := by
  refine codeWords_complete_of A h (fun _ => op_complete_code) fun x hx hb => ?_
  obtain ⟨l, hl⟩ := tostr_eq_cons (by have := fmt.numBits_eq; omega) x
  have hlen := tostr_length x
  rw [hl, List.length_cons] at hlen
  rw [hl, hxs x hx hb]
  exact op_complete_literal hlen

/-- Padding bits are too few to end a word. -/
theorem op_frames_zeros {n : Nat} (hn : n < fmt.numBits) :
    (opRule fmt).frames (List.replicate n false) = [] := by
  rw [Rule.frames, Rule.run_more]
  · rfl
  · intro p hp
    rw [List.nil_append]
    cases p with
    | nil => rfl
    | cons b p =>
        have hb : b = false := by
          have hmem : b ∈ List.replicate n false := hp.subset (by simp)
          exact List.eq_of_mem_replicate hmem
        have hlen := hp.length_le
        rw [List.length_cons, List.length_replicate] at hlen
        subst hb
        simp only [opRule]
        rw [if_neg (by omega)]

/-- The words that the `op` decompressor isolates are the first ones that were written. -/
theorem opFrames_isPrefix {V : Type} (A : FloatArith fmt V) {xs : List (BitVec fmt.numBits)}
    (hxs : ∀ x ∈ xs, A.ltBound (A.fabs (A.ofBits x)) = false → x.msb = false) :
    (opRule fmt).frames (readBits (compressWith A tostr xs).dataBits) <+:
      codeWords A tostr (History.init A) xs := by
  have hE := fmt.expo_wide
  have hW := fmt.numBits_eq
  rw [(compressWith_packed A _ xs).bits_eq]
  refine Rule.frames_flatten_isPrefix _ _ (opCodeWords_complete A _ hxs) (op_frames_zeros ?_)
  simp only [padding]
  omega

/-! ## Errors -/

/-- A literal of full width comes back as it was. -/
theorem fillBits_tostr (x : BitVec fmt.numBits) : fillBits fmt (tostr x) = some x := by
  have hW := fmt.numBits_eq
  rw [fillBits, if_pos (tostr_length x), strto_eq (tostr_length x) (by omega), tostr_eq,
    vecOf_bitsOf]

theorem tostr_bounded : LiteralBounded fmt eb 0 tostr where
  length_gt x := by
    have hE := fmt.expo_wide
    have hW := fmt.numBits_eq
    rw [tostr_length]
    omega
  bounded x := by
    refine ⟨fmt.value (bitsOf x), ?_, by simp⟩
    rw [decompressLiteral, fillBits_tostr]
    rfl

theorem opErrorLaw (eb : ErrorBound) {xs : List (BitVec fmt.numBits)}
    (hxs : ∀ x ∈ xs, NonNeg fmt x) :
    ErrorLaw fmt eb 0 xs
      (codeWords (FloatArith.exact fmt eb) tostr (History.init (FloatArith.exact fmt eb)) xs)
      (decompressOp (FloatArith.exact fmt eb)
        (compressWith (FloatArith.exact fmt eb) tostr xs).dataBits xs.length) := by
  rw [decompressOp_eq_frames]
  exact predictive_errorLaw tostr_bounded hxs
    (opFrames_isPrefix (FloatArith.exact fmt eb) fun x hx => (hxs x hx).msb_of_not_small)

/-! ## Exact recovery -/

/-- A run of the `op` decompressor that isolates the words as they were written, one value
    for each: literals come back as the number, the small code as zero. -/
def OpExact (fmt : Format) (eb : ErrorBound) (xs : List (BitVec fmt.numBits))
    (run : Except Fault (Output (History (BitVec fmt.numBits)) (BitVec fmt.numBits))) : Prop :=
  ∃ o, run = .ok o ∧
    o.words = codeWords (FloatArith.ieee fmt eb) tostr (History.init (FloatArith.ieee fmt eb)) xs ∧
    o.decompressed.length = xs.length ∧
    ∀ (i : Nat) x w v, xs[i]? = some x → o.words[i]? = some w → o.decompressed[i]? = some v →
      (w = tostr x → v = x) ∧ (w = smallCode → v = 0)

/-- The literal of a number is longer than any code. -/
theorem decompressBitwise_tostr {V : Type} (A : FloatArith fmt V) (x : BitVec fmt.numBits)
    (h : History V) : decompressBitwise A (tostr x) h = .ok (A.ofBits x) := by
  have hE := fmt.expo_wide
  have hW := fmt.numBits_eq
  have hlen := tostr_length x
  rw [decompressBitwise_of_length A (by omega), decompressLiteral, fillBits_tostr]
  rfl

/-- The words that the `op` decompressor isolates are those that were written: none of
    them waits for the bit after it, and the padding ends no word. -/
theorem opFrames_eq {V : Type} (A : FloatArith fmt V) {xs : List (BitVec fmt.numBits)}
    (hxs : ∀ x ∈ xs, A.ltBound (A.fabs (A.ofBits x)) = false → x.msb = false) :
    (opRule fmt).frames (readBits (compressWith A tostr xs).dataBits) =
      codeWords A tostr (History.init A) xs := by
  have hE := fmt.expo_wide
  have hW := fmt.numBits_eq
  rw [(compressWith_packed A _ xs).bits_eq, Rule.frames_flatten_iff]
  refine ⟨opCodeWords_complete A _ hxs, ?_, op_frames_zeros ?_⟩
  · intro w _ hn
    exfalso
    cases w with
    | nil => simp [opRule] at hn
    | cons b l =>
        cases b
        all_goals
          simp only [opRule] at hn
          split at hn <;> cases hn
  · simp only [padding]
    omega

/-- A complete word is a code of three bits or a literal of full width. -/
theorem op_complete_cases {w : List Bool} (h : (opRule fmt).Complete w) :
    (∃ l, w = true :: l ∧ w.length = 3) ∨ (∃ l, w = false :: l ∧ w.length = fmt.numBits) := by
  have hst := h.1
  cases w with
  | nil => exact absurd rfl hst
  | cons b l =>
      cases b with
      | true =>
          refine .inl ⟨l, rfl, ?_⟩
          by_contra hlen
          exact hst (if_neg hlen)
      | false =>
          refine .inr ⟨l, rfl, ?_⟩
          by_contra hlen
          exact hst (if_neg hlen)

theorem op_unpacker_ok {V : Type} (A : FloatArith fmt V) {w : List Bool}
    (h : (opRule fmt).Complete w) (hist : History V) :
    ∃ v, (unpacker A).decompress w hist = .ok v := by
  have hE := fmt.expo_wide
  have hW := fmt.numBits_eq
  have hle : w.length ≤ fmt.numBits := by
    rcases op_complete_cases h with ⟨_, _, hlen⟩ | ⟨_, _, hlen⟩ <;> omega
  show ∃ v, decompressBitwise A w hist = .ok v
  unfold decompressBitwise
  split
  · exact ⟨_, rfl⟩
  · exact ⟨_, rfl⟩
  · exact ⟨_, rfl⟩
  · exact ⟨_, rfl⟩
  · -- a word of three bits starts with a one
    rcases op_complete_cases h with ⟨l, hl, _⟩ | ⟨l, _, hlen⟩
    · simp at hl
    · simp only [List.length_cons, List.length_nil] at hlen
      omega
  · exact decompressLiteral_ok A hle

theorem ieee_ofInt_zero (fmt : Format) (eb : ErrorBound) :
    (FloatArith.ieee fmt eb).ofInt 0 = 0 := by
  show (BitVec.ofNat 1 0 ++ BitVec.ofNat fmt.expoBits 0) ++ BitVec.ofNat fmt.mantBits 0 = 0
  rw [BitVec.zero_append_zero, BitVec.zero_append_zero]
  rfl

theorem opExact (eb : ErrorBound) {xs : List (BitVec fmt.numBits)}
    (hxs : ∀ x ∈ xs, x.msb = false) :
    OpExact fmt eb xs (decompressOp (FloatArith.ieee fmt eb)
      (compressWith (FloatArith.ieee fmt eb) tostr xs).dataBits xs.length) := by
  have hsign : ∀ x ∈ xs, (FloatArith.ieee fmt eb).ltBound
      ((FloatArith.ieee fmt eb).fabs ((FloatArith.ieee fmt eb).ofBits x)) = false →
      x.msb = false := fun x hx _ => hxs x hx
  have hcomplete := opCodeWords_complete _ (History.init (FloatArith.ieee fmt eb)) hsign
  rw [decompressOp_eq_frames, opFrames_eq _ hsign]
  obtain ⟨o, ho⟩ := @Unpacker.foldlM_ok _ _ _ xs.length _
    ⟨History.init (FloatArith.ieee fmt eb), [], []⟩
    (fun w hw h => op_unpacker_ok _ (hcomplete w hw) h) (by simp)
  obtain ⟨hw, hlen⟩ := Unpacker.words_of_foldlM ho
  obtain ⟨vs, hdec, _, hval⟩ := Unpacker.decompress_of_foldlM ho
  simp only [List.nil_append] at hw hdec
  refine ⟨o, ho, hw, by simpa using hlen, ?_⟩
  intro i x w v hx hi hv
  rw [hw] at hi
  rw [hdec] at hv
  have hwv := hval i w v hi hv
  constructor
  · rintro rfl
    exact (Except.ok.inj ((decompressBitwise_tostr _ x _).symm.trans hwv)).symm
  · rintro rfl
    rw [← ieee_ofInt_zero fmt eb]
    exact (Except.ok.inj hwv).symm

/-- On lists of numbers with sign bit 0 the two `op` codecs return every literal as it was
    and every small value as zero, one value for each element and nothing for the padding. -/
theorem bitwise_op_exact (eb : ErrorBound) :
    (∀ xs : List (BitVec 64), (∀ x ∈ xs, x.msb = false) →
      OpExact double eb xs
        (myDecompressBitwiseDoubleOp (FloatArith.ieee double eb)
          (myCompressBitwiseDoubleOp (FloatArith.ieee double eb) xs).dataBits xs.length)) ∧
    (∀ xs : List (BitVec 32), (∀ x ∈ xs, x.msb = false) →
      OpExact float eb xs
        (myDecompressBitwiseOp (FloatArith.ieee float eb)
          (myCompressBitwiseOp (FloatArith.ieee float eb) xs).dataBits xs.length)) :=
  ⟨fun _ hxs => opExact eb hxs, fun _ hxs => opExact eb hxs⟩

/-- A literal, a small value, and the literal again. -/
theorem bitwise_op_exact_example :
    OpExact double absErrorBound [0x3FF0000000000000, 0, 0x3FF0000000000000]
      (myDecompressBitwiseDoubleOp (FloatArith.ieee double absErrorBound)
        (myCompressBitwiseDoubleOp (FloatArith.ieee double absErrorBound)
          [0x3FF0000000000000, 0, 0x3FF0000000000000]).dataBits 3) :=
  (bitwise_op_exact absErrorBound).1 [0x3FF0000000000000, 0, 0x3FF0000000000000]
    (by simp only [List.forall_mem_cons, List.not_mem_nil, false_implies, implies_true, and_true]
        decide)

end MpiApps.Codec
