/-
  MpiApps.Codec.Completeness

  Does a decompressor isolate exactly the words that its compressor wrote?

  For the default codec and the one without prediction the answer is: always,
  except when the last word is a literal without mantissa bits and the stream
  fills its last byte.  Such a word is only closed by the bit after it, and then
  there is none.
-/

import MpiApps.Codec.Decompress
import MpiApps.Codec.Ieee

namespace MpiApps.Codec

open MpiApps.BinaryFormat
open MpiApps.Framing

/-- A run returns, has isolated exactly the words `ws`, and has written all the
    `num` slots of its output (a further write would not return). -/
def Delivers {H V : Type} (run : Except Fault (Output H V)) (num : Nat)
    (ws : List (List Bool)) : Prop :=
  ∃ o, run = .ok o ∧ o.words = ws ∧ o.decompressed.length = num

/-- The last word has no mantissa bits and the stream ends at a byte boundary, for words of
    these lengths. -/
def EndsBare (fmt : Format) (lengths : List Nat) : Prop :=
  lengths.getLast? = some (1 + fmt.expoBits) ∧ lengths.sum % 8 = 0

instance (fmt : Format) (lengths : List Nat) : Decidable (EndsBare fmt lengths) :=
  inferInstanceAs (Decidable (_ ∧ _))

variable {fmt : Format} {eb : ErrorBound}

/-! ## Words and padding under the framing rule -/

theorem literal_eq_cons (eb : ErrorBound) (x : BitVec fmt.numBits) :
    ∃ l, literal fmt eb x = x.msb :: l := by
  obtain ⟨l, hl⟩ := tostr_eq_cons (by have := fmt.numBits_eq; omega) x
  rw [literal, hl, Nat.add_assoc, Nat.add_comm, List.take_succ_cons]
  exact ⟨_, rfl⟩

/-- A literal of a number with sign bit 0 is a complete word. -/
theorem literal_complete {codeLen : Nat} {x : BitVec fmt.numBits} (hx : x.msb = false) :
    (bitwiseRule fmt eb codeLen).Complete (literal fmt eb x) := by
  obtain ⟨l, hl⟩ := literal_eq_cons eb x
  rw [hx] at hl
  have hlen := literal_length eb x
  rw [← mantissaBits_literal, hl, List.length_cons] at hlen
  rw [hl]
  exact bitwise_complete_literal (by omega)

/-- Under a rule that ends a code after three bits, all code words are complete if
    the literals are that the compressor writes. -/
theorem codeWords_complete_of {V : Type} {r : Rule Bool} (A : FloatArith fmt V)
    {lit : BitVec fmt.numBits → List Bool} (h : History V) {xs : List (BitVec fmt.numBits)}
    (hcode : ∀ l : List Bool, l.length + 1 = 3 → r.Complete (true :: l))
    (hlit : ∀ x ∈ xs, A.ltBound (A.fabs (A.ofBits x)) = false → r.Complete (lit x)) :
    ∀ w ∈ codeWords A lit h xs, r.Complete w := by
  induction xs generalizing h with
  | nil => simp [codeWords]
  | cons x xs ih =>
      intro w hw
      rcases List.mem_cons.mp hw with rfl | hw
      · rcases codeWord_cases A lit h x with ⟨hc, _⟩ | ⟨_, hc, _⟩ | ⟨hc, hb⟩
        · rw [hc]
          exact hcode _ rfl
        · rw [hc]
          cases (h.select A (A.ofBits x)).1 <;> exact hcode _ rfl
        · rw [hc]
          exact hlit x (by simp) hb
      · exact ih _ (fun y hy => hlit y (by simp [hy])) w hw

/-- Elements with sign bit 0, or small enough for a code, give complete code words. -/
theorem codeWords_complete {V : Type} (eb : ErrorBound) (A : FloatArith fmt V) (h : History V)
    {xs : List (BitVec fmt.numBits)}
    (hxs : ∀ x ∈ xs, A.ltBound (A.fabs (A.ofBits x)) = false → x.msb = false) :
    ∀ w ∈ codeWords A (literal fmt eb) h xs, (bitwiseRule fmt eb 3).Complete w :=
  codeWords_complete_of A h (fun _ => bitwise_complete_code)
    fun x hx hb => literal_complete (hxs x hx hb)

/-- Complete words written one after the other and padded to whole bytes come out
    again, unless the stream ends with a bare word at a byte boundary. -/
theorem frames_packed_iff {codeLen : Nat} (hk : codeLen < 1 + fmt.expoBits)
    {ws : List (List Bool)} (hws : ∀ w ∈ ws, (bitwiseRule fmt eb codeLen).Complete w)
    {s : ByteBuffer} (hs : Packed s ws.flatten) :
    (bitwiseRule fmt eb codeLen).frames (readBits s.dataBits) = ws ↔
      ¬ EndsBare fmt (ws.map List.length) := by
  have hpad : padding ws.flatten.length ≤ fmt.expoBits := by
    have := fmt.expo_wide
    simp only [padding]
    omega
  have hpad0 : List.replicate (padding ws.flatten.length) false ≠ [] ↔
      ws.flatten.length % 8 ≠ 0 := by
    rw [ne_eq, List.replicate_eq_nil_iff]
    simp only [padding]
    omega
  -- the words and the padding of the last byte, which is too short for a word
  rw [hs.bits_eq, Rule.frames_flatten_iff, EndsBare, List.getLast?_map, Option.map_eq_some_iff,
    ← List.length_flatten]
  constructor
  · rintro ⟨_, hlast, _⟩ ⟨⟨w, hw, hbare⟩, hmod⟩
    have hmem : w ∈ ws := List.mem_of_getLast? hw
    exact hpad0.mp (hlast w hw ((bitwise_waits_iff hk (hws w hmem)).mpr hbare)) hmod
  · intro hnot
    refine ⟨hws, fun w hw hst => ?_, bitwise_frames_zeros hpad⟩
    have hmem : w ∈ ws := List.mem_of_getLast? hw
    rw [hpad0]
    intro hmod
    exact hnot ⟨⟨w, hw, (bitwise_waits_iff hk (hws w hmem)).mp hst⟩, hmod⟩

/-- The lengths of the words of a list are read off its numbers. -/
theorem literals_map_length (eb : ErrorBound) (xs : List (BitVec fmt.numBits)) :
    (xs.map (literal fmt eb)).map List.length = xs.map (literalBits fmt eb) := by
  rw [List.map_map]
  exact List.map_congr_left fun x _ => literal_length eb x

theorem codeWords_literal_map_length {V : Type} (eb : ErrorBound) (A : FloatArith fmt V)
    (h : History V) (xs : List (BitVec fmt.numBits)) :
    (codeWords A (literal fmt eb) h xs).map List.length =
      codeLengths A (literalBits fmt eb) h xs := by
  rw [codeWords_map_length]
  exact congrArg (codeLengths A · h xs) (funext fun x => literal_length eb x)

/-! ## Unpacking never fails on a complete word -/

theorem decompressLiteral_ok {V : Type} (A : FloatArith fmt V) {w : List Bool}
    (hw : w.length ≤ fmt.numBits) : ∃ v, decompressLiteral A w = .ok v := by
  unfold decompressLiteral fillBits
  rcases Nat.lt_or_eq_of_le hw with hlt | heq
  · rw [if_neg (by omega), if_pos hlt]
    exact ⟨_, rfl⟩
  · rw [if_pos heq]
    exact ⟨_, rfl⟩

theorem complete_length_le {codeLen : Nat} (hk : codeLen ≤ fmt.numBits) {w : List Bool}
    (h : (bitwiseRule fmt eb codeLen).Complete w) : w.length ≤ fmt.numBits := by
  have hm := mantissaBits_le fmt eb w
  have hw := fmt.numBits_eq
  rcases bitwise_complete_cases h with ⟨_, _, hlen⟩ | ⟨_, _, hlen⟩ <;> omega

theorem unpacker_ok {V : Type} (A : FloatArith fmt V) {w : List Bool}
    (h : (bitwiseRule fmt eb 3).Complete w) (hist : History V) :
    ∃ v, (unpacker A).decompress w hist = .ok v := by
  have hE := fmt.expo_wide
  have hle : w.length ≤ fmt.numBits :=
    complete_length_le (by have := fmt.numBits_eq; omega) h
  show ∃ v, decompressBitwise A w hist = .ok v
  unfold decompressBitwise
  split
  · exact ⟨_, rfl⟩
  · exact ⟨_, rfl⟩
  · exact ⟨_, rfl⟩
  · exact ⟨_, rfl⟩
  · -- a word of three bits starts with a one
    rcases bitwise_complete_cases h with ⟨l, hl, _⟩ | ⟨l, _, hlen⟩
    · simp at hl
    · simp only [List.length_cons, List.length_nil] at hlen
      omega
  · exact decompressLiteral_ok A hle

/-- The words that the default decompressor isolates are the first ones that were written. -/
theorem frames_isPrefix {V : Type} (A : FloatArith fmt V) {xs : List (BitVec fmt.numBits)}
    (hxs : ∀ x ∈ xs, A.ltBound (A.fabs (A.ofBits x)) = false → x.msb = false) :
    (bitwiseRule fmt A.errorBound 3).frames
        (readBits (compressWith A (literal fmt A.errorBound) xs).dataBits) <+:
      codeWords A (literal fmt A.errorBound) (History.init A) xs := by
  have hE := fmt.expo_wide
  rw [(compressWith_packed A _ xs).bits_eq]
  refine Rule.frames_flatten_isPrefix _ _ (codeWords_complete A.errorBound A _ hxs)
    (bitwise_frames_zeros ?_)
  simp only [padding]
  omega

/-! ## Delivery -/

theorem delivers_iff_frames {H V : Type} {U : Unpacker H V} {num : Nat} {ws : List (List Bool)}
    (hnum : ws.length = num) (hd : ∀ w ∈ ws, ∀ h, ∃ v, U.decompress w h = .ok v)
    (frames : List (List Bool)) (h : H) :
    Delivers (frames.foldlM (U.emit num) ⟨h, [], []⟩) num ws ↔ frames = ws := by
  constructor
  · rintro ⟨o, ho, hw, _⟩
    have hlog := (Unpacker.words_of_foldlM ho).1
    rw [← hw, hlog]
    rfl
  · rintro rfl
    have hslots : (⟨h, [], []⟩ : Output H V).decompressed.length + frames.length ≤ num := by
      simp [hnum]
    obtain ⟨o, ho⟩ := Unpacker.foldlM_ok hd hslots
    obtain ⟨hw, hl⟩ := Unpacker.words_of_foldlM ho
    exact ⟨o, ho, by simpa using hw, by simpa [hnum] using hl⟩

/-- The default codec: every word comes out and every slot is written, exactly when
    the stream does not end with a bare word at a byte boundary. -/
theorem delivers_iff {V : Type} (A : FloatArith fmt V) {xs : List (BitVec fmt.numBits)}
    (hxs : ∀ x ∈ xs, A.ltBound (A.fabs (A.ofBits x)) = false → x.msb = false) :
    Delivers
        (decompressWith A (compressWith A (literal fmt A.errorBound) xs).dataBits xs.length)
        xs.length (codeWords A (literal fmt A.errorBound) (History.init A) xs) ↔
      ¬ EndsBare fmt (codeLengths A (literalBits fmt A.errorBound) (History.init A) xs) := by
  have hE := fmt.expo_wide
  have hws := codeWords_complete A.errorBound A (History.init A) hxs
  rw [decompressWith_eq_frames,
    delivers_iff_frames (by simp) (fun w hw h => unpacker_ok A (hws w hw) h),
    frames_packed_iff (by omega) hws (compressWith_packed A _ xs),
    codeWords_literal_map_length]

/-- The frames of a stream that can all be unpacked, no more than elements, are emitted. -/
theorem emits {H V : Type} {U : Unpacker H V} {ws frames : List (List Bool)} (hpre : frames <+: ws)
    (hd : ∀ w ∈ ws, ∀ h, ∃ v, U.decompress w h = .ok v) (h : H) :
    ∃ o, frames.foldlM (U.emit ws.length) ⟨h, [], []⟩ = .ok o ∧
      o.decompressed.length = frames.length := by
  have hslots : (⟨h, [], []⟩ : Output H V).decompressed.length + frames.length ≤ ws.length := by
    rw [List.length_nil, Nat.zero_add]
    exact hpre.length_le
  obtain ⟨o, ho⟩ := Unpacker.foldlM_ok (fun w hw => hd w (hpre.subset hw)) hslots
  exact ⟨o, ho, (Unpacker.words_of_foldlM ho).2.trans (Nat.zero_add _)⟩

/-- With prediction all numbers come back, except that the last one can be missing. -/
theorem decompressWith_returns {V : Type} (A : FloatArith fmt V) {xs : List (BitVec fmt.numBits)}
    (hxs : ∀ x ∈ xs, A.ltBound (A.fabs (A.ofBits x)) = false → x.msb = false) :
    ∃ o, decompressWith A (compressWith A (literal fmt A.errorBound) xs).dataBits xs.length =
        .ok o ∧
      (o.decompressed.length = xs.length ↔
        ¬ EndsBare fmt (codeLengths A (literalBits fmt A.errorBound) (History.init A) xs)) := by
  have hE := fmt.expo_wide
  have hws := codeWords_complete A.errorBound A (History.init A) hxs
  have hpre := frames_isPrefix A hxs
  have hlen := codeWords_length A (literal fmt A.errorBound) (History.init A) xs
  obtain ⟨o, ho, hcount⟩ := emits hpre (fun w hw => unpacker_ok A (hws w hw)) (History.init A)
  rw [hlen, ← decompressWith_eq_frames] at ho
  refine ⟨o, ho, ?_⟩
  rw [hcount, ← hlen, ← codeWords_literal_map_length,
    ← frames_packed_iff (by omega) hws (compressWith_packed A _ xs)]
  exact ⟨hpre.eq_of_length, congrArg List.length⟩

/-- The codec without prediction, in the same words. -/
theorem deliversNp_iff {V : Type} (A : FloatArith fmt V) {xs : List (BitVec fmt.numBits)}
    (hxs : ∀ x ∈ xs, x.msb = false) :
    Delivers (decompressNp A (compressNp fmt A.errorBound xs).dataBits xs.length)
        xs.length (xs.map (literal fmt A.errorBound)) ↔
      ¬ EndsBare fmt (xs.map (literalBits fmt A.errorBound)) := by
  have hE := fmt.expo_wide
  have hW := fmt.numBits_eq
  have hws : ∀ w ∈ xs.map (literal fmt A.errorBound),
      (bitwiseRule fmt A.errorBound 1).Complete w := by
    intro w hw
    obtain ⟨x, hx, rfl⟩ := List.mem_map.mp hw
    exact literal_complete (hxs x hx)
  have hok : ∀ w ∈ xs.map (literal fmt A.errorBound), ∀ h, ∃ v,
      (exitOnOne (unpackerNp A) (.exit "Error leading bit 1\n")).decompress w h = .ok v := by
    intro w hw h
    obtain ⟨v, hv⟩ := decompressLiteral_ok A (complete_length_le (by omega) (hws w hw))
    -- no word is the single one that the decompressor exits on
    have hne : w ≠ [true] := by
      obtain ⟨x, hx, rfl⟩ := List.mem_map.mp hw
      obtain ⟨l, hl⟩ := literal_eq_cons A.errorBound x
      rw [hl, hxs x hx]
      simp
    exact ⟨v, by simpa [exitOnOne, unpackerNp, hne] using hv⟩
  rw [decompressNp_eq_frames, delivers_iff_frames (by simp) hok,
    frames_packed_iff (by omega) hws (compressNp_packed A.errorBound xs),
    literals_map_length]

/-- On lists of numbers with sign bit 0 the four codecs deliver every word exactly
    when the stream does not end with a bare word at a byte boundary. -/
theorem bitwise_delivers_iff_not_endsBare {V W : Type} (A : FloatArith double V)
    (B : FloatArith float W) (xs : List (BitVec 64)) (ys : List (BitVec 32))
    (hxs : ∀ x ∈ xs, x.msb = false) (hys : ∀ y ∈ ys, y.msb = false) :
    ((Delivers
          (myDecompressBitwiseDouble A (myCompressBitwiseDouble A xs).dataBits xs.length)
          xs.length (codeWords A (literal double A.errorBound) (History.init A) xs) ↔
        ¬ EndsBare double (codeLengths A (literalBits double A.errorBound) (History.init A) xs)) ∧
      (Delivers
          (myDecompressBitwiseDoubleNp A
            (myCompressBitwiseDoubleNp A.errorBound xs).dataBits xs.length)
          xs.length (xs.map (literal double A.errorBound)) ↔
        ¬ EndsBare double (xs.map (literalBits double A.errorBound)))) ∧
    ((Delivers
          (myDecompressBitwise B (myCompressBitwise B ys).dataBits ys.length)
          ys.length (codeWords B (literal float B.errorBound) (History.init B) ys) ↔
        ¬ EndsBare float (codeLengths B (literalBits float B.errorBound) (History.init B) ys)) ∧
      (Delivers
          (myDecompressBitwiseNp B (myCompressBitwiseNp B.errorBound ys).dataBits ys.length)
          ys.length (ys.map (literal float B.errorBound)) ↔
        ¬ EndsBare float (ys.map (literalBits float B.errorBound)))) :=
  ⟨⟨delivers_iff A fun x hx _ => hxs x hx, deliversNp_iff A hxs⟩,
    ⟨delivers_iff B fun y hy _ => hys y hy, deliversNp_iff B hys⟩⟩

theorem forall_mem_pair {α : Type} {p : α → Prop} {a b : α} :
    (∀ x ∈ [a, b], p x) ↔ p a ∧ p b := by simp

/-- Two literals that fill whole bytes, the second one with mantissa bits. -/
theorem bitwise_delivers_iff_not_endsBare_example :
    Delivers
        (myDecompressBitwiseDouble (FloatArith.ieee double absErrorBound)
          (myCompressBitwiseDouble (FloatArith.ieee double absErrorBound)
            [0x3FF0000000000000, 0x3FF0000000000000]).dataBits 2) 2
        (codeWords (FloatArith.ieee double absErrorBound) (literal double absErrorBound)
          (History.init (FloatArith.ieee double absErrorBound))
          [0x3FF0000000000000, 0x3FF0000000000000]) ∧
      Delivers
        (myDecompressBitwiseNp (FloatArith.ieee float absErrorBound)
          (myCompressBitwiseNp absErrorBound [0x3F800000, 0x3F800000]).dataBits 2) 2
        ([0x3F800000, 0x3F800000].map (literal float absErrorBound)) :=
  have h := bitwise_delivers_iff_not_endsBare (FloatArith.ieee double absErrorBound)
    (FloatArith.ieee float absErrorBound) [0x3FF0000000000000, 0x3FF0000000000000]
    [0x3F800000, 0x3F800000] (forall_mem_pair.mpr ⟨by decide, by decide⟩)
    (forall_mem_pair.mpr ⟨by decide, by decide⟩)
  ⟨h.1.1.mpr (by decide +kernel), h.2.2.mpr (by decide +kernel)⟩

/-- `1.5e-6` is written as 12 bits under the default bound.  Two of them fill three
    bytes, and both decompressors return with only the first one written. -/
theorem bitwise_last_word_lost :
    (∀ x ∈ [(0x3EB92A737110E454 : BitVec 64), 0x3EB92A737110E454],
      double.Finite (bitsOf x) ∧ x.msb = false) ∧
    ¬ Delivers
      (myDecompressBitwiseDouble (FloatArith.ieee double absErrorBound)
        (myCompressBitwiseDouble (FloatArith.ieee double absErrorBound)
          [0x3EB92A737110E454, 0x3EB92A737110E454]).dataBits 2) 2
      (codeWords (FloatArith.ieee double absErrorBound) (literal double absErrorBound)
        (History.init (FloatArith.ieee double absErrorBound))
        [0x3EB92A737110E454, 0x3EB92A737110E454]) ∧
    ¬ Delivers
      (myDecompressBitwiseDoubleNp (FloatArith.ieee double absErrorBound)
        (myCompressBitwiseDoubleNp absErrorBound
          [0x3EB92A737110E454, 0x3EB92A737110E454]).dataBits 2) 2
      ([0x3EB92A737110E454, 0x3EB92A737110E454].map (literal double absErrorBound)) := by
  have hsign : ∀ x ∈ [(0x3EB92A737110E454 : BitVec 64), 0x3EB92A737110E454],
      double.Finite (bitsOf x) ∧ x.msb = false :=
    forall_mem_pair.mpr ⟨by decide +kernel, by decide +kernel⟩
  -- two bare words end at a byte boundary
  refine ⟨hsign, fun h => ?_, fun h => ?_⟩
  · exact (delivers_iff (FloatArith.ieee double absErrorBound)
      (fun x hx _ => (hsign x hx).2)).mp h (by decide +kernel)
  · exact (deliversNp_iff (FloatArith.ieee double absErrorBound)
      (fun x hx => (hsign x hx).2)).mp h (by decide +kernel)

end MpiApps.Codec
