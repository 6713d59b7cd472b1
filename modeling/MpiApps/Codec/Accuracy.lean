/-
  MpiApps.Codec.Accuracy

  How close a literal comes back.

  The encoder keeps as many mantissa bits as the error bound asks for and the
  decoder puts the value in the middle of what was cut off, so a literal is off by
  at most half of the last kept bit.  The clamps do no harm: a full mantissa is
  exact, and a number without kept mantissa bits is itself below the bound.
-/

import MpiApps.Codec.Completeness

namespace MpiApps.Codec

open MpiApps.BinaryFormat
open MpiApps.Framing

variable {fmt : Format} {eb : ErrorBound}

/-! ## One literal -/

/-- The bits of a number, cut where its literal ends. -/
theorem tostr_split (eb : ErrorBound) (x : BitVec fmt.numBits) :
    ∃ e k t, bitsOf x = x.msb :: (e ++ (k ++ t)) ∧ e.length = fmt.expoBits ∧
      k.length = mantissaBitsWithinErrorBound fmt eb (tostr x) ∧
      t.length + k.length = fmt.mantBits ∧ literal fmt eb x = x.msb :: (e ++ k) := by
  have hw := fmt.numBits_eq
  have hm := mantissaBits_le fmt eb (tostr x)
  obtain ⟨l, hl⟩ := tostr_eq_cons (by omega) x
  have hlen : l.length + 1 = fmt.numBits := by
    rw [← List.length_cons (a := x.msb), ← hl, tostr_length]
  -- after the sign: the exponent, the mantissa bits that are kept, the dropped ones
  refine ⟨l.take fmt.expoBits,
    (l.drop fmt.expoBits).take (mantissaBitsWithinErrorBound fmt eb (tostr x)),
    (l.drop fmt.expoBits).drop (mantissaBitsWithinErrorBound fmt eb (tostr x)), ?_, ?_, ?_, ?_, ?_⟩
  · rw [← tostr_eq, hl, List.take_append_drop, List.take_append_drop]
  · rw [List.length_take]
    omega
  · rw [List.length_take, List.length_drop]
    omega
  · rw [List.length_drop, List.length_take, List.length_drop]
    omega
  · have htake : 1 + fmt.expoBits + mantissaBitsWithinErrorBound fmt eb (tostr x) =
        (fmt.expoBits + mantissaBitsWithinErrorBound fmt eb (tostr x)) + 1 := by omega
    rw [literal, htake]
    conv_lhs => rw [hl, List.take_succ_cons, ← hl]
    rw [List.take_add]

/-- The number of kept mantissa bits is the clamped sum of the binary error bound and
    the exponent. -/
theorem mantissaBits_eq (eb : ErrorBound) (x : BitVec fmt.numBits) :
    (mantissaBitsWithinErrorBound fmt eb (tostr x) : ℤ) =
      max 0 (min (fmt.mantBits : ℤ) (eb.binary + fmt.expoField (bitsOf x) - fmt.bias)) := by
  have hw := fmt.numBits_eq
  have hexpo : expoValue fmt (tostr x) = fmt.expoField (bitsOf x) - fmt.bias := by
    rw [expoValue_eq _ (by rw [tostr_length]; omega), tostr_eq]
  simp only [mantissaBitsWithinErrorBound, hexpo]
  split_ifs with h1 h2
  · omega
  · omega
  · omega

/-- A literal is completed to a number within half of the last bit that the error
    bound asks for, and to the number itself if that has no bits to spare. -/
theorem literal_accuracy (eb : ErrorBound) (x : BitVec fmt.numBits) :
    ∃ y, fillBits fmt (literal fmt eb x) = some y ∧
      |fmt.value (bitsOf y) - fmt.value (bitsOf x)| ≤ 2 ^ (-(eb.binary + 1 : ℤ)) ∧
      (x.msb = false → 2 ^ ((fmt.mantBits : ℤ) - eb.binary) ≤ fmt.value (bitsOf x) → y = x) := by
  obtain ⟨e, k, t, hx, he, hk, htk, hlit⟩ := tostr_split eb x
  have hn := eb.binary_lt
  have hbias := fmt.bias_ge
  have hw := fmt.numBits_eq
  have hlen : (literal fmt eb x).length = 1 + fmt.expoBits + k.length := by
    rw [hlit, List.length_cons, List.length_append, he]
    omega
  have hm := mantissaBits_eq eb x
  have hfield : fmt.expoField (bitsOf x) = natOfBits e := by rw [hx, Format.expoField_mk _ _ he]
  rw [← hk, hfield] at hm
  rw [fillBits_literal]
  refine ⟨_, rfl, ?_, ?_⟩
  · rcases Nat.eq_zero_or_pos t.length with ht | ht
    · -- nothing was cut off
      obtain rfl : t = [] := List.length_eq_zero_iff.mp ht
      rw [if_pos (by rw [hlen]; simp at htk; omega), List.append_nil, hlit,
        bitsOf_vecOf (by simp [he, hw]; simp at htk; omega), hx, List.append_nil, sub_self,
        abs_zero]
      positivity
    · have hrest : fmt.numBits - (literal fmt eb x).length - 1 = t.length - 1 := by
        rw [hlen]
        omega
      have hbits : literal fmt eb x ++ true :: List.replicate (t.length - 1) false =
          x.msb :: (e ++ (k ++ true :: List.replicate (t.length - 1) false)) := by
        rw [hlit]
        simp
      rw [if_neg (by rw [hlen]; omega), hrest, hbits,
        bitsOf_vecOf (by simp [he]; omega), hx]
      refine (Format.value_midpoint x.msb he htk (by rintro rfl; simp at ht)).trans ?_
      refine zpow_le_zpow_right₀ (by norm_num) ?_
      omega
  · intro hsign hbig
    have hlt := fmt.value_lt (l := bitsOf x) (by rw [hx, hsign]; rfl)
    have hexp : (fmt.mantBits : ℤ) - eb.binary <
        max (natOfBits e : ℤ) 1 - fmt.bias + 1 := by
      rw [← hfield]
      exact (zpow_lt_zpow_iff_right₀ (by norm_num : (1 : ℚ) < 2)).mp (lt_of_le_of_lt hbig hlt)
    have hfull : k.length = fmt.mantBits := by omega
    obtain rfl : t = [] := List.length_eq_zero_iff.mp (by omega)
    rw [if_pos (by rw [hlen]; omega), List.append_nil, hlit]
    rw [List.append_nil] at hx
    rw [← hx, vecOf_bitsOf]

/-- The bound of a literal is at most half of `absErrBound`. -/
theorem literal_bound_le : (2 : ℚ) ^ (-(eb.binary + 1 : ℤ)) ≤ eb.absErrBound / 2 := by
  have h := eb.le_absErrBound
  rw [neg_add, zpow_add₀ (by norm_num), zpow_neg_one]
  linarith

/-! ## A whole stream without prediction -/

/-- The words that the `np` decompressor isolates are the first ones that were written. -/
theorem framesNp_isPrefix (eb : ErrorBound) {xs : List (BitVec fmt.numBits)}
    (hxs : ∀ x ∈ xs, x.msb = false) :
    (bitwiseRule fmt eb 1).frames (readBits (compressNp fmt eb xs).dataBits) <+:
      xs.map (literal fmt eb) := by
  have hE := fmt.expo_wide
  rw [(compressNp_packed eb xs).bits_eq]
  refine Rule.frames_flatten_isPrefix _ _ (fun w hw => ?_) (bitwise_frames_zeros ?_)
  · obtain ⟨x, hx, rfl⟩ := List.mem_map.mp hw
    exact literal_complete (hxs x hx)
  · simp only [padding]
    omega

/-- The `np` decompressor returns, and every value it emits is the completion of the
    literal at its place. -/
theorem decompressNp_values {V : Type} (A : FloatArith fmt V) {xs : List (BitVec fmt.numBits)}
    (hxs : ∀ x ∈ xs, x.msb = false) :
    ∃ o, decompressNp A (compressNp fmt A.errorBound xs).dataBits xs.length = .ok o ∧
      o.decompressed.length ≤ xs.length ∧
      ∀ (i : Nat) x v, xs[i]? = some x → o.decompressed[i]? = some v →
        decompressLiteral A (literal fmt A.errorBound x) = .ok v := by
  have hpre := framesNp_isPrefix A.errorBound hxs
  have hlen := hpre.length_le
  rw [List.length_map] at hlen
  have hW := fmt.numBits_eq
  -- a literal of a positive number never is the word of one bit 1
  have hword : ∀ x ∈ xs, ∀ h, (exitOnOne (unpackerNp A) (.exit "Error leading bit 1\n")).decompress
      (literal fmt A.errorBound x) h = decompressLiteral A (literal fmt A.errorBound x) := by
    intro x hx h
    obtain ⟨l, hl⟩ := literal_eq_cons A.errorBound x
    have hne : literal fmt A.errorBound x ≠ [true] := by
      rw [hl, hxs x hx]
      simp
    simp [exitOnOne, unpackerNp, hne]
  -- so no word makes the reader exit
  have hok : ∀ w ∈ (bitwiseRule fmt A.errorBound 1).frames
      (readBits (compressNp fmt A.errorBound xs).dataBits), ∀ h, ∃ v,
      (exitOnOne (unpackerNp A) (.exit "Error leading bit 1\n")).decompress w h = .ok v := by
    intro w hw h
    obtain ⟨x, hx, rfl⟩ := List.mem_map.mp (hpre.subset hw)
    rw [hword x hx]
    have hcomplete : (bitwiseRule fmt A.errorBound 1).Complete (literal fmt A.errorBound x) :=
      literal_complete (hxs x hx)
    exact decompressLiteral_ok A (complete_length_le (by omega) hcomplete)
  rw [decompressNp_eq_frames]
  have hslots : (⟨(), [], []⟩ : Output Unit V).decompressed.length +
      ((bitwiseRule fmt A.errorBound 1).frames
        (readBits (compressNp fmt A.errorBound xs).dataBits)).length ≤ xs.length := by
    simpa using hlen
  obtain ⟨o, ho⟩ := Unpacker.foldlM_ok hok hslots
  obtain ⟨vs, hdec, hvs, hval⟩ := Unpacker.decompress_of_foldlM ho
  simp only [List.nil_append] at hdec
  refine ⟨o, ho, by rw [hdec, hvs]; exact hlen, ?_⟩
  intro i x v hx hv
  rw [hdec] at hv
  obtain ⟨hi, _⟩ := List.getElem?_eq_some_iff.mp hv
  have hw : ((bitwiseRule fmt A.errorBound 1).frames
      (readBits (compressNp fmt A.errorBound xs).dataBits))[i]? =
      some (literal fmt A.errorBound x) := by
    rw [List.prefix_iff_eq_take.mp hpre, List.getElem?_take_of_lt (by omega), List.getElem?_map,
      hx]
    rfl
  rw [← hword x (List.mem_of_getElem? hx)]
  exact hval i _ v hw hv

/-- A number with sign bit 1 makes the `np` decompressor exit at the first bit of its word. -/
theorem decompressNp_exits {V : Type} (A : FloatArith fmt V) {xs : List (BitVec fmt.numBits)}
    {x : BitVec fmt.numBits} (hx : x ∈ xs) (hsign : x.msb = true) :
    decompressNp A (compressNp fmt A.errorBound xs).dataBits xs.length =
      .error (.exit "Error leading bit 1\n") := by
  have hW := fmt.numBits_eq
  -- the first such number: the words before it come out, and then a word that starts with 1
  obtain ⟨y, hfind⟩ : ∃ y, xs.find? BitVec.msb = some y := by
    rw [← Option.isSome_iff_exists, List.find?_isSome]
    exact ⟨x, hx, hsign⟩
  obtain ⟨hy, pre, post, rfl, hpre⟩ := List.find?_eq_some_iff_append.mp hfind
  simp only [Bool.not_eq_eq_eq_not, Bool.not_true] at hpre
  obtain ⟨l, hl⟩ := literal_eq_cons A.errorBound y
  rw [hy] at hl
  have hword : ∀ w ∈ pre.map (literal fmt A.errorBound),
      (bitwiseRule fmt A.errorBound 1).Complete w ∧ w ≠ [true] := by
    intro w hw
    obtain ⟨z, hz, rfl⟩ := List.mem_map.mp hw
    obtain ⟨k, hk⟩ := literal_eq_cons A.errorBound z
    refine ⟨literal_complete (hpre z hz), ?_⟩
    rw [hk, hpre z hz]
    simp
  have hone : ∀ rest : List Bool, (bitwiseRule fmt A.errorBound 1).frames (true :: rest) =
      [true] :: (bitwiseRule fmt A.errorBound 1).frames rest := fun rest => by
    have hstatus : (bitwiseRule fmt A.errorBound 1).status [true] = .done := by
      simp [bitwiseRule, bitwiseStatus]
    have h := Rule.frames_append (r := bitwiseRule fmt A.errorBound 1)
      (bitwise_complete_code (l := []) rfl) rest
    rw [hstatus] at h
    exact h.trans (if_neg (by simp))
  obtain ⟨rest, hrest⟩ : ∃ rest,
      readBits (compressNp fmt A.errorBound (pre ++ y :: post)).dataBits =
        (pre.map (literal fmt A.errorBound)).flatten ++ true :: rest := by
    rw [(compressNp_packed A.errorBound _).bits_eq, List.map_append, List.flatten_append,
      List.map_cons, List.flatten_cons, hl, List.cons_append, List.append_assoc, List.cons_append]
    exact ⟨_, rfl⟩
  rw [decompressNp_eq_frames, hrest,
    Rule.frames_flatten_append (fun w hw => (hword w hw).1) (List.cons_ne_nil _ _), hone,
    List.foldlM_append]
  have hok : ∀ w ∈ pre.map (literal fmt A.errorBound), ∀ h, ∃ v,
      (exitOnOne (unpackerNp A) (.exit "Error leading bit 1\n")).decompress w h = .ok v := by
    intro w hw h
    obtain ⟨v, hv⟩ := decompressLiteral_ok A (complete_length_le (by omega) (hword w hw).1)
    exact ⟨v, (if_neg (hword w hw).2).trans hv⟩
  obtain ⟨o, ho⟩ := Unpacker.foldlM_ok (o := (⟨(), [], []⟩ : Output Unit V)) hok
    (show 0 + (pre.map (literal fmt A.errorBound)).length ≤ (pre ++ y :: post).length by
      rw [List.length_map, List.length_append]
      omega)
  rw [ho, ok_bind, List.foldlM_cons]
  rfl

/-- Every value that the codec without prediction emits is within half of the last bit
    that the error bound asks for, and large values come back as they were. -/
def NpAccurate (fmt : Format) (eb : ErrorBound) (xs : List (BitVec fmt.numBits))
    (run : Except Fault (Output Unit (BitVec fmt.numBits))) : Prop :=
  ∃ o, run = .ok o ∧ o.decompressed.length ≤ xs.length ∧
    ∀ (i : Nat) x y, xs[i]? = some x → o.decompressed[i]? = some y →
      |fmt.value (bitsOf y) - fmt.value (bitsOf x)| ≤ 2 ^ (-(eb.binary + 1 : ℤ)) ∧
      (2 ^ ((fmt.mantBits : ℤ) - eb.binary) ≤ fmt.value (bitsOf x) → y = x)

theorem npAccurate (eb : ErrorBound) {xs : List (BitVec fmt.numBits)}
    (hxs : ∀ x ∈ xs, x.msb = false) :
    NpAccurate fmt eb xs
      (decompressNp (FloatArith.ieee fmt eb) (compressNp fmt eb xs).dataBits xs.length) := by
  obtain ⟨o, ho, hlen, hval⟩ := decompressNp_values (FloatArith.ieee fmt eb) hxs
  refine ⟨o, ho, hlen, fun i x y hx hy => ?_⟩
  obtain ⟨z, hz, hacc, hexact⟩ := literal_accuracy eb x
  have hyz : y = z := by
    have h := hval i x y hx hy
    rw [decompressLiteral, show (FloatArith.ieee fmt eb).errorBound = eb from rfl, hz] at h
    exact (Except.ok.inj h).symm
  rw [hyz]
  exact ⟨hacc, hexact (hxs x (List.mem_of_getElem? hx))⟩

/-- Accuracy of the codec without prediction, on numbers with sign bit 0: whatever it
    emits is within `2 ^ -(n+1)`, at most half of the error bound. -/
theorem bitwise_np_accurate (eb : ErrorBound) :
    (2 : ℚ) ^ (-(eb.binary + 1 : ℤ)) ≤ eb.absErrBound / 2 ∧
    (∀ xs : List (BitVec 64), (∀ x ∈ xs, x.msb = false) →
      NpAccurate double eb xs
        (myDecompressBitwiseDoubleNp (FloatArith.ieee double eb)
          (myCompressBitwiseDoubleNp eb xs).dataBits xs.length)) ∧
    (∀ xs : List (BitVec 32), (∀ x ∈ xs, x.msb = false) →
      NpAccurate float eb xs
        (myDecompressBitwiseNp (FloatArith.ieee float eb)
          (myCompressBitwiseNp eb xs).dataBits xs.length)) :=
  ⟨literal_bound_le, fun _ hxs => npAccurate eb hxs, fun _ hxs => npAccurate eb hxs⟩

/-- Zero, the smallest subnormal and a number without bits to spare. -/
theorem bitwise_np_accurate_example :
    NpAccurate double absErrorBound [0, 1, 0x4200000000000001]
      (myDecompressBitwiseDoubleNp (FloatArith.ieee double absErrorBound)
        (myCompressBitwiseDoubleNp absErrorBound [0, 1, 0x4200000000000001]).dataBits 3) :=
  (bitwise_np_accurate absErrorBound).2.1 [0, 1, 0x4200000000000001]
    (by simp only [List.forall_mem_cons, List.not_mem_nil, false_implies, implies_true, and_true]
        decide)

/-! ## Re-encoding -/

/-- The midpoint bit and the zeros behind a literal change neither its exponent nor the
    bits that were kept, so the completed number has the same literal. -/
theorem literal_of_fillBits {eb : ErrorBound} {x y : BitVec fmt.numBits}
    (h : fillBits fmt (literal fmt eb x) = some y) : literal fmt eb y = literal fmt eb x := by
  have hlen := literal_length eb x
  have hle : (literal fmt eb x).length ≤ fmt.numBits := by
    have hm := mantissaBits_le fmt eb (tostr x)
    have hw := fmt.numBits_eq
    omega
  rw [fillBits_literal] at h
  generalize hrest : (if (literal fmt eb x).length = fmt.numBits then [] else
    true :: List.replicate (fmt.numBits - (literal fmt eb x).length - 1) false) = rest at h
  have hwidth : (literal fmt eb x ++ rest).length = fmt.numBits := by
    rw [List.length_append, ← hrest]
    split
    · rw [List.length_nil]
      omega
    · rw [List.length_cons, List.length_replicate]
      omega
  have hstr : tostr y = literal fmt eb x ++ rest := by
    rw [tostr_eq, ← Option.some.inj h, bitsOf_vecOf hwidth]
  -- the exponent is inside the literal, so both numbers ask for as many mantissa bits
  have hmant : mantissaBitsWithinErrorBound fmt eb (tostr y) =
      mantissaBitsWithinErrorBound fmt eb (tostr x) := by
    rw [← mantissaBits_take (tostr y) (literal fmt eb x).length (by omega), hstr, List.take_left,
      mantissaBits_literal]
  rw [literal, hmant, hstr, ← hlen, List.take_left]

/-- The stream without prediction depends on the literals only. -/
theorem compressNp_congr {eb : ErrorBound} {xs ys : List (BitVec fmt.numBits)}
    (h : ys.map (literal fmt eb) = xs.map (literal fmt eb)) :
    compressNp fmt eb ys = compressNp fmt eb xs := by
  have hfold : ∀ l : List (BitVec fmt.numBits),
      compressNp fmt eb l = (l.map (literal fmt eb)).foldl pushBits ByteBuffer.empty := fun l => by
    rw [List.foldl_map]
    rfl
  rw [hfold, hfold, h]

/-- Encoding the decoded list again gives the same stream, and decoding that the same list,
    so any number of further rounds changes nothing. -/
structure Reencodes (fmt : Format) (eb : ErrorBound) (xs : List (BitVec fmt.numBits))
    (o : Output Unit (BitVec fmt.numBits)) : Prop where
  stream : compressNp fmt eb o.decompressed = compressNp fmt eb xs
  again : decompressNp (FloatArith.ieee fmt eb) (compressNp fmt eb o.decompressed).dataBits
    o.decompressed.length = .ok o

theorem reencodes {eb : ErrorBound} {xs : List (BitVec fmt.numBits)} (hxs : ∀ x ∈ xs, x.msb = false)
    {o : Output Unit (BitVec fmt.numBits)}
    (ho : decompressNp (FloatArith.ieee fmt eb) (compressNp fmt eb xs).dataBits xs.length = .ok o)
    (hall : o.decompressed.length = xs.length) : Reencodes fmt eb xs o := by
  obtain ⟨o', ho', _, hval⟩ := decompressNp_values (FloatArith.ieee fmt eb) hxs
  have hsame : o' = o := Except.ok.inj (ho'.symm.trans ho)
  -- equal literals give equal streams
  have hwords : o.decompressed.map (literal fmt eb) = xs.map (literal fmt eb) := by
    refine List.ext_getElem (by simp [hall]) fun i hi _ => ?_
    rw [List.length_map] at hi
    have hix : i < xs.length := by omega
    have hlit := hval i xs[i] o.decompressed[i] (List.getElem?_eq_getElem hix)
      (by rw [hsame, List.getElem?_eq_getElem hi])
    rw [List.getElem_map, List.getElem_map]
    refine literal_of_fillBits ?_
    rw [decompressLiteral] at hlit
    split at hlit
    · next y hy => exact hy.trans (congrArg some (Except.ok.inj hlit))
    · cases hlit
  have hstream := compressNp_congr hwords
  exact ⟨hstream, by rw [hstream, hall, ho]⟩

/-- On lists with sign bits 0 the codec without prediction is stable: if the decompressor
    emits all values, compressing these gives the same stream byte for byte. -/
theorem bitwise_np_reencodes (eb : ErrorBound) :
    (∀ (xs : List (BitVec 64)) (o : Output Unit (BitVec 64)), (∀ x ∈ xs, x.msb = false) →
      myDecompressBitwiseDoubleNp (FloatArith.ieee double eb)
        (myCompressBitwiseDoubleNp eb xs).dataBits xs.length = .ok o →
      o.decompressed.length = xs.length → Reencodes double eb xs o) ∧
    (∀ (xs : List (BitVec 32)) (o : Output Unit (BitVec 32)), (∀ x ∈ xs, x.msb = false) →
      myDecompressBitwiseNp (FloatArith.ieee float eb)
        (myCompressBitwiseNp eb xs).dataBits xs.length = .ok o →
      o.decompressed.length = xs.length → Reencodes float eb xs o) :=
  ⟨fun _ _ hxs ho hall => @reencodes double eb _ hxs _ ho hall,
    fun _ _ hxs ho hall => @reencodes float eb _ hxs _ ho hall⟩

/-- Zero and `1.0` come back as midpoints, and `[2^-1023, 1 + 2^-21]` has the stream that
    `[0, 1]` has. -/
theorem bitwise_np_reencodes_example :
    Reencodes double absErrorBound [0, 0x3FF0000000000000]
      ⟨(), [0x0008000000000000, 0x3FF0000080000000],
        [literal double absErrorBound 0, literal double absErrorBound 0x3FF0000000000000]⟩ :=
  (bitwise_np_reencodes absErrorBound).1 [0, 0x3FF0000000000000] _
    (forall_mem_pair.mpr ⟨by decide, by decide⟩) (by decide +kernel) (by rfl)

end MpiApps.Codec
