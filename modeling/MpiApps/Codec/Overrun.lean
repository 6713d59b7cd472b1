/-
  MpiApps.Codec.Overrun

  How many values come out of a stream of a given length.

  The decompressors use the number of elements for the size of `decompressed` alone, and
  store a value for every word that the bytes spell.  Bits that are flipped can spell more
  words than were written: a stream of ones is cut into codes of three bits.  The stores
  stay inside only if the compressor has written such codes and nothing else, and if what
  is padded up to the next byte is too short for a further one (`storesInside_iff`).
-/

import MpiApps.Codec.Robustness
import MpiApps.Codec.MaskDelivery

namespace MpiApps.Codec

open MpiApps.BinaryFormat
open MpiApps.Framing

/-! ## Stores -/

section Emit

variable {H V : Type} {U : Unpacker H V} {num : Nat}

/-- Words that are unpacked without leaving a buffer are stored inside if they are no more
    than the slots that are left. -/
theorem foldlM_emit_inside {ws : List (List Bool)} {o : Output H V}
    (hU : ∀ w ∈ ws, ∀ h, U.decompress w h ≠ .error .outOfBounds)
    (hnum : o.decompressed.length + ws.length ≤ num) :
    ws.foldlM (U.emit num) o ≠ .error .outOfBounds := by
  induction ws generalizing o with
  | nil => exact fun h => by cases h
  | cons w ws ih =>
      rw [List.length_cons] at hnum
      rw [List.foldlM_cons]
      -- a fault of the unpacking is its own, so it is no store
      cases hd : U.decompress w o.hist with
      | error f =>
          have hemit : U.emit num o w = .error f := by
            unfold Unpacker.emit
            rw [hd]
            rfl
          rw [hemit]
          intro h
          cases h
          exact hU w (by simp) o.hist hd
      | ok v =>
          rw [Unpacker.emit_of_ok hd (by omega)]
          refine ih (fun w' hw' => hU w' (by simp [hw'])) ?_
          rw [List.length_append, List.length_singleton]
          omega

/-- A successful run has had a slot for each value. -/
theorem Unpacker.length_le_of_foldlM {ws : List (List Bool)} {o o' : Output H V}
    (ho : o.decompressed.length ≤ num) (h : ws.foldlM (U.emit num) o = .ok o') :
    o'.decompressed.length ≤ num := by
  induction ws generalizing o with
  | nil =>
      cases h
      exact ho
  | cons w ws ih =>
      rw [List.foldlM_cons] at h
      obtain ⟨o₁, he, h⟩ := bind_eq_ok h
      obtain ⟨v, _, hlt, rfl⟩ := Unpacker.emit_ok he
      refine ih ?_ h
      rw [List.length_append, List.length_singleton]
      omega

/-- More words than slots: whatever follows them, a store goes outside. -/
theorem foldlM_emit_outside {ws : List (List Bool)}
    (hok : ∀ w ∈ ws, ∀ h, ∃ v, U.decompress w h = .ok v) (h : H) (hnum : num < ws.length)
    (rest : List (List Bool)) :
    (ws ++ rest).foldlM (U.emit num) ⟨h, [], []⟩ = .error .outOfBounds := by
  rw [List.foldlM_append]
  cases he : ws.foldlM (U.emit num) ⟨h, [], []⟩ with
  | error f =>
      rw [(foldlM_emit_fault hok he).1]
      rfl
  | ok o =>
      have hlen := (Unpacker.words_of_foldlM he).2
      have hle := Unpacker.length_le_of_foldlM (Nat.zero_le num) he
      rw [List.length_nil] at hlen
      omega

end Emit

/-! ## Streams of one symbol -/

/-- All bits of all bytes set, or none. -/
theorem readBits_replicate (n : Nat) (b : Bool) :
    readBits (List.replicate n (BitVec.fill 8 b)) = List.replicate (8 * n) b := by
  have hbyte : byteBits (BitVec.fill 8 b) = List.replicate 8 b := by
    cases b <;> rfl
  rw [readBits, List.flatMap_replicate, hbyte, List.flatten_replicate_replicate, Nat.mul_comm]

theorem replicate_eq_flatten {k m n : Nat} (h : k * m ≤ n) (b : Bool) :
    List.replicate n b =
      (List.replicate m (List.replicate k b)).flatten ++ List.replicate (n - k * m) b := by
  rw [List.flatten_replicate_replicate, Nat.mul_comm m, List.replicate_append_replicate,
    Nat.add_sub_of_le h]

/-! ## Codes in a stream of fixed length -/

section Codes

variable {H V : Type} {U : Unpacker H V} {num : Nat} {r : Rule Bool}

/-- If no word is shorter than a code, streams that are too short for one code more than
    there are slots are stored inside. -/
theorem inside_of_short (hlen : ∀ w, r.Complete w → 3 ≤ w.length)
    (hU : ∀ w, r.Complete w → ∀ h, U.decompress w h ≠ .error .outOfBounds) (h : H)
    {dataBits : List (BitVec 8)} (hshort : 8 * dataBits.length < 3 * (num + 1)) :
    (r.frames (readBits dataBits)).foldlM (U.emit num) ⟨h, [], []⟩ ≠ .error .outOfBounds := by
  refine foldlM_emit_inside (fun w hw => hU w (Rule.complete_of_mem_frames hw)) ?_
  have hcount := Rule.mul_frames_length_le hlen (readBits dataBits)
  rw [readBits_length] at hcount
  rw [List.length_nil]
  omega

/-- A stream of ones that is long enough spells one code more than there are slots. -/
theorem outside_of_long (hcode : r.Complete [true, true, true])
    (hdone : r.status [true, true, true] ≠ .doneAtNext)
    (hok : ∀ h, ∃ v, U.decompress [true, true, true] h = .ok v) (h : H) {n : Nat}
    (hlong : 3 * (num + 1) ≤ 8 * n) :
    (r.frames (readBits (List.replicate n (BitVec.fill 8 true)))).foldlM (U.emit num)
      ⟨h, [], []⟩ = .error .outOfBounds := by
  have hword : ∀ w ∈ List.replicate (num + 1) [true, true, true], w = [true, true, true] :=
    fun w hw => List.eq_of_mem_replicate hw
  rw [readBits_replicate, replicate_eq_flatten hlong, Rule.frames_flatten_append_of_done]
  · refine foldlM_emit_outside (fun w hw => ?_) h (by rw [List.length_replicate]; omega) _
    rw [hword w hw]
    exact hok
  · intro w hw
    rw [List.eq_of_mem_replicate hw]
    exact hcode
  · intro w hw
    rw [List.eq_of_mem_replicate hw]
    exact hdone

/-- So the stores are inside on all streams of a length exactly if the length is below
    that of one code more than there are slots. -/
theorem forall_inside_iff (hlen : ∀ w, r.Complete w → 3 ≤ w.length)
    (hcode : r.Complete [true, true, true])
    (hdone : r.status [true, true, true] ≠ .doneAtNext)
    (hok : ∀ w, r.Complete w → ∀ h, ∃ v, U.decompress w h = .ok v) (h : H) (n : Nat) :
    (∀ dataBits : List (BitVec 8), dataBits.length = n →
        (r.frames (readBits dataBits)).foldlM (U.emit num) ⟨h, [], []⟩ ≠
          .error .outOfBounds) ↔
      8 * n < 3 * (num + 1) := by
  constructor
  · intro hin
    by_contra hlong
    exact hin _ List.length_replicate
      (outside_of_long hcode hdone (hok _ hcode) h (by omega))
  · rintro hshort dataBits rfl
    refine inside_of_short hlen (fun w hw h => ?_) h hshort
    obtain ⟨v, hv⟩ := hok w hw h
    rw [hv]
    exact fun he => by cases he

end Codes

section Members

variable {fmt : Format} {V : Type} (A : FloatArith fmt V)

theorem decompressWith_inside_iff (num n : Nat) :
    (∀ dataBits : List (BitVec 8), dataBits.length = n →
        decompressWith A dataBits num ≠ .error .outOfBounds) ↔ 8 * n < 3 * (num + 1) := by
  have hcode : (bitwiseRule fmt A.errorBound 3).Complete [true, true, true] :=
    bitwise_complete_code rfl
  simp only [decompressWith_eq_frames]
  refine forall_inside_iff (fun w hw => ?_) hcode ?_ (fun w hw h => unpacker_ok A hw h) _ n
  · have hE := fmt.expo_wide
    rcases bitwise_complete_cases hw with ⟨_, _, hlen⟩ | ⟨_, _, hlen⟩ <;> omega
  · simp [bitwiseRule, bitwiseStatus]

theorem decompressOp_inside_iff (num n : Nat) :
    (∀ dataBits : List (BitVec 8), dataBits.length = n →
        decompressOp A dataBits num ≠ .error .outOfBounds) ↔ 8 * n < 3 * (num + 1) := by
  simp only [decompressOp_eq_frames]
  refine forall_inside_iff (fun w hw => ?_) (op_complete_code rfl) ?_
    (fun w hw h => op_unpacker_ok A hw h) _ n
  · have hE := fmt.expo_wide
    have hW := fmt.numBits_eq
    rcases op_complete_cases hw with ⟨_, _, hlen⟩ | ⟨_, _, hlen⟩ <;> omega
  · simp [opRule]

end Members

/-! ## What the compressors write -/

section Written

variable {fmt : Format} {V : Type} (A : FloatArith fmt V)

/-- Every element is written as a code. -/
def allCoded (h : History V) : List (BitVec fmt.numBits) → Bool
  | [] => true
  | x :: xs => coded A h x && allCoded (h.push A (A.ofBits x)) xs

/-- Literals are so long that a single one of them gives room for more than a code. -/
theorem codeWords_length_ge {lit : BitVec fmt.numBits → List Bool}
    (hlit : ∀ x, 9 ≤ (lit x).length) (h : History V) (xs : List (BitVec fmt.numBits)) :
    3 * xs.length + (if allCoded A h xs then 0 else 6) ≤
      (codeWords A lit h xs).flatten.length := by
  induction xs generalizing h with
  | nil => exact Nat.le_refl 0
  | cons x xs ih =>
      have hrest := ih (h.push A (A.ofBits x))
      have hx := hlit x
      rw [codeWords, List.flatten_cons, List.length_append, codeWord_length, List.length_cons,
        allCoded]
      cases coded A h x
      · simp only [Bool.false_and, Bool.false_eq_true, if_false]
        omega
      · simp only [Bool.true_and, if_true]
        omega

/-- Without literals all codecs write the same three bits for each element. -/
theorem codeWords_length_of_allCoded {lit : BitVec fmt.numBits → List Bool} {h : History V}
    {xs : List (BitVec fmt.numBits)} (hc : allCoded A h xs = true) :
    (codeWords A lit h xs).flatten.length = 3 * xs.length := by
  induction xs generalizing h with
  | nil => rfl
  | cons x xs ih =>
      rw [allCoded, Bool.and_eq_true] at hc
      rw [codeWords, List.flatten_cons, List.length_append, codeWord_length, if_pos hc.1,
        ih hc.2, List.length_cons, Nat.mul_succ, Nat.add_comm]

/-- With at most two bits of padding they are too short for a further code. -/
theorem compressWith_short {lit : BitVec fmt.numBits → List Bool} {xs : List (BitVec fmt.numBits)}
    (hc : allCoded A (History.init A) xs = true) (hpad : padding (3 * xs.length) ≤ 2) :
    8 * (compressWith A lit xs).bytes < 3 * (xs.length + 1) := by
  have hlen := (compressWith_packed A lit xs).length_eq
  rw [codeWords_length_of_allCoded A hc] at hlen
  omega

/-- They are long enough for more words of two bits than there are elements. -/
theorem compressWith_long {lit : BitVec fmt.numBits → List Bool} {xs : List (BitVec fmt.numBits)}
    (hc : allCoded A (History.init A) xs = true) (hpad : padding (3 * xs.length) ≤ 2)
    (hne : xs ≠ []) : 2 * (xs.length + 1) < 8 * (compressWith A lit xs).bytes := by
  have hlen := (compressWith_packed A lit xs).length_eq
  have hpos := List.length_pos_of_ne_nil hne
  rw [codeWords_length_of_allCoded A hc] at hlen
  omega

/-- Nothing else is so short. -/
theorem compressWith_short_iff {lit : BitVec fmt.numBits → List Bool}
    (hlit : ∀ x, 9 ≤ (lit x).length) (xs : List (BitVec fmt.numBits)) :
    8 * (compressWith A lit xs).bytes < 3 * (xs.length + 1) ↔
      allCoded A (History.init A) xs = true ∧ padding (3 * xs.length) ≤ 2 := by
  refine ⟨fun hshort => ?_, fun h => compressWith_short A h.1 h.2⟩
  have hlen := (compressWith_packed A lit xs).length_eq
  have hge := codeWords_length_ge A hlit (History.init A) xs
  cases hc : allCoded A (History.init A) xs with
  | true =>
      rw [codeWords_length_of_allCoded A hc] at hlen
      exact ⟨rfl, by omega⟩
  | false =>
      rw [hc] at hge
      simp only [Bool.false_eq_true, if_false] at hge
      omega

end Written

/-! ## The bitmask codec -/

section Mask

variable {fmt : Format} {eb : ErrorBound} {type : Nat} {mask : List Bool}

/-- No word is shorter than a code, unless there is no type and the mask announces no
    mantissa. -/
theorem three_le_of_maskStatus (hw : ¬ (type = 0 ∧ maskMantissa fmt eb mask = 0))
    {cur : List Bool} (h : (maskRule fmt eb type mask).status cur ≠ .more) :
    3 ≤ cur.length := by
  have hE := fmt.expo_wide
  by_contra hlt
  apply h
  match cur with
  | [] => exact (maskRule fmt eb type mask).status_nil
  | [true] => exact maskStatus_of_count_ne (by simp [control, advance])
  | [false] =>
      exact maskStatus_of_pending (by rw [control_header (Nat.zero_le type)])
  | [true, b] => exact maskStatus_of_count_ne (by simp [control, advance])
  | [false, b] =>
      by_cases htype : type = 0
      · -- the stop of a masked word, which announces a mantissa
        subst htype
        have hc : control fmt eb 0 mask [false, b] = (0, false) :=
          @control_tested fmt eb 0 mask [] [b] rfl (by simp) (by simp [testedBits])
        have hann : announced fmt eb mask [false, b] ≠ 0 := by
          rw [announced, if_neg (by simp only [List.length_cons, List.length_nil]; omega)]
          exact fun hz => hw ⟨rfl, hz⟩
        show maskStatus fmt eb 0 mask [false, b] = .more
        rw [maskStatus, if_neg (by simp), if_neg (by simp [hc]), if_pos (.inr rfl), if_neg hann]
      · -- the mask test is still to come
        refine maskStatus_of_pending ?_
        rw [@control_header fmt eb type mask [b] (Nat.pos_of_ne_zero htype)]
  | _ :: _ :: _ :: _ =>
      simp only [List.length_cons] at hlt
      omega

/-- Else two zeros are a word that waits for its next bit. -/
theorem complete_two_zeros (hm : maskMantissa fmt eb mask = 0) :
    (maskRule fmt eb 0 mask).Complete [false, false] := by
  have hE := fmt.expo_wide
  obtain ⟨hc, hiff⟩ := @complete_tested fmt eb 0 mask [] [] [false] rfl (by simp [testedBits])
    (by simp)
  have hann : announced fmt eb mask [false, false] = 0 := by
    rw [announced, if_neg (by simp only [List.length_cons, List.length_nil]; omega)]
    exact hm
  have hstop := @completeFrom_of_atStop fmt eb 0 mask [false, false] [] (List.cons_ne_nil _ _)
    hc (.inr rfl)
  rw [if_pos hann] at hstop
  exact hiff.mpr (hstop.mpr rfl)

/-- It is expanded to the mask. -/
theorem expandMasked_two_zeros (hmask : mask.length = 1 + fmt.expoBits + 8) :
    ∃ y, expandMasked fmt 0 mask [false, false] = .ok y := by
  have hE := fmt.expo_wide
  have hM := fmt.mant_wide
  have hW := fmt.numBits_eq
  have hlen : [false, false].length ≠ fmt.numBits := by
    simp only [List.length_cons, List.length_nil]
    omega
  have hexp : expandMasked fmt 0 mask [false, false] =
      completed fmt (mask.take (1 + fmt.expoBits + 8) ++ []) :=
    expandMasked_masked hmask false false hlen
  rw [hexp, completed_ok_iff, List.append_nil, List.length_take]
  omega

end Mask

/-- A `decompress` call that has left its buffer returns something all the same. -/
def Unpacker.surviving {H V : Type} (U : Unpacker H V) (leftover : List Bool → V) :
    Unpacker H V :=
  ⟨fun bits h => match U.decompress bits h with
    | .error .outOfBounds => .ok (leftover bits)
    | result => result,
  U.push⟩

theorem Unpacker.surviving_inside {H V : Type} (U : Unpacker H V) (leftover : List Bool → V)
    (bits : List Bool) (h : H) :
    (U.surviving leftover).decompress bits h ≠ .error .outOfBounds := by
  unfold Unpacker.surviving
  dsimp only
  split
  · exact fun he => by cases he
  · next hne => exact hne

theorem Unpacker.surviving_of_ok {H V : Type} {U : Unpacker H V} {leftover : List Bool → V}
    {bits : List Bool} {h : H} {v : V} (hv : U.decompress bits h = .ok v) :
    (U.surviving leftover).decompress bits h = .ok v := by
  unfold Unpacker.surviving
  dsimp only
  rw [hv]

/-- A run in which no call leaves its buffer is not changed by that. -/
theorem Unpacker.foldlM_surviving {H V : Type} {U : Unpacker H V} {leftover : List Bool → V}
    {num : Nat} {ws : List (List Bool)} {o o' : Output H V}
    (h : ws.foldlM (U.emit num) o = .ok o') :
    ws.foldlM ((U.surviving leftover).emit num) o = .ok o' := by
  induction ws generalizing o with
  | nil => exact h
  | cons w ws ih =>
      rw [List.foldlM_cons] at h ⊢
      obtain ⟨o₁, he, h⟩ := bind_eq_ok h
      obtain ⟨v, hv, hlt, rfl⟩ := Unpacker.emit_ok he
      rw [Unpacker.emit_of_ok (Unpacker.surviving_of_ok hv) hlt]
      exact ih h

section MaskMembers

variable {fmt : Format} {V : Type} (A : FloatArith fmt V) {type : Nat} {mask : List Bool}
  (leftover : List Bool → V)

theorem decompressMaskWith_inside (hw : ¬ (type = 0 ∧ maskMantissa fmt A.errorBound mask = 0))
    {num : Nat} {dataBits : List (BitVec 8)} (hshort : 8 * dataBits.length < 3 * (num + 1)) :
    decompressMaskWith fmt A.errorBound type mask ((unpackerMask A type mask).surviving leftover)
      num (History.init A) dataBits ≠ .error .outOfBounds := by
  rw [decompressMaskWith_eq_frames]
  exact inside_of_short (fun w h => three_le_of_maskStatus hw h.1)
    (fun w _ h => Unpacker.surviving_inside _ leftover w h) _ hshort

/-- On streams that the decompressor returns on, this is the run of the decompressor. -/
theorem decompressMaskWith_surviving {num : Nat} {dataBits : List (BitVec 8)}
    {o : Output (History V) V}
    (h : decompressMaskWith fmt A.errorBound type mask (unpackerMask A type mask) num
      (History.init A) dataBits = .ok o) :
    decompressMaskWith fmt A.errorBound type mask ((unpackerMask A type mask).surviving leftover)
      num (History.init A) dataBits = .ok o := by
  rw [decompressMaskWith_eq_frames] at h ⊢
  exact Unpacker.foldlM_surviving h

/-- A stream of zeros spells words of two bits. -/
theorem decompressMaskWith_outside (hmask : mask.length = 1 + fmt.expoBits + 8)
    (hm : maskMantissa fmt A.errorBound mask = 0) {num n : Nat} (hlong : 2 * (num + 1) < 8 * n) :
    decompressMaskWith fmt A.errorBound 0 mask ((unpackerMask A 0 mask).surviving leftover)
      num (History.init A) (List.replicate n (BitVec.fill 8 false)) = .error .outOfBounds := by
  have hok : ∀ h, ∃ v, ((unpackerMask A 0 mask).surviving leftover).decompress
      [false, false] h = .ok v := by
    intro h
    obtain ⟨y, hy⟩ := expandMasked_two_zeros hmask
    refine ⟨A.ofBits y, Unpacker.surviving_of_ok ?_⟩
    show (expandMasked fmt 0 mask [false, false]).map A.ofBits = .ok (A.ofBits y)
    rw [hy]
    rfl
  rw [decompressMaskWith_eq_frames, readBits_replicate, replicate_eq_flatten hlong.le,
    Rule.frames_flatten_append]
  · refine foldlM_emit_outside (fun w hw => ?_) _ (by rw [List.length_replicate]; omega) _
    rw [List.eq_of_mem_replicate hw]
    exact hok
  · intro w hw
    rw [List.eq_of_mem_replicate hw]
    exact complete_two_zeros hm
  · -- the last word waits for the bits behind it
    rw [ne_eq, List.replicate_eq_nil_iff]
    omega

end MaskMembers

/-! ## All corruptions of a stream -/

/-- On every byte string of the length of the compressed stream of `xs`, the three
    decompressors store inside `decompressed`.  A fault of the first two could come from
    the buffer of a number as well, but never does (`decompress_scratchSafe`); that of the
    bitmask codec can be left (`mask_expands_outside`), and the run goes on with what is in
    memory then. -/
structure DecompressorsStoreInside {V : Type} (A : FloatArith double V) (xs : List (BitVec 64)) :
    Prop where
  bitwise : ∀ dataBits : List (BitVec 8),
    dataBits.length = (myCompressBitwiseDouble A xs).bytes →
      myDecompressBitwiseDouble A dataBits xs.length ≠ .error .outOfBounds
  op : ∀ dataBits : List (BitVec 8),
    dataBits.length = (myCompressBitwiseDoubleOp A xs).bytes →
      myDecompressBitwiseDoubleOp A dataBits xs.length ≠ .error .outOfBounds
  mask : ∀ (leftover : List Bool → V) (dataBits : List (BitVec 8)),
    dataBits.length = (myCompressBitwiseDoubleMask A xs (medDatasetDouble xs).2
        (maskOf double (medDatasetDouble xs).1)).bytes →
      decompressMaskWith double A.errorBound (medDatasetDouble xs).2
        (maskOf double (medDatasetDouble xs).1)
        ((unpackerMask A (medDatasetDouble xs).2
          (maskOf double (medDatasetDouble xs).1)).surviving leftover)
        xs.length (History.init A) dataBits ≠ .error .outOfBounds

/-- The streams hold a code for each element and no room for another one.  Words of less
    than three bits exist without a type and with a mean that keeps no mantissa. -/
structure NoRoom {V : Type} (A : FloatArith double V) (xs : List (BitVec 64)) : Prop where
  coded : allCoded A (History.init A) xs = true
  padded : padding (3 * xs.length) ≤ 2
  untyped : (medDatasetDouble xs).2 = 0 →
    maskMantissa double A.errorBound (maskOf double (medDatasetDouble xs).1) = 0 → xs = []

section NoRoom

variable {V : Type} (A : FloatArith double V) (xs : List (BitVec 64))

theorem myDecompressBitwiseDouble_inside_iff :
    (∀ dataBits : List (BitVec 8), dataBits.length = (myCompressBitwiseDouble A xs).bytes →
        myDecompressBitwiseDouble A dataBits xs.length ≠ .error .outOfBounds) ↔
      allCoded A (History.init A) xs = true ∧ padding (3 * xs.length) ≤ 2 := by
  have hE := double.expo_wide
  refine (decompressWith_inside_iff A xs.length _).trans (compressWith_short_iff A ?_ xs)
  intro x
  rw [literal_length]
  omega

theorem myDecompressBitwiseDoubleOp_inside_iff :
    (∀ dataBits : List (BitVec 8), dataBits.length = (myCompressBitwiseDoubleOp A xs).bytes →
        myDecompressBitwiseDoubleOp A dataBits xs.length ≠ .error .outOfBounds) ↔
      allCoded A (History.init A) xs = true ∧ padding (3 * xs.length) ≤ 2 := by
  have hE := double.expo_wide
  have hW := double.numBits_eq
  refine (decompressOp_inside_iff A xs.length _).trans (compressWith_short_iff A ?_ xs)
  intro x
  rw [tostr_length]
  omega

/-- On every corruption of the streams of a list the decompressors store inside exactly if
    the streams have no room for a further code. -/
theorem storesInside_iff : DecompressorsStoreInside A xs ↔ NoRoom A xs := by
  constructor
  · intro hin
    obtain ⟨hc, hpad⟩ := (myDecompressBitwiseDouble_inside_iff A xs).mp hin.bitwise
    refine ⟨hc, hpad, fun htype hm => ?_⟩
    by_contra hne
    have hmask : (maskOf double (medDatasetDouble xs).1).length = 1 + double.expoBits + 8 :=
      maskOf_length _
    have hlong : 2 * (xs.length + 1) < 8 * (myCompressBitwiseDoubleMask A xs
        (medDatasetDouble xs).2 (maskOf double (medDatasetDouble xs).1)).bytes :=
      compressWith_long A hc hpad hne
    have hout := decompressMaskWith_outside A (fun _ => A.ofInt 0) hmask hm hlong
    refine hin.mask (fun _ => A.ofInt 0) (List.replicate _ (BitVec.fill 8 false))
      List.length_replicate ?_
    rw [htype] at hout ⊢
    exact hout
  · intro hroom
    refine ⟨(myDecompressBitwiseDouble_inside_iff A xs).mpr ⟨hroom.coded, hroom.padded⟩,
      (myDecompressBitwiseDoubleOp_inside_iff A xs).mpr ⟨hroom.coded, hroom.padded⟩, ?_⟩
    intro leftover dataBits hlen
    have hshort := @compressWith_short _ _ A (maskLiteral double A.errorBound
      (medDatasetDouble xs).2 (maskOf double (medDatasetDouble xs).1)) xs hroom.coded hroom.padded
    by_cases hw : (medDatasetDouble xs).2 = 0 ∧
        maskMantissa double A.errorBound (maskOf double (medDatasetDouble xs).1) = 0
    · -- an empty list has an empty stream
      obtain rfl := hroom.untyped hw.1 hw.2
      obtain rfl : dataBits = [] := List.length_eq_zero_iff.mp hlen
      exact fun h => by cases h
    · refine decompressMaskWith_inside A leftover hw ?_
      rw [hlen]
      exact hshort

end NoRoom

/-- `1.0` is written as a literal of 32 bits.  The same four bytes with all bits set hold
    ten codes, and the second one is stored behind the only slot. -/
theorem decompress_outside_one :
    NonNeg double 0x3FF0000000000000 ∧
    (myCompressBitwiseDouble (FloatArith.ieee double absErrorBound)
      [0x3FF0000000000000]).bytes = 4 ∧
    myDecompressBitwiseDouble (FloatArith.ieee double absErrorBound)
      [0xFF, 0xFF, 0xFF, 0xFF] 1 = .error .outOfBounds ∧
    ¬ DecompressorsStoreInside (FloatArith.ieee double absErrorBound) [0x3FF0000000000000] := by
  have hbytes : (myCompressBitwiseDouble (FloatArith.ieee double absErrorBound)
      [0x3FF0000000000000]).bytes = 4 := by decide +kernel
  have hrun : myDecompressBitwiseDouble (FloatArith.ieee double absErrorBound)
      [0xFF, 0xFF, 0xFF, 0xFF] 1 = .error .outOfBounds := by
    rw [myDecompressBitwiseDouble, decompressWith_eq_frames]
    refine @outside_of_long _ _ _ _ _ (bitwise_complete_code rfl) ?_ (fun h => ⟨_, rfl⟩) _ 4
      (by decide)
    simp [bitwiseRule, bitwiseStatus]
  refine ⟨⟨by decide +kernel, by decide +kernel⟩, hbytes, hrun, fun hin => ?_⟩
  exact hin.bitwise [0xFF, 0xFF, 0xFF, 0xFF] hbytes.symm hrun

end MpiApps.Codec
