/-
  MpiApps.Codec.MaskDelivery

  Does the decompressor of the bitmask codec isolate exactly the words that were written?

  It does not in general.  The length tests of its automaton confuse the kinds of words: a
  3-bit code is as long as a masked word stops when `type` is 1, a masked word may reach the
  length of sign and exponent, and with `type` at `E - 1` both stops coincide.  Eight bits
  are taken off the mantissa of a flag-0 word even if it has fewer.

  `WordFramed` says for one literal whether its word survives this, `MaskFramed` for a list
  whether all words do (`mask_delivers_iff`).
-/

import MpiApps.Codec.MaskFraming
import MpiApps.Codec.WordSize

namespace MpiApps.Codec

open MpiApps.BinaryFormat
open MpiApps.Framing

/-! ## The condition -/

/-- The bits that are read for the rest of a masked word when the mask announces `m`
    mantissa bits. -/
def payloadBits (m : Nat) (flag : Bool) : Int := if flag then m else m - 8

section Condition

variable (fmt : Format) (eb : ErrorBound) (type : Nat) (mask : List Bool)

/-- The mantissa bits that the mask announces. -/
def maskMantissa : Nat := mantissaBitsWithinErrorBound fmt eb mask

/-- The word for `x` is isolated as it was written. -/
structure WordFramed (x : BitVec fmt.numBits) : Prop where
  /-- A masked word has as many bits as are read for it, and does not stop a second time at
      the length of sign and exponent. -/
  masked : Masked fmt mask x → type + 1 < fmt.expoBits →
    maskMantissa fmt eb mask = 0 ∨
      0 < payloadBits (maskMantissa fmt eb mask) (!decide (MaskedMantissa fmt mask x)) ∧
        (type + 1 + payloadBits (maskMantissa fmt eb mask)
            (!decide (MaskedMantissa fmt mask x)) = fmt.expoBits →
          type = 0 ∧ mantissaBitsWithinErrorBound fmt eb (maskLiteral fmt eb type mask x) = 0)
  /-- Where both stops coincide, the ones of a masked word are read as its exponent. -/
  maskedWide : Masked fmt mask x → type + 1 = fmt.expoBits →
    maskMantissa fmt eb mask = fmt.mantBits
  /-- There the last bit of an exponent is read as a flag. -/
  unmasked : ¬ Masked fmt mask x → type ≠ 0 →
    mantissaBitsWithinErrorBound fmt eb (tostr x) = 0 ∨ type + 1 < fmt.expoBits ∨
      (tostr x).getD fmt.expoBits false = true
  /-- Without a type every word is taken for a masked one. -/
  untyped : ¬ Masked fmt mask x → type = 0 →
    0 < maskMantissa fmt eb mask ∧
      0 < payloadBits (maskMantissa fmt eb mask) ((tostr x).getD 1 false) ∧
        (1 + payloadBits (maskMantissa fmt eb mask) ((tostr x).getD 1 false) = fmt.expoBits ∨
          1 + payloadBits (maskMantissa fmt eb mask) ((tostr x).getD 1 false) =
            fmt.expoBits + mantissaBitsWithinErrorBound fmt eb (tostr x))

set_option synthInstance.maxSize 400 in
instance (x : BitVec fmt.numBits) : Decidable (WordFramed fmt eb type mask x) :=
  decidable_of_iff (_ ∧ _ ∧ _ ∧ _)
    ⟨fun h => ⟨h.1, h.2.1, h.2.2.1, h.2.2.2⟩,
      fun h => ⟨h.masked, h.maskedWide, h.unmasked, h.untyped⟩⟩

end Condition

/-! ## Complete words -/

section Words

variable {fmt : Format} {eb : ErrorBound} {type : Nat} {mask : List Bool}

theorem announced_eq_maskMantissa {cur : List Bool} (h : cur.length ≠ 1 + fmt.expoBits) :
    announced fmt eb mask cur = maskMantissa fmt eb mask := by
  rw [announced, if_neg h]
  rfl

/-- A code has its three bits, but with `type` 1 that is also where a masked word stops. -/
theorem complete_code_iff (a b : Bool) :
    (maskRule fmt eb type mask).Complete [true, a, b] ↔
      (type = 1 → maskMantissa fmt eb mask = 0) := by
  have hE := fmt.expo_wide
  have hstart : control fmt eb type mask [true] = (2, false) := by simp [control, advance]
  -- after the leading one the count is the two other bits of the code
  have hadv : ∀ b, advance fmt eb type mask [true] (control fmt eb type mask [true]) b =
      (2, false) := by
    intro b
    rw [hstart, advance, if_neg (by decide)]
  have hend : control fmt eb type mask [true, a, b] = (0, false) :=
    control_counted hadv (List.cons_ne_nil a [b]) fun j _ hj => by
      rw [List.length_cons, List.length_singleton] at hj
      omega
  -- so no proper prefix ends a word
  have hopen : ∀ p, p <+: [true, a, b] → p ≠ [true, a, b] →
      (maskRule fmt eb type mask).status p = .more := by
    intro p hp hne
    cases p with
    | nil => rfl
    | cons c q =>
        obtain ⟨rfl, hq⟩ := List.cons_prefix_cons.mp hp
        have hlen : q.length < 2 :=
          Nat.lt_of_le_of_ne hq.length_le fun h => hne (by rw [hq.eq_of_length h])
        refine maskStatus_of_count_ne ?_
        by_cases hq0 : q = []
        · rw [hq0, hstart]
          decide
        · have hc : control fmt eb type mask (true :: q) = (2 - (q.length : Int), false) :=
            control_counted hadv hq0 fun j _ hj => by omega
          rw [hc]
          show 2 - (q.length : Int) ≠ 0
          omega
  -- the code itself ends one unless it is as long as the prefix of a masked word
  have hstop : AtStop fmt type [true, a, b] ↔ type = 1 := by
    unfold AtStop
    simp only [List.length_cons, List.length_nil]
    omega
  have hann : announced fmt eb mask [true, a, b] = maskMantissa fmt eb mask :=
    announced_eq_maskMantissa (by simp only [List.length_cons, List.length_nil]; omega)
  have hstatus : (maskRule fmt eb type mask).status [true, a, b] =
      if type = 1 then if maskMantissa fmt eb mask = 0 then .doneAtNext else .more else .done := by
    show maskStatus fmt eb type mask [true, a, b] = _
    rw [maskStatus, if_neg (List.cons_ne_nil _ _), if_neg (by simp [hend]), hann]
    simp only [hstop]
  have hcomplete : (maskRule fmt eb type mask).Complete [true, a, b] ↔
      (maskRule fmt eb type mask).status [true, a, b] ≠ .more :=
    ⟨fun h => h.1, fun h => ⟨h, hopen⟩⟩
  rw [hcomplete, hstatus]
  split
  · split <;> simp_all
  · simp_all

theorem maskPrefix_length (flag : Bool) : (maskPrefix type flag).length = 1 + type + 1 := by
  simp [maskPrefix]
  omega

/-- At the stop of a masked word the flag decides what is read. -/
theorem mantissaOffset_maskPrefix (flag : Bool) (m : Nat) :
    mantissaOffset type (maskPrefix type flag) m = payloadBits m flag := by
  have hlast : (maskPrefix type flag).getLastD true = flag := by
    rw [maskPrefix, ← List.cons_append, List.getLastD_concat]
  rw [mantissaOffset, payloadBits, hlast, maskPrefix_length]
  cases flag <;> simp

/-- A masked word is complete if it is so from its stop on. -/
theorem complete_maskPrefix (flag : Bool) (v : List Bool) :
    control fmt eb type mask (maskPrefix type flag) = (0, false) ∧
      ((maskRule fmt eb type mask).Complete (maskPrefix type flag ++ v) ↔
        (maskRule fmt eb type mask).CompleteFrom (maskPrefix type flag) v) :=
  have hones : testedBits fmt type (List.replicate type true) = 1 := by
    rw [testedBits, if_pos (by simp)]
  complete_tested List.length_replicate hones.symm (List.cons_ne_nil _ _)

/-- A masked word whose stop is before that of a literal. -/
theorem complete_masked_iff (htype : type + 1 < fmt.expoBits) (flag : Bool) (v : List Bool) :
    (maskRule fmt eb type mask).Complete (maskPrefix type flag ++ v) ↔
      if maskMantissa fmt eb mask = 0 then v = []
      else 0 < payloadBits (maskMantissa fmt eb mask) flag ∧
        (v.length : Int) = payloadBits (maskMantissa fmt eb mask) flag +
          if type + 1 + payloadBits (maskMantissa fmt eb mask) flag = fmt.expoBits then
            (mantissaBitsWithinErrorBound fmt eb (maskPrefix type flag ++ v) : Int)
          else 0 := by
  obtain ⟨hc, hiff⟩ := @complete_maskPrefix fmt eb type mask flag v
  have hstop := @completeFrom_maskedStop fmt eb type mask _ v htype (maskPrefix_length flag) hc
  rw [← maskMantissa, mantissaOffset_maskPrefix] at hstop
  have hsum : (1 : Int) + type + 1 + payloadBits (maskMantissa fmt eb mask) flag =
      1 + fmt.expoBits ↔
        type + 1 + payloadBits (maskMantissa fmt eb mask) flag = fmt.expoBits := by omega
  simp only [hsum] at hstop
  exact hiff.trans hstop

/-- Where both stops coincide, the ones and the flag of a masked word make an exponent for
    which all mantissa bits are asked for. -/
theorem mantissaBits_of_ones (hwide : fmt.mantBits ≤ fmt.bias) (htype : type + 1 = fmt.expoBits)
    (flag : Bool) :
    mantissaBitsWithinErrorBound fmt eb (maskPrefix type flag) = fmt.mantBits := by
  have hE := fmt.expo_wide
  have hlen : (List.replicate type true ++ [flag]).length = fmt.expoBits := by
    simp [htype]
  have hfield : fmt.expoField (maskPrefix type flag) =
      natOfBits (List.replicate type true ++ [flag]) := by
    rw [Format.expoField, maskPrefix, List.drop_one, List.tail_cons, ← hlen, List.take_length]
  -- all bits of the exponent but the last one are ones, so it is the largest but one at least
  have hge := @le_natOfBits_of_ones (List.replicate type true ++ [flag]) type (by simp) (by simp)
  rw [hlen, ← hfield, show fmt.expoBits - type = 1 by omega, pow_one] at hge
  -- that is above every number whose mantissa is cut
  have hbias : 2 ^ fmt.expoBits - 2 = 2 * fmt.bias := by
    obtain ⟨k, hk⟩ : ∃ k, fmt.expoBits = k + 1 := ⟨fmt.expoBits - 1, by omega⟩
    rw [Format.bias, hk, Nat.add_sub_cancel, pow_succ]
    omega
  have hexpo := @expoValue_eq fmt (maskPrefix type flag) (by
    rw [maskPrefix, List.length_cons, hlen]
    omega)
  unfold mantissaBitsWithinErrorBound
  simp only
  split
  · rfl
  · next hnot =>
      have heq : (eb.binary : Int) + expoValue fmt (maskPrefix type flag) = fmt.mantBits := by
        omega
      rw [heq]
      simp

/-- A masked word whose stop is that of a literal. -/
theorem complete_maskedWide_iff (hwide : fmt.mantBits ≤ fmt.bias)
    (htype : type + 1 = fmt.expoBits) (flag : Bool) (v : List Bool) :
    (maskRule fmt eb type mask).Complete (maskPrefix type flag ++ v) ↔
      payloadBits fmt.mantBits flag = v.length := by
  have hM := fmt.mant_wide
  obtain ⟨hc, hiff⟩ := @complete_maskPrefix fmt eb type mask flag v
  have hlen := @maskPrefix_length type flag
  have hstop := @completeFrom_literalStop fmt eb type mask _ v htype.le (by omega) hc
  rw [mantissaBits_of_ones hwide htype, mantissaOffset_maskPrefix, if_neg (by omega)] at hstop
  have hpos : 0 < payloadBits fmt.mantBits flag := by
    rw [payloadBits]
    split <;> omega
  rw [hiff, hstop, and_iff_right hpos]

/-- A literal that the mask test tells from a masked word. -/
theorem complete_literal_iff {h u v : List Bool} (hh : h.length = type) (hall : h.all id = false)
    (htype : type + 1 ≤ fmt.expoBits) (hu : (h ++ u).length = fmt.expoBits)
    (hv : v.length = mantissaBitsWithinErrorBound fmt eb (false :: (h ++ u))) :
    (maskRule fmt eb type mask).Complete (false :: (h ++ u) ++ v) ↔
      v.length = 0 ∨ type + 1 < fmt.expoBits ∨ (h ++ u).getLastD false = true := by
  have hu0 : u ≠ [] := by
    rintro rfl
    rw [List.append_nil] at hu
    omega
  -- a zero among the first bits: the mask test sends the word on to the end of its exponent
  have htested : testedBits fmt type h = fmt.expoBits - type := by
    rw [testedBits, hall, if_neg Bool.false_ne_true]
  obtain ⟨hc, hiff⟩ := @complete_tested fmt eb type mask v h u hh
    (by rw [List.length_append] at hu; omega) hu0
  have hstop := @completeFrom_literalStop fmt eb type mask _ v htype
    (by rw [List.length_cons, hu]; omega) hc
  -- the mask test has moved the stop only if it comes where the exponent ends
  have hoff : mantissaOffset type (false :: (h ++ u)) v.length =
      if type + 1 = fmt.expoBits ∧ (h ++ u).getLastD false = false then (v.length : Int) - 8
      else v.length := by
    rw [mantissaOffset, List.length_cons, hu, List.getLastD_cons]
    congr 1
    rw [show fmt.expoBits + 1 = 1 + type + 1 ↔ type + 1 = fmt.expoBits by omega]
  rw [hiff, hstop, ← hv, hoff]
  by_cases h0 : v.length = 0
  · simp [List.length_eq_zero_iff.mp h0]
  · rw [if_neg h0]
    cases hlast : (h ++ u).getLastD false <;> simp [h0] <;> omega

/-- An exponent that starts with a one asks for at least one mantissa bit. -/
theorem mantissaBits_pos_of_one {b : Bool} {l : List Bool} (hlen : fmt.expoBits ≤ l.length + 1) :
    0 < mantissaBitsWithinErrorBound fmt eb (b :: true :: l) := by
  have hE := fmt.expo_wide
  have hM := fmt.mant_wide
  have hge := @le_natOfBits_of_ones ((true :: l).take fmt.expoBits) 1
    (by rw [List.length_take, List.length_cons]; omega)
    (by rw [List.take_take, Nat.min_eq_left (by omega)]; rfl)
  rw [List.length_take, List.length_cons, Nat.min_eq_left hlen] at hge
  have hexpo := @expoValue_eq fmt (b :: true :: l) (by simp only [List.length_cons]; omega)
  have hfield : fmt.expoField (b :: true :: l) = natOfBits ((true :: l).take fmt.expoBits) := by
    rw [Format.expoField, List.drop_one, List.tail_cons]
  have hpow : 2 ^ fmt.expoBits - 2 ^ (fmt.expoBits - 1) = fmt.bias + 1 := by
    obtain ⟨k, hk⟩ : ∃ k, fmt.expoBits = k + 1 := ⟨fmt.expoBits - 1, by omega⟩
    have hpos : 0 < 2 ^ k := Nat.two_pow_pos k
    rw [Format.bias, hk, Nat.add_sub_cancel, pow_succ]
    omega
  unfold mantissaBitsWithinErrorBound
  simp only
  split_ifs <;> omega

end Words

/-! ## The word for an element -/

section Elements

variable {fmt : Format} {eb : ErrorBound} {type : Nat} {mask : List Bool} {x : BitVec fmt.numBits}

theorem Masked.maskMantissa_eq (hm : Masked fmt mask x) :
    maskMantissa fmt eb mask = mantissaBitsWithinErrorBound fmt eb (tostr x) := by
  have hm' : (tostr x).take (1 + fmt.expoBits) = mask.take (1 + fmt.expoBits) := hm
  rw [maskMantissa, ← mantissaBits_take mask _ (Nat.le_refl _), ← hm',
    mantissaBits_take _ _ (Nat.le_refl _)]

/-- What stands behind the prefix of a masked word. -/
theorem Masked.maskLiteral_eq (hm : Masked fmt mask x) :
    ∃ v, maskLiteral fmt eb type mask x =
        maskPrefix type (!decide (MaskedMantissa fmt mask x)) ++ v ∧
      v.length = if MaskedMantissa fmt mask x then maskMantissa fmt eb mask - 8
        else maskMantissa fmt eb mask := by
  have hlit := literal_length eb x
  rw [hm.maskMantissa_eq]
  by_cases hn : MaskedMantissa fmt mask x
  · refine ⟨(literal fmt eb x).drop (1 + fmt.expoBits + 8), ?_, ?_⟩
    · simp [maskLiteral, hm, hn]
    · rw [if_pos hn, List.length_drop]
      omega
  · refine ⟨(literal fmt eb x).drop (1 + fmt.expoBits), ?_, ?_⟩
    · simp [maskLiteral, hm, hn]
    · rw [if_neg hn, List.length_drop]
      omega

theorem payloadBits_maskedMantissa (m : Nat) :
    payloadBits m (!decide (MaskedMantissa fmt mask x)) =
      if MaskedMantissa fmt mask x then (m : Int) - 8 else m := by
  rw [payloadBits]
  by_cases hn : MaskedMantissa fmt mask x <;> simp [hn]

theorem wordFramed_masked_iff (hm : Masked fmt mask x) (hlt : type + 1 < fmt.expoBits) :
    WordFramed fmt eb type mask x ↔
      maskMantissa fmt eb mask = 0 ∨
        0 < payloadBits (maskMantissa fmt eb mask) (!decide (MaskedMantissa fmt mask x)) ∧
          (type + 1 + payloadBits (maskMantissa fmt eb mask)
              (!decide (MaskedMantissa fmt mask x)) = fmt.expoBits →
            type = 0 ∧
              mantissaBitsWithinErrorBound fmt eb (maskLiteral fmt eb type mask x) = 0) :=
  ⟨fun h => h.masked hm hlt, fun h => ⟨fun _ _ => h, fun _ heq => by omega,
    fun hn => absurd hm hn, fun hn => absurd hm hn⟩⟩

theorem wordFramed_maskedWide_iff (hm : Masked fmt mask x) (hwd : type + 1 = fmt.expoBits) :
    WordFramed fmt eb type mask x ↔ maskMantissa fmt eb mask = fmt.mantBits :=
  ⟨fun h => h.maskedWide hm hwd, fun h => ⟨fun _ hl => by omega, fun _ _ => h,
    fun hn => absurd hm hn, fun hn => absurd hm hn⟩⟩

/-- The ones of the prefix, read as an exponent, ask for mantissa bits. -/
theorem mantissaBits_maskPrefix_pos (h0 : type ≠ 0) {b : Bool} {v : List Bool}
    (hlen : fmt.expoBits ≤ type + 1 + v.length) :
    0 < mantissaBitsWithinErrorBound fmt eb (maskPrefix type b ++ v) := by
  obtain ⟨k, rfl⟩ : ∃ k, type = k + 1 := ⟨type - 1, by omega⟩
  have hlist : maskPrefix (k + 1) b ++ v =
      false :: true :: (List.replicate k true ++ b :: v) := by
    simp [maskPrefix, List.replicate_succ]
  rw [hlist]
  refine mantissaBits_pos_of_one ?_
  rw [List.length_append, List.length_replicate, List.length_cons]
  omega

/-- A masked word whose prefix ends before the exponent would. -/
theorem complete_of_masked_narrow_iff (hlt : type + 1 < fmt.expoBits) (hm : Masked fmt mask x) :
    (maskRule fmt eb type mask).Complete (maskLiteral fmt eb type mask x) ↔
      WordFramed fmt eb type mask x := by
  obtain ⟨v, hword, hv⟩ := @Masked.maskLiteral_eq fmt eb type mask x hm
  rw [wordFramed_masked_iff hm hlt, hword, complete_masked_iff hlt]
  by_cases hz : maskMantissa fmt eb mask = 0
  · have hnil : v = [] := by
      rw [← List.length_eq_zero_iff, hv, hz]
      split <;> rfl
    simp [hz, hnil]
  rw [if_neg hz, or_iff_right hz]
  refine and_congr_right fun hpos => ?_
  have hlen : (v.length : Int) =
      payloadBits (maskMantissa fmt eb mask) (!decide (MaskedMantissa fmt mask x)) := by
    rw [payloadBits_maskedMantissa] at hpos ⊢
    split at hpos <;> rename_i hn
    · rw [if_pos hn] at hv ⊢
      omega
    · rw [if_neg hn] at hv ⊢
      omega
  by_cases hstop : type + 1 + payloadBits (maskMantissa fmt eb mask)
      (!decide (MaskedMantissa fmt mask x)) = fmt.expoBits
  · rw [if_pos hstop, forall_prop_of_true hstop]
    by_cases h0 : type = 0
    · rw [and_iff_right h0]
      omega
    · -- the first of the ones is the top bit of the exponent that is read
      have hcount := @mantissaBits_maskPrefix_pos fmt eb type h0
        (!decide (MaskedMantissa fmt mask x)) v (by omega)
      refine ⟨fun heq => ?_, fun h => absurd h.1 h0⟩
      omega
  · rw [if_neg hstop, forall_prop_of_false hstop, iff_true]
    omega

/-- A word written against the mask. -/
theorem complete_of_masked_iff (hwide : fmt.mantBits ≤ fmt.bias) (htype : type ≤ fmt.expoBits - 1)
    (hm : Masked fmt mask x) :
    (maskRule fmt eb type mask).Complete (maskLiteral fmt eb type mask x) ↔
      WordFramed fmt eb type mask x := by
  have hE := fmt.expo_wide
  have hM := fmt.mant_wide
  have hle := mantissaBits_le fmt eb mask
  rw [← maskMantissa] at hle
  by_cases hlt : type + 1 < fmt.expoBits
  · exact complete_of_masked_narrow_iff hlt hm
  · have hwd : type + 1 = fmt.expoBits := by omega
    obtain ⟨v, hword, hv⟩ := @Masked.maskLiteral_eq fmt eb type mask x hm
    rw [wordFramed_maskedWide_iff hm hwd, hword, complete_maskedWide_iff hwide hwd,
      payloadBits_maskedMantissa, hv]
    by_cases hn : MaskedMantissa fmt mask x
    · rw [if_pos hn, if_pos hn]
      omega
    · rw [if_neg hn, if_neg hn]
      omega

/-- A literal, told from a masked word by `type`. -/
theorem complete_of_unmasked_iff (hx : x.msb = false) (htype : type ≤ fmt.expoBits - 1)
    (h0 : type ≠ 0)
    (hones : fmt.expoField (bitsOf x) < 2 ^ fmt.expoBits - 2 ^ (fmt.expoBits - type))
    (hm : ¬ Masked fmt mask x) :
    (maskRule fmt eb type mask).Complete (maskLiteral fmt eb type mask x) ↔
      WordFramed fmt eb type mask x := by
  have hE := fmt.expo_wide
  have hW := fmt.numBits_eq
  have hlit := literal_length eb x
  have hword : maskLiteral fmt eb type mask x = literal fmt eb x := by simp [maskLiteral, hm]
  -- sign, the characters of the mask test, the other exponent bits, the mantissa
  obtain ⟨l, hl⟩ := tostr_eq_cons (by omega) x
  rw [hx] at hl
  have hllen : l.length + 1 = fmt.numBits := by
    rw [← List.length_cons, ← hl, tostr_length]
  have hall := not_all_ones (by omega) hones (Nat.le_refl (1 + fmt.expoBits))
  rw [hl, Nat.add_comm 1, List.take_succ_cons, List.drop_one, List.tail_cons, List.take_take,
    Nat.min_eq_left (by omega)] at hall
  have hsplit : l.take type ++ (l.drop type).take (fmt.expoBits - type) = l.take fmt.expoBits := by
    rw [← List.take_add]
    congr 1
    omega
  have hlast : (l.take fmt.expoBits).getLastD false = (tostr x).getD fmt.expoBits false := by
    obtain ⟨k, hk⟩ : ∃ k, fmt.expoBits = k + 1 := ⟨fmt.expoBits - 1, by omega⟩
    rw [hl, hk, List.getD_cons_succ, List.take_succ_eq_append_getElem (show k < l.length by omega),
      List.getLastD_concat, List.getD_eq_getElem?_getD,
      List.getElem?_eq_getElem (show k < l.length by omega), Option.getD_some]
  have hwordSplit : literal fmt eb x =
      false :: l.take fmt.expoBits ++ (literal fmt eb x).drop (1 + fmt.expoBits) := by
    have htake := @take_literal fmt eb x (1 + fmt.expoBits) (by omega)
    rw [hl, Nat.add_comm 1, List.take_succ_cons] at htake
    rw [← htake, Nat.add_comm 1, List.take_append_drop]
  have hmant : mantissaBitsWithinErrorBound fmt eb (false :: l.take fmt.expoBits) =
      mantissaBitsWithinErrorBound fmt eb (tostr x) := by
    rw [← mantissaBits_take (tostr x) (1 + fmt.expoBits) (Nat.le_refl _), hl, Nat.add_comm 1,
      List.take_succ_cons]
  have hiff : WordFramed fmt eb type mask x ↔
      mantissaBitsWithinErrorBound fmt eb (tostr x) = 0 ∨ type + 1 < fmt.expoBits ∨
        (tostr x).getD fmt.expoBits false = true :=
    ⟨fun h => h.unmasked hm h0, fun h => ⟨fun h' => absurd h' hm, fun h' => absurd h' hm,
      fun _ _ => h, fun _ h' => absurd h' h0⟩⟩
  rw [hiff, hword, hwordSplit, ← hsplit, complete_literal_iff (by rw [List.length_take]; omega) hall
    (by omega), hsplit, hlast]
  · rw [List.length_drop, hlit, Nat.add_sub_cancel_left]
  · rw [hsplit, List.length_take]
    omega
  · rw [hsplit, hmant, List.length_drop, hlit, Nat.add_sub_cancel_left]

/-- Without a type every literal is taken for a masked word. -/
theorem complete_of_untyped_iff (hx : x.msb = false) (hm : ¬ Masked fmt mask x) :
    (maskRule fmt eb 0 mask).Complete (maskLiteral fmt eb 0 mask x) ↔
      WordFramed fmt eb 0 mask x := by
  have hE := fmt.expo_wide
  have hW := fmt.numBits_eq
  have hlit := literal_length eb x
  have hword : maskLiteral fmt eb 0 mask x = literal fmt eb x := by simp [maskLiteral, hm]
  -- sign, the character that passes for the flag, the rest
  obtain ⟨flag, v, hl, hflag⟩ : ∃ flag v, literal fmt eb x = maskPrefix 0 flag ++ v ∧
      (tostr x).getD 1 false = flag := by
    have htake := @take_literal fmt eb x 2 (by omega)
    obtain ⟨l, hb⟩ := literal_eq_cons eb x
    have hpos : 0 < l.length := by
      rw [hb, List.length_cons] at hlit
      omega
    obtain ⟨flag, v, rfl⟩ := List.exists_cons_of_length_pos hpos
    rw [hx] at hb
    refine ⟨flag, v, hb, ?_⟩
    have hget : ((tostr x).take 2).getD 1 false = flag := by
      rw [← htake, hb]
      rfl
    rwa [List.getD_eq_getElem?_getD, List.getElem?_take_of_lt (by decide),
      ← List.getD_eq_getElem?_getD] at hget
  have hv : v.length + 1 = fmt.expoBits + mantissaBitsWithinErrorBound fmt eb (tostr x) := by
    rw [hl, List.length_append, maskPrefix_length] at hlit
    omega
  have hiff : WordFramed fmt eb 0 mask x ↔
      0 < maskMantissa fmt eb mask ∧
      0 < payloadBits (maskMantissa fmt eb mask) flag ∧
        (1 + payloadBits (maskMantissa fmt eb mask) flag = fmt.expoBits ∨
          1 + payloadBits (maskMantissa fmt eb mask) flag =
            fmt.expoBits + mantissaBitsWithinErrorBound fmt eb (tostr x)) := by
    rw [← hflag]
    exact ⟨fun h => h.untyped hm rfl, fun h => ⟨fun h' => absurd h' hm, fun h' => absurd h' hm,
      fun _ h' => absurd rfl h', fun _ _ => h⟩⟩
  rw [hiff, hword, hl, complete_masked_iff (by omega), ← hl, mantissaBits_literal]
  by_cases hz : maskMantissa fmt eb mask = 0
  · have hne : v ≠ [] := by
      rintro rfl
      rw [List.length_nil] at hv
      omega
    rw [if_pos hz]
    exact ⟨fun h => absurd h hne, fun h => by omega⟩
  · rw [if_neg hz, and_iff_right (Nat.pos_of_ne_zero hz)]
    refine and_congr_right fun _ => ?_
    by_cases hstop : 1 + payloadBits (maskMantissa fmt eb mask) flag = fmt.expoBits
    · rw [if_pos (by push_cast; omega)]
      omega
    · rw [if_neg (by push_cast; omega)]
      omega

end Elements

/-! ## Padding -/

section Padding

variable {fmt : Format} {eb : ErrorBound} {type : Nat} {mask : List Bool}

/-- A complete word waits for its next bit if its length is that of a stop. -/
theorem mask_waits_iff {w : List Bool} (h : (maskRule fmt eb type mask).Complete w) :
    (maskRule fmt eb type mask).status w = .doneAtNext ↔ AtStop fmt type w := by
  have hne : w ≠ [] := h.ne_nil
  have hst : maskStatus fmt eb type mask w ≠ .more := h.1
  show maskStatus fmt eb type mask w = .doneAtNext ↔ _
  rw [maskStatus, if_neg hne] at hst ⊢
  by_cases hopen : (control fmt eb type mask w).1 ≠ 0 ∨ (control fmt eb type mask w).2 = true
  · rw [if_pos hopen] at hst
    exact absurd rfl hst
  · rw [if_neg hopen] at hst ⊢
    by_cases hstop : AtStop fmt type w
    · rw [if_pos hstop] at hst ⊢
      by_cases hz : announced fmt eb mask w = 0
      · simp [hz, hstop]
      · rw [if_neg hz] at hst
        exact absurd rfl hst
    · rw [if_neg hstop]
      simp [hstop]

/-- With a type, zeros are no word up to the length of sign and exponent. -/
theorem not_complete_zeros (htype : type ≠ 0) {k : Nat} (hk : k ≤ fmt.expoBits) :
    ¬ (maskRule fmt eb type mask).Complete (List.replicate k false) := by
  intro hc
  cases k with
  | zero => exact hc.ne_nil rfl
  | succ j =>
      refine hc.1 ?_
      rw [List.replicate_succ]
      -- up to `type` zeros the mask test is still to come, behind them the rest of the exponent is
      by_cases hj : j ≤ type
      · refine maskStatus_of_pending ?_
        rw [control_header (by rwa [List.length_replicate])]
      · have hsplit : List.replicate j false =
            List.replicate type false ++ List.replicate (j - type) false := by
          rw [← List.replicate_add]
          congr 1
          omega
        have htested : testedBits fmt type (List.replicate type false) = fmt.expoBits - type := by
          rw [testedBits, if_neg]
          obtain ⟨t, rfl⟩ : ∃ t, type = t + 1 := ⟨type - 1, by omega⟩
          simp [List.replicate_succ]
        refine maskStatus_of_count_ne ?_
        have hne : List.replicate (j - type) false ≠ [] := by
          rw [ne_eq, List.replicate_eq_nil_iff]
          omega
        rw [hsplit, control_tested List.length_replicate hne
          (by rw [htested, List.length_replicate]; omega), htested, List.length_replicate]
        show (fmt.expoBits : Int) - type - (j - type : ℕ) ≠ 0
        omega

/-- Without one, two zeros are a masked word up to its flag. -/
theorem complete_zeros_iff {k : Nat} (hk : k < 8) :
    (maskRule fmt eb 0 mask).Complete (List.replicate k false) ↔
      (maskMantissa fmt eb mask = 0 ∧ k = 2) ∨
        (8 < maskMantissa fmt eb mask ∧ k = maskMantissa fmt eb mask - 6) := by
  have hE := fmt.expo_wide
  -- without a type two zeros are the prefix of a masked word with flag 0
  match k with
  | 0 =>
      refine ⟨fun hc => absurd rfl hc.ne_nil, fun h => ?_⟩
      omega
  | 1 =>
      refine ⟨fun hc => absurd ?_ hc.1, fun h => ?_⟩
      · exact maskStatus_of_pending (by
          rw [List.replicate_one, control_header (Nat.zero_le _)])
      · omega
  | j + 2 =>
      have hsplit :
          List.replicate (j + 2) false = maskPrefix 0 false ++ List.replicate j false := rfl
      rw [hsplit, complete_masked_iff (by omega), List.length_replicate]
      simp only [payloadBits, Bool.false_eq_true, if_false, List.replicate_eq_nil_iff]
      by_cases hz : maskMantissa fmt eb mask = 0
      · rw [if_pos hz]
        omega
      · rw [if_neg hz]
        split <;> omega

/-- Padding zeros are too few to end a word, unless `type` is 0. -/
theorem mask_frames_zeros_iff {n : Nat} (hn : n < 8) :
    (maskRule fmt eb type mask).frames (List.replicate n false) = [] ↔
      (type = 0 → (maskMantissa fmt eb mask = 0 → n < 3) ∧
        (8 < maskMantissa fmt eb mask → n < maskMantissa fmt eb mask - 6)) := by
  have hE := fmt.expo_wide
  -- the words that the zeros could start with
  have hwords : (maskRule fmt eb type mask).frames (List.replicate n false) = [] ↔
      ∀ k ≤ n, (maskRule fmt eb type mask).Complete (List.replicate k false) →
        AtStop fmt type (List.replicate k false) ∧ k = n := by
    rw [Rule.frames_eq_nil_iff]
    constructor
    · intro h k hk hc
      have hsplit : List.replicate n false =
          List.replicate k false ++ List.replicate (n - k) false := by
        rw [← List.replicate_add]
        congr 1
        omega
      obtain ⟨hst, hnil⟩ := h _ _ hsplit hc
      rw [List.replicate_eq_nil_iff] at hnil
      exact ⟨(mask_waits_iff hc).mp hst, by omega⟩
    · intro h w rest hsplit hc
      obtain ⟨hlen, hw, _⟩ := List.append_eq_replicate_iff.mp hsplit.symm
      rw [hw] at hc ⊢
      obtain ⟨hst, hk⟩ := h w.length (by omega) hc
      exact ⟨(mask_waits_iff hc).mpr hst, List.length_eq_zero_iff.mp (by omega)⟩
  rw [hwords]
  by_cases h0 : type = 0
  · subst h0
    rw [forall_prop_of_true rfl]
    have hstop : ∀ k, k < 8 → (AtStop fmt 0 (List.replicate k false) ↔ k = 2) := by
      intro k hk
      rw [AtStop, List.length_replicate]
      omega
    constructor
    · intro h
      refine ⟨fun hz => ?_, fun hpos => ?_⟩
      · by_contra hle
        have := (h 2 (by omega) ((complete_zeros_iff (by omega)).mpr (.inl ⟨hz, rfl⟩))).2
        omega
      · by_contra hle
        obtain ⟨hat, _⟩ := h _ (by omega) ((complete_zeros_iff (by omega)).mpr (.inr ⟨hpos, rfl⟩))
        rw [hstop _ (by omega)] at hat
        omega
    · rintro ⟨hzero, hpos⟩ k hk hc
      rw [hstop k (by omega)]
      rcases (complete_zeros_iff (by omega)).mp hc with ⟨hz, rfl⟩ | ⟨h8, rfl⟩
      · have := hzero hz
        exact ⟨rfl, by omega⟩
      · have := hpos h8
        omega
  · refine ⟨fun _ h => absurd h h0, fun _ k hk hc => ?_⟩
    exact absurd hc (not_complete_zeros h0 (by omega))
end Padding

/-! ## The words of a list -/

section Lists

variable {fmt : Format} {V : Type} (A : FloatArith fmt V)

/-- The elements of a list, each with the mark whether it is written as a code. -/
def marked (h : History V) : List (BitVec fmt.numBits) → List (BitVec fmt.numBits × Bool)
  | [] => []
  | x :: xs => (x, coded A h x) :: marked (h.push A (A.ofBits x)) xs

/-- The bits of the word for an element. -/
def wordBits (fmt : Format) (eb : ErrorBound) (type : Nat) (mask : List Bool)
    (p : BitVec fmt.numBits × Bool) : Nat :=
  if p.2 then 3
  else if Masked fmt mask p.1 then
    1 + type + 1 + (mantissaBitsWithinErrorBound fmt eb (tostr p.1) -
      if MaskedMantissa fmt mask p.1 then 8 else 0)
  else 1 + fmt.expoBits + mantissaBitsWithinErrorBound fmt eb (tostr p.1)

/-- The bits of the words of a list. -/
def wordLengths (type : Nat) (mask : List Bool) (xs : List (BitVec fmt.numBits)) : List Nat :=
  (marked A (History.init A) xs).map (wordBits fmt A.errorBound type mask)

/-- The last word has the length of a stop and the stream ends at a byte boundary. -/
def EndsAtStop (fmt : Format) (type : Nat) (lengths : List Nat) : Prop :=
  (∃ n ∈ lengths.getLast?, n = 1 + fmt.expoBits ∨ n = 1 + type + 1) ∧ lengths.sum % 8 = 0

instance (type : Nat) (lengths : List Nat) : Decidable (EndsAtStop fmt type lengths) :=
  inferInstanceAs (Decidable (_ ∧ _))

/-- Every word of the list is isolated as it was written, the last one too, and no word is
    found in the padding. -/
structure MaskFramed (type : Nat) (mask : List Bool) (xs : List (BitVec fmt.numBits)) : Prop where
  /-- With `type` 1 a code is only handed over if the mask announces no mantissa. -/
  codes : ∀ p ∈ marked A (History.init A) xs, p.2 = true →
    type = 1 → maskMantissa fmt A.errorBound mask = 0
  literals : ∀ p ∈ marked A (History.init A) xs, p.2 = false →
    WordFramed fmt A.errorBound type mask p.1
  last : ¬ EndsAtStop fmt type (wordLengths A type mask xs)
  padding : type = 0 →
    (maskMantissa fmt A.errorBound mask = 0 →
      padding (wordLengths A type mask xs).sum < 3) ∧
    (8 < maskMantissa fmt A.errorBound mask →
      padding (wordLengths A type mask xs).sum < maskMantissa fmt A.errorBound mask - 6)

/-- The literals of the list are all expanded inside their buffer. -/
def LiteralsFit (type : Nat) (mask : List Bool) (xs : List (BitVec fmt.numBits)) : Prop :=
  ∀ p ∈ marked A (History.init A) xs, p.2 = false → FitsBuffer fmt A.errorBound type mask p.1

-- the elements of the list are looked at, not all numbers
instance (type : Nat) (mask : List Bool) (xs : List (BitVec fmt.numBits)) :
    Decidable (MaskFramed A type mask xs) :=
  letI : Decidable (∀ p ∈ marked A (History.init A) xs, p.2 = true →
    type = 1 → maskMantissa fmt A.errorBound mask = 0) := List.decidableBAll _ _
  letI : Decidable (∀ p ∈ marked A (History.init A) xs, p.2 = false →
    WordFramed fmt A.errorBound type mask p.1) := List.decidableBAll _ _
  decidable_of_iff (_ ∧ _ ∧ _ ∧ _)
    ⟨fun h => ⟨h.1, h.2.1, h.2.2.1, h.2.2.2⟩, fun h => ⟨h.codes, h.literals, h.last, h.padding⟩⟩

variable {A}

/-- A coded element has a word of three bits, another one its literal. -/
theorem codeWord_coded (lit : BitVec fmt.numBits → List Bool) (h : History V)
    (x : BitVec fmt.numBits) :
    (coded A h x = true ∧ ∃ a b, codeWord A lit h x = [true, a, b]) ∨
      (coded A h x = false ∧ codeWord A lit h x = lit x ∧
        A.ltBound (A.fabs (A.ofBits x)) = false) := by
  unfold codeWord coded
  cases hs : A.ltBound (A.fabs (A.ofBits x)) <;> cases hu : h.anyUnset A
  · cases hb : A.leBound (h.select A (A.ofBits x)).2
    · simp [hs, hb]
    · refine .inl ⟨rfl, ?_⟩
      cases ht : (h.select A (A.ofBits x)).1 <;> simp [hs, hb, ht, CompressType.code]
  · simp [hs]
  · simp [hs, smallCode]
  · simp [hs, smallCode]

/-- Every word of a list is a code or the literal of an element. -/
theorem codeWords_shape {lit : BitVec fmt.numBits → List Bool} {h : History V}
    {xs : List (BitVec fmt.numBits)} {w : List Bool} (hw : w ∈ codeWords A lit h xs) :
    (∃ a b, w = [true, a, b]) ∨ ∃ x ∈ xs, w = lit x := by
  induction xs generalizing h with
  | nil => cases hw
  | cons x xs ih =>
      rcases List.mem_cons.mp hw with rfl | hw
      · rcases codeWord_coded lit h x with ⟨_, a, b, hc⟩ | ⟨_, hc, _⟩
        · exact .inl ⟨a, b, hc⟩
        · exact .inr ⟨x, List.mem_cons_self, hc⟩
      · rcases ih hw with hcode | ⟨y, hy, hc⟩
        · exact .inl hcode
        · exact .inr ⟨y, List.mem_cons_of_mem x hy, hc⟩

/-- The words of a list are all complete if its elements say so one by one. -/
theorem codeWords_complete_iff {type : Nat} {mask : List Bool}
    {xs : List (BitVec fmt.numBits)} (h : History V)
    (hlit : ∀ x ∈ xs, A.ltBound (A.fabs (A.ofBits x)) = false →
      ((maskRule fmt A.errorBound type mask).Complete
          (maskLiteral fmt A.errorBound type mask x) ↔ WordFramed fmt A.errorBound type mask x)) :
    (∀ w ∈ codeWords A (maskLiteral fmt A.errorBound type mask) h xs,
        (maskRule fmt A.errorBound type mask).Complete w) ↔
      (∀ p ∈ marked A h xs, p.2 = true →
        type = 1 → maskMantissa fmt A.errorBound mask = 0) ∧
      (∀ p ∈ marked A h xs, p.2 = false → WordFramed fmt A.errorBound type mask p.1) := by
  -- the history decides which elements get a code, so it is carried along
  induction xs generalizing h with
  | nil => simp [codeWords, marked]
  | cons x xs ih =>
      have hrest := ih (h.push A (A.ofBits x)) fun y hy => hlit y (List.mem_cons_of_mem x hy)
      simp only [codeWords, marked, List.forall_mem_cons]
      rw [hrest]
      rcases codeWord_coded (maskLiteral fmt A.errorBound type mask) h x with
        ⟨hc, a, b, hw⟩ | ⟨hc, hw, hs⟩
      · -- a code
        rw [hw, hc, complete_code_iff]
        simp only [forall_const, Bool.true_eq_false, false_implies, true_and]
        exact and_assoc.symm
      · -- a word for `x` itself
        rw [hw, hc, hlit x List.mem_cons_self hs]
        simp only [Bool.false_eq_true, false_implies, true_and, forall_const]
        exact and_left_comm

theorem maskLiteral_length (eb : ErrorBound) (type : Nat) (mask : List Bool)
    (x : BitVec fmt.numBits) :
    (maskLiteral fmt eb type mask x).length = wordBits fmt eb type mask (x, false) := by
  have hlit := literal_length eb x
  rw [wordBits, if_neg Bool.false_ne_true]
  by_cases hm : Masked fmt mask x
  · obtain ⟨v, hword, hv⟩ := @Masked.maskLiteral_eq fmt eb type mask x hm
    rw [hword, List.length_append, maskPrefix_length, hv, hm.maskMantissa_eq, if_pos hm]
    by_cases hn : MaskedMantissa fmt mask x
    · rw [if_pos hn, if_pos hn]
    · rw [if_neg hn, if_neg hn]
      rfl
  · rw [maskLiteral, if_neg hm, if_neg hm, hlit]

theorem codeWords_lengths (type : Nat) (mask : List Bool) (h : History V)
    (xs : List (BitVec fmt.numBits)) :
    (codeWords A (maskLiteral fmt A.errorBound type mask) h xs).map List.length =
      (marked A h xs).map (wordBits fmt A.errorBound type mask) := by
  induction xs generalizing h with
  | nil => rfl
  | cons x xs ih =>
      rw [codeWords, marked, List.map_cons, List.map_cons, ih, codeWord_length,
        maskLiteral_length]
      congr 1

/-- The reader recovers the words of a list exactly if the list is framed. -/
theorem frames_mask_iff {type : Nat} {mask : List Bool} {xs : List (BitVec fmt.numBits)}
    (hlit : ∀ x ∈ xs, A.ltBound (A.fabs (A.ofBits x)) = false →
      ((maskRule fmt A.errorBound type mask).Complete
          (maskLiteral fmt A.errorBound type mask x) ↔ WordFramed fmt A.errorBound type mask x)) :
    (maskRule fmt A.errorBound type mask).frames
        (readBits (compressWith A (maskLiteral fmt A.errorBound type mask) xs).dataBits) =
      codeWords A (maskLiteral fmt A.errorBound type mask) (History.init A) xs ↔
    MaskFramed A type mask xs := by
  have hall := codeWords_complete_iff (History.init A) hlit
  have hlens : wordLengths A type mask xs = _ :=
    (codeWords_lengths type mask (History.init A) xs).symm
  have hframed : MaskFramed A type mask xs ↔ _ :=
    ⟨fun h => And.intro (And.intro h.codes h.literals) (And.intro h.last h.padding),
      fun h => ⟨h.1.1, h.1.2, h.2.1, h.2.2⟩⟩
  -- the words of the list followed by the padding zeros of the last byte
  rw [(compressWith_packed A _ xs).bits_eq, Rule.frames_flatten_iff, hall, hframed]
  refine and_congr_right fun hcl => ?_
  have hws := hall.mpr hcl
  rw [hlens, ← List.length_flatten]
  generalize codeWords A (maskLiteral fmt A.errorBound type mask) (History.init A) xs = ws at hws
  have hpad : List.replicate (padding ws.flatten.length) false ≠ [] ↔
      ws.flatten.length % 8 ≠ 0 := by
    rw [ne_eq, List.replicate_eq_nil_iff]
    simp only [padding]
    omega
  -- only a word that waits at a stop can take up padding
  have hends : EndsAtStop fmt type (ws.map List.length) ↔
      (∃ w ∈ ws.getLast?, AtStop fmt type w) ∧ ws.flatten.length % 8 = 0 := by
    rw [EndsAtStop, List.getLast?_map, ← List.length_flatten]
    refine and_congr_left fun _ => ?_
    cases ws.getLast? <;> simp [AtStop]
  rw [mask_frames_zeros_iff (by simp only [padding]; omega), hpad, hends]
  refine and_congr_left fun _ => ?_
  constructor
  · rintro hlast ⟨⟨w, hw, hat⟩, hmod⟩
    exact hlast w hw ((mask_waits_iff (hws w (List.mem_of_getLast? hw))).mpr hat) hmod
  · intro hnot w hw hst hmod
    exact hnot ⟨⟨w, hw, (mask_waits_iff (hws w (List.mem_of_getLast? hw))).mp hst⟩, hmod⟩

end Lists

/-! ## Delivery -/

section Delivery

variable {fmt : Format} {V : Type} {A : FloatArith fmt V}

/-- The code words that the compressor of the bitmask codec writes for a list. -/
def maskWords (A : FloatArith fmt V) (xs : List (BitVec fmt.numBits)) : List (List Bool) :=
  codeWords A
    (maskLiteral fmt A.errorBound (medDataset fmt xs).2 (maskOf fmt (medDataset fmt xs).1))
    (History.init A) xs

/-- Run on what the compressor wrote, the decompressor hands over exactly the code words,
    whatever the function returns that it hands them to. -/
def MaskHandsOver (A : FloatArith fmt V) (xs : List (BitVec fmt.numBits)) : Prop :=
  ∀ (H W : Type) (U : Unpacker H W) (h : H), (∀ bits h, ∃ v, U.decompress bits h = .ok v) →
    Delivers
      (decompressMaskWith fmt A.errorBound (medDataset fmt xs).2 (maskOf fmt (medDataset fmt xs).1)
        U xs.length h
        (compressWith A (maskLiteral fmt A.errorBound (medDataset fmt xs).2
          (maskOf fmt (medDataset fmt xs).1)) xs).dataBits)
      xs.length (maskWords A xs)

/-- The condition for a list with the type and the mask of its own mean. -/
def SelfFramed (A : FloatArith fmt V) (xs : List (BitVec fmt.numBits)) : Prop :=
  MaskFramed A (medDataset fmt xs).2 (maskOf fmt (medDataset fmt xs).1) xs

/-- The words recovered are those that were written exactly if the list is framed. -/
theorem frames_maskWords_iff (hwide : fmt.mantBits ≤ fmt.bias) {xs : List (BitVec fmt.numBits)}
    (hne : xs ≠ []) (hxs : ∀ x ∈ xs, NonNeg fmt x)
    (hsign : ∀ x ∈ xs, A.ltBound (A.fabs (A.ofBits x)) = false → x.msb = false) :
    (maskRule fmt A.errorBound (medDataset fmt xs).2 (maskOf fmt (medDataset fmt xs).1)).frames
        (readBits (compressWith A (maskLiteral fmt A.errorBound (medDataset fmt xs).2
          (maskOf fmt (medDataset fmt xs).1)) xs).dataBits) = maskWords A xs ↔
      SelfFramed A xs := by
  have htype := medDataset_type_le xs
  refine frames_mask_iff fun x hx hs => ?_
  by_cases hm : Masked fmt (maskOf fmt (medDataset fmt xs).1) x
  · exact complete_of_masked_iff hwide htype hm
  · rcases medDataset_type_spec hne hxs with ⟨h0, _⟩ | ⟨h1, hones⟩
    · rw [h0]
      exact complete_of_untyped_iff (hsign x hx hs) hm
    · exact complete_of_unmasked_iff (hsign x hx hs) htype (by omega) (hones x hx) hm

theorem maskHandsOver_iff (hwide : fmt.mantBits ≤ fmt.bias) {xs : List (BitVec fmt.numBits)}
    (hne : xs ≠ []) (hxs : ∀ x ∈ xs, NonNeg fmt x)
    (hsign : ∀ x ∈ xs, A.ltBound (A.fabs (A.ofBits x)) = false → x.msb = false) :
    MaskHandsOver A xs ↔ SelfFramed A xs := by
  rw [← frames_maskWords_iff hwide hne hxs hsign]
  have hlen : (maskWords A xs).length = xs.length := codeWords_length A _ _ _
  constructor
  · intro h
    have hrun := h Unit Unit ⟨fun _ _ => .ok (), fun _ _ => ()⟩ () fun _ _ => ⟨(), rfl⟩
    rw [decompressMaskWith_eq_frames] at hrun
    exact (delivers_iff_frames hlen (fun _ _ _ => ⟨(), rfl⟩) _ _).mp hrun
  · intro h H W U h₀ hU
    rw [decompressMaskWith_eq_frames]
    exact (delivers_iff_frames hlen (fun w _ h => hU w h) _ _).mpr h

/-- If whether a word can be unpacked does not depend on the history, a run delivers the
    words exactly if they are recovered and can all be unpacked. -/
theorem delivers_iff_frames_and {H W : Type} {U : Unpacker H W} {num : Nat}
    {ws : List (List Bool)} (hnum : ws.length = num)
    (hd : ∀ w ∈ ws, ∀ h h', (∃ v, U.decompress w h = .ok v) → ∃ v, U.decompress w h' = .ok v)
    (frames : List (List Bool)) (h₀ : H) :
    Delivers (frames.foldlM (U.emit num) ⟨h₀, [], []⟩) num ws ↔
      frames = ws ∧ ∀ w ∈ ws, ∀ h, ∃ v, U.decompress w h = .ok v := by
  constructor
  · rintro ⟨o, ho, hw, _⟩
    obtain rfl : frames = ws := by
      rw [← hw, (Unpacker.words_of_foldlM ho).1]
      rfl
    refine ⟨rfl, fun w hmem h => ?_⟩
    obtain ⟨vs, _, hlen, hvs⟩ := Unpacker.decompress_of_foldlM ho
    obtain ⟨i, hi, rfl⟩ := List.mem_iff_getElem.mp hmem
    have hlt : i < vs.length := by omega
    have hv : vs[i]? = some vs[i] := List.getElem?_eq_getElem hlt
    exact hd _ hmem _ h ⟨_, hvs i _ _ (List.getElem?_eq_getElem hi) hv⟩
  · rintro ⟨rfl, hok⟩
    exact (delivers_iff_frames hnum hok _ _).mpr rfl

/-- A code can always be unpacked. -/
theorem decompressBitwiseMask_code (type : Nat) (mask : List Bool) (a b : Bool) (h : History V) :
    ∃ v, decompressBitwiseMask A type mask [true, a, b] h = .ok v := by
  cases a <;> cases b <;> exact ⟨_, rfl⟩

/-- Whether a masked or literal word can be unpacked is decided by its expansion. -/
theorem decompressBitwiseMask_ok_iff {type : Nat} {mask : List Bool} {x : BitVec fmt.numBits}
    (h : History V) :
    (∃ v, decompressBitwiseMask A type mask (maskLiteral fmt A.errorBound type mask x) h = .ok v) ↔
      ∃ y, expandMasked fmt type mask (maskLiteral fmt A.errorBound type mask x) = .ok y := by
  rw [decompressBitwiseMask_word]
  cases expandMasked fmt type mask (maskLiteral fmt A.errorBound type mask x) with
  | ok y => exact ⟨fun _ => ⟨y, rfl⟩, fun _ => ⟨_, rfl⟩⟩
  | error f =>
      constructor
      · rintro ⟨_, hv⟩
        cases hv
      · rintro ⟨_, hy⟩
        cases hy

/-- The words of a list can all be unpacked if its literals fit the buffer. -/
theorem codeWords_unpack_iff {type : Nat} {mask : List Bool} {xs : List (BitVec fmt.numBits)}
    (h : History V)
    (hfit : ∀ x ∈ xs, (∃ y, expandMasked fmt type mask
      (maskLiteral fmt A.errorBound type mask x) = .ok y) ↔
        FitsBuffer fmt A.errorBound type mask x) :
    (∀ w ∈ codeWords A (maskLiteral fmt A.errorBound type mask) h xs,
        ∀ h', ∃ v, decompressBitwiseMask A type mask w h' = .ok v) ↔
      ∀ p ∈ marked A h xs, p.2 = false → FitsBuffer fmt A.errorBound type mask p.1 := by
  induction xs generalizing h with
  | nil => simp [codeWords, marked]
  | cons x xs ih =>
      have hrest := ih (h.push A (A.ofBits x)) fun y hy => hfit y (List.mem_cons_of_mem x hy)
      simp only [codeWords, marked, List.forall_mem_cons]
      rw [hrest]
      refine and_congr_left fun _ => ?_
      rcases codeWord_coded (maskLiteral fmt A.errorBound type mask) h x with
        ⟨hc, a, b, hw⟩ | ⟨hc, hw, _⟩
      · -- a code is unpacked in every history
        rw [hw, hc]
        exact ⟨fun _ hf => absurd hf.symm Bool.false_ne_true,
          fun _ h' => decompressBitwiseMask_code type mask a b h'⟩
      · rw [hw, hc, forall_prop_of_true rfl, ← hfit x List.mem_cons_self]
        simp only [decompressBitwiseMask_ok_iff]
        exact ⟨fun hy => hy h, fun hy _ => hy⟩

/-- The decompressor as it is returns with exactly the words if the list is framed and no
    literal is expanded behind the end of its buffer. -/
theorem maskDelivers_iff (hwide : fmt.mantBits ≤ fmt.bias) {xs : List (BitVec fmt.numBits)}
    (hne : xs ≠ []) (hxs : ∀ x ∈ xs, NonNeg fmt x)
    (hsign : ∀ x ∈ xs, A.ltBound (A.fabs (A.ofBits x)) = false → x.msb = false) :
    Delivers
        (decompressMaskWith fmt A.errorBound (medDataset fmt xs).2
          (maskOf fmt (medDataset fmt xs).1)
          (unpackerMask A (medDataset fmt xs).2 (maskOf fmt (medDataset fmt xs).1)) xs.length
          (History.init A)
          (compressWith A (maskLiteral fmt A.errorBound (medDataset fmt xs).2
            (maskOf fmt (medDataset fmt xs).1)) xs).dataBits)
        xs.length (maskWords A xs) ↔
      SelfFramed A xs ∧
        LiteralsFit A (medDataset fmt xs).2 (maskOf fmt (medDataset fmt xs).1) xs := by
  have hlen : (maskWords A xs).length = xs.length := codeWords_length A _ _ _
  have hfit : ∀ x ∈ xs, (∃ y, expandMasked fmt (medDataset fmt xs).2
      (maskOf fmt (medDataset fmt xs).1) (maskLiteral fmt A.errorBound (medDataset fmt xs).2
        (maskOf fmt (medDataset fmt xs).1) x) = .ok y) ↔
      FitsBuffer fmt A.errorBound (medDataset fmt xs).2 (maskOf fmt (medDataset fmt xs).1) x :=
    fun x hx => expandMasked_ok_iff (maskOf_length _) (medDataset_type_le xs)
      ((medDataset_type_spec hne hxs).imp And.left fun h => h.2 x hx)
  rw [decompressMaskWith_eq_frames, delivers_iff_frames_and hlen ?_,
    frames_maskWords_iff hwide hne hxs hsign]
  · refine and_congr_right fun _ => ?_
    exact codeWords_unpack_iff (History.init A) hfit
  · -- the words are codes, or their expansion does not look at the history
    intro w hw h h' hok
    rcases codeWords_shape hw with ⟨a, b, rfl⟩ | ⟨x, _, rfl⟩
    · exact decompressBitwiseMask_code _ _ a b h'
    · exact (decompressBitwiseMask_ok_iff h').mpr ((decompressBitwiseMask_ok_iff h).mp hok)

end Delivery

/-! ## IEEE arithmetic -/

/-- A non-negative number that is not written as a code has sign bit 0: both zeros are small. -/
theorem ieee_msb_of_not_small {fmt : Format} {eb : ErrorBound}
    (hzero : ieeeUnpack fmt (ieeePack fmt (.zero .positive)) = .zero .positive)
    {x : BitVec fmt.numBits} (hx : NonNeg fmt x)
    (hbig : (FloatArith.ieee fmt eb).ltBound
      ((FloatArith.ieee fmt eb).fabs ((FloatArith.ieee fmt eb).ofBits x)) = false) :
    x.msb = false := by
  cases hm : x.msb with
  | false => rfl
  | true =>
      -- a negative number that is not below zero is minus zero, and that gets a code
      have hvalue := Format.value_eq_magnitude x
      rw [hx.value_eq, hm, if_pos rfl] at hvalue
      have hsignif : ¬ 0 < fmt.signif (bitsOf x) := fun h => by
        have hpos := Format.magnitude_pos h
        linarith
      have hunpack : ieeeUnpack fmt x = .zero .negative := by
        rw [ieeeUnpack_of_finite hx.1, dif_neg hsignif, hm]
        rfl
      have hsmall : compareBound (fun a b => decide (a < b)) eb.absErrBound
          (ieeeUnpack fmt (ieeePack fmt (ieeeUnpack fmt x).abs)) = true := by
        rw [hunpack]
        show compareBound _ _ (ieeeUnpack fmt (ieeePack fmt (.zero .positive))) = true
        rw [hzero]
        exact decide_eq_true eb.pos
      exact absurd (hsmall.symm.trans hbig) Bool.noConfusion

theorem maskHandsOver_double {eb : ErrorBound} {xs : List (BitVec 64)} (hne : xs ≠ [])
    (hxs : ∀ x ∈ xs, NonNeg double x) :
    MaskHandsOver (FloatArith.ieee double eb) xs ↔ SelfFramed (FloatArith.ieee double eb) xs :=
  have hwide : double.mantBits ≤ double.bias := by decide +kernel
  maskHandsOver_iff hwide hne hxs fun x hx => ieee_msb_of_not_small rfl (hxs x hx)

theorem maskHandsOver_float {eb : ErrorBound} {ys : List (BitVec 32)} (hne : ys ≠ [])
    (hys : ∀ y ∈ ys, NonNeg float y) :
    MaskHandsOver (FloatArith.ieee float eb) ys ↔ SelfFramed (FloatArith.ieee float eb) ys :=
  have hwide : float.mantBits ≤ float.bias := by decide +kernel
  maskHandsOver_iff hwide hne hys fun y hy => ieee_msb_of_not_small rfl (hys y hy)

/-- For every error bound and every non-empty list of non-negative numbers, the strings that
    are handed over are the code words exactly if the list is framed, and the decompressor
    returns with them exactly if moreover no literal is expanded behind its buffer. -/
theorem mask_delivers_iff (eb : ErrorBound) (xs : List (BitVec 64)) (ys : List (BitVec 32))
    (hxs : xs ≠ []) (hys : ys ≠ []) (hnonneg : ∀ x ∈ xs, NonNeg double x)
    (hnonneg' : ∀ y ∈ ys, NonNeg float y) :
    ((MaskHandsOver (FloatArith.ieee double eb) xs ↔ SelfFramed (FloatArith.ieee double eb) xs) ∧
      (Delivers
          (myDecompressBitwiseDoubleMask (FloatArith.ieee double eb)
            (myCompressBitwiseDoubleMask (FloatArith.ieee double eb) xs (medDatasetDouble xs).2
              (maskOf double (medDatasetDouble xs).1)).dataBits
            xs.length (medDatasetDouble xs).2 (maskOf double (medDatasetDouble xs).1))
          xs.length (maskWords (FloatArith.ieee double eb) xs) ↔
        SelfFramed (FloatArith.ieee double eb) xs ∧
          LiteralsFit (FloatArith.ieee double eb) (medDatasetDouble xs).2
            (maskOf double (medDatasetDouble xs).1) xs)) ∧
    ((MaskHandsOver (FloatArith.ieee float eb) ys ↔ SelfFramed (FloatArith.ieee float eb) ys) ∧
      (Delivers
          (myDecompressBitwiseMask (FloatArith.ieee float eb)
            (myCompressBitwiseMask (FloatArith.ieee float eb) ys (medDatasetFloat ys).2
              (maskOf float (medDatasetFloat ys).1)).dataBits
            ys.length (medDatasetFloat ys).2 (maskOf float (medDatasetFloat ys).1))
          ys.length (maskWords (FloatArith.ieee float eb) ys) ↔
        SelfFramed (FloatArith.ieee float eb) ys ∧
          LiteralsFit (FloatArith.ieee float eb) (medDatasetFloat ys).2
            (maskOf float (medDatasetFloat ys).1) ys)) := by
  have hwide : double.mantBits ≤ double.bias := by decide +kernel
  have hwide' : float.mantBits ≤ float.bias := by decide +kernel
  exact ⟨⟨maskHandsOver_double hxs hnonneg,
      maskDelivers_iff hwide hxs hnonneg fun x hx => ieee_msb_of_not_small rfl (hnonneg x hx)⟩,
    ⟨maskHandsOver_float hys hnonneg',
      maskDelivers_iff hwide' hys hnonneg' fun y hy => ieee_msb_of_not_small rfl (hnonneg' y hy)⟩⟩

/-- The words of all four kinds are handed over. -/
theorem mask_delivers_iff_four :
    MaskHandsOver (FloatArith.ieee double absErrorBound) fourDoubles ∧
      MaskHandsOver (FloatArith.ieee float absErrorBound) fourFloats :=
  have hframed : MaskFramed (FloatArith.ieee double absErrorBound) (medDataset double fourDoubles).2
      (maskOf double (medDataset double fourDoubles).1) fourDoubles := by
    decide +kernel
  have hframed' : MaskFramed (FloatArith.ieee float absErrorBound) (medDataset float fourFloats).2
      (maskOf float (medDataset float fourFloats).1) fourFloats := by
    decide +kernel
  have h := mask_delivers_iff absErrorBound fourDoubles fourFloats
    (List.cons_ne_nil _ _) (List.cons_ne_nil _ _)
    ((List.all_iff_forall_prop (p := NonNeg double)).mp (by decide +kernel))
    ((List.all_iff_forall_prop (p := NonNeg float)).mp (by decide +kernel))
  ⟨h.1.1.mpr hframed, h.2.1.mpr hframed'⟩

/-- The code for `0` behind `1` is not handed over: `type` is 1 and the mask announces 19
    mantissa bits. -/
theorem mask_code_swallowed :
    ((∀ x ∈ [(0x3FF0000000000000 : BitVec 64), 0], NonNeg double x) ∧
      ¬ MaskHandsOver (FloatArith.ieee double absErrorBound) [0x3FF0000000000000, 0]) ∧
    ((∀ y ∈ [(0x3F800000 : BitVec 32), 0], NonNeg float y) ∧
      ¬ MaskHandsOver (FloatArith.ieee float absErrorBound) [0x3F800000, 0]) := by
  have hxs : ∀ x ∈ [(0x3FF0000000000000 : BitVec 64), 0], NonNeg double x :=
    forall_mem_pair.mpr ⟨⟨by decide +kernel, by decide +kernel⟩,
      ⟨by decide +kernel, by decide +kernel⟩⟩
  have hys : ∀ y ∈ [(0x3F800000 : BitVec 32), 0], NonNeg float y :=
    forall_mem_pair.mpr ⟨⟨by decide +kernel, by decide +kernel⟩,
      ⟨by decide +kernel, by decide +kernel⟩⟩
  -- type 1: the prefix of a masked word is as long as the code that follows
  have hnot : ¬ MaskFramed (FloatArith.ieee double absErrorBound)
      (medDataset double [0x3FF0000000000000, 0]).2
      (maskOf double (medDataset double [0x3FF0000000000000, 0]).1) [0x3FF0000000000000, 0] := by
    decide +kernel
  have hnot' : ¬ MaskFramed (FloatArith.ieee float absErrorBound)
      (medDataset float [0x3F800000, 0]).2 (maskOf float (medDataset float [0x3F800000, 0]).1)
      [0x3F800000, 0] := by
    decide +kernel
  refine ⟨⟨hxs, fun h => hnot ?_⟩, ⟨hys, fun h => hnot' ?_⟩⟩
  · exact (maskHandsOver_double (List.cons_ne_nil _ _) hxs).mp h
  · exact (maskHandsOver_float (List.cons_ne_nil _ _) hys).mp h

end MpiApps.Codec
