/-
  MpiApps.Codec.MaskWords

  One word of the bitmask codec, written and expanded again.

  `type` counts the leading ones that no exponent in the data has, so a word is seen to
  be masked by its first `type + 1` characters.  The expansion then puts the mask back
  and the midpoint bit behind the kept mantissa.  It has no case for a mantissa that is
  kept in full: the midpoint bit then falls behind the end of the buffer
  (`fitsBuffer_masked_iff`).  As long as one bit is cut off, expansion keeps the error bound and
  agrees with the default codec except for short words with flag 0.
-/

import MpiApps.Codec.Mask
import MpiApps.Codec.IeeeOrder
import MpiApps.Codec.ErrorBound
import Mathlib.Data.Bool.AllAny

namespace MpiApps.Codec

open MpiApps.BinaryFormat

variable {fmt : Format} {eb : ErrorBound}

/-! ## The type of a list -/

/-- The loop stops at the first type that `max` allows, and leaves 0 if none does. -/
theorem typeLoop_spec (max : BitVec fmt.numBits) {i : Nat} (hi : i < fmt.expoBits) :
    (typeLoop fmt max i (2 ^ fmt.expoBits - 2 ^ (i + 1)) = 0 ∧
      ∀ j, 1 ≤ j → j ≤ i →
        ltPow fmt max ((2 ^ fmt.expoBits - 2 ^ j : ℕ) - fmt.bias : ℤ) = false) ∨
    (∃ j, 1 ≤ j ∧ j ≤ i ∧
      typeLoop fmt max i (2 ^ fmt.expoBits - 2 ^ (i + 1)) = fmt.expoBits - j ∧
      ltPow fmt max ((2 ^ fmt.expoBits - 2 ^ j : ℕ) - fmt.bias : ℤ) = true) := by
  induction i with
  | zero => exact .inl ⟨rfl, by omega⟩
  | succ i ih =>
      -- the exponent that the loop tries next
      have hadd : 2 ^ fmt.expoBits - 2 ^ (i + 1 + 1) + 2 ^ (i + 1) =
          2 ^ fmt.expoBits - 2 ^ (i + 1) := by
        have hle : 2 ^ (i + 1 + 1) ≤ 2 ^ fmt.expoBits := Nat.pow_le_pow_right (by decide) hi
        rw [pow_succ 2 (i + 1)] at hle ⊢
        omega
      simp only [typeLoop, hadd]
      by_cases hlt : ltPow fmt max ((2 ^ fmt.expoBits - 2 ^ (i + 1) : ℕ) - fmt.bias : ℤ) = true
      · rw [if_pos hlt]
        exact .inr ⟨i + 1, by omega, Nat.le_refl _, rfl, hlt⟩
      · rw [if_neg hlt]
        -- the loop goes on below `2 ^ (i + 1)`
        rcases ih (by omega) with ⟨h0, hall⟩ | ⟨j, h1, h2, hj, hltj⟩
        · refine .inl ⟨h0, fun j h1 h2 => ?_⟩
          rcases Nat.lt_or_eq_of_le h2 with h2 | rfl
          · exact hall j h1 (by omega)
          · simpa using hlt
        · exact .inr ⟨j, h1, by omega, hj, hltj⟩

theorem medDataset_type_le (data : List (BitVec fmt.numBits)) :
    (medDataset fmt data).2 ≤ fmt.expoBits - 1 := by
  have hE := fmt.expo_wide
  have h := typeLoop_spec (maxOf fmt data) (show fmt.expoBits - 1 < fmt.expoBits by omega)
  rw [Nat.sub_add_cancel (by omega : 1 ≤ fmt.expoBits), Nat.sub_self] at h
  show typeLoop fmt (maxOf fmt data) (fmt.expoBits - 1) 0 ≤ _
  rcases h with ⟨h0, _⟩ | ⟨j, h1, _, hj, _⟩
  · omega
  · omega

/-- The maximum is an element that no other one exceeds. -/
theorem maxOf_spec {data : List (BitVec fmt.numBits)} (hne : data ≠ [])
    (hdata : ∀ x ∈ data, fmt.Finite (bitsOf x)) :
    maxOf fmt data ∈ data ∧
      ∀ x ∈ data, fmt.value (bitsOf x) ≤ fmt.value (bitsOf (maxOf fmt data)) := by
  -- from any finite start the loop ends at the start or an element, above both
  have hfold : ∀ (l : List (BitVec fmt.numBits)) (m : BitVec fmt.numBits),
      fmt.Finite (bitsOf m) → (∀ x ∈ l, fmt.Finite (bitsOf x)) →
      (l.foldl (maxStep fmt) m = m ∨ l.foldl (maxStep fmt) m ∈ l) ∧
        fmt.value (bitsOf m) ≤ fmt.value (bitsOf (l.foldl (maxStep fmt) m)) ∧
        ∀ x ∈ l, fmt.value (bitsOf x) ≤ fmt.value (bitsOf (l.foldl (maxStep fmt) m)) := by
    intro l
    induction l with
    | nil => exact fun m _ _ => ⟨.inl rfl, le_refl _, by simp⟩
    | cons x l ih =>
        intro m hm hl
        have hx := hl x (by simp)
        have hl' : ∀ y ∈ l, fmt.Finite (bitsOf y) := fun y hy => hl y (by simp [hy])
        have hstep : (maxStep fmt m x = m ∧ fmt.value (bitsOf x) ≤ fmt.value (bitsOf m)) ∨
            (maxStep fmt m x = x ∧ fmt.value (bitsOf m) ≤ fmt.value (bitsOf x)) := by
          rw [maxStep]
          by_cases hlt : (ieeeUnpack fmt m).lt (ieeeUnpack fmt x) = true
          · rw [if_pos hlt]
            exact .inr ⟨rfl, ((lt_of_finite_iff hm hx).mp hlt).le⟩
          · rw [if_neg hlt]
            exact .inl ⟨rfl, not_lt.mp ((lt_of_finite_iff hm hx).not.mp hlt)⟩
        rw [List.foldl_cons]
        rcases hstep with ⟨hs, hle⟩ | ⟨hs, hle⟩
        · rw [hs]
          obtain ⟨hmem, hge, hall⟩ := ih m hm hl'
          exact ⟨hmem.imp_right fun h => by simp [h], hge,
            List.forall_mem_cons.mpr ⟨hle.trans hge, hall⟩⟩
        · rw [hs]
          obtain ⟨hmem, hge, hall⟩ := ih x hx hl'
          exact ⟨.inr (by rcases hmem with h | h <;> simp [h]), hle.trans hge,
            List.forall_mem_cons.mpr ⟨hge, hall⟩⟩
  obtain ⟨x, l, rfl⟩ := List.exists_cons_of_ne_nil hne
  have hx := hdata x (by simp)
  obtain ⟨hmem, _, hall⟩ := hfold (x :: l) x hx hdata
  refine ⟨?_, hall⟩
  rcases hmem with h | h
  · rw [maxOf, List.headD_cons, h]
    simp
  · exact h

theorem NonNeg.value_eq {x : BitVec fmt.numBits} (hx : NonNeg fmt x) :
    fmt.value (bitsOf x) = fmt.magnitude (bitsOf x) := by
  have h := @Format.magnitude_nonneg fmt (bitsOf x)
  have hpos := hx.2
  rw [Format.value_eq_magnitude] at hpos ⊢
  cases hs : x.msb with
  | false => rfl
  | true =>
      rw [hs, if_pos rfl] at hpos
      rw [if_pos rfl]
      linarith

/-- A bound on the value is a bound on the exponent. -/
theorem NonNeg.expoField_lt {x : BitVec fmt.numBits} (hx : NonNeg fmt x) {k : ℤ}
    (hk : fmt.value (bitsOf x) < 2 ^ k) (h0 : fmt.expoField (bitsOf x) ≠ 0) :
    (fmt.expoField (bitsOf x) : ℤ) - fmt.bias < k := by
  rw [hx.value_eq] at hk
  exact (zpow_lt_zpow_iff_right₀ (by norm_num : (1 : ℚ) < 2)).mp
    (lt_of_le_of_lt (Format.le_magnitude h0) hk)

/-- Either no exponent in the list starts with `type` ones, or `type` has been left at 0
    because the list has an element beyond the last power of two that is tried. -/
theorem medDataset_type_spec {data : List (BitVec fmt.numBits)} (hne : data ≠ [])
    (hdata : ∀ x ∈ data, NonNeg fmt x) :
    ((medDataset fmt data).2 = 0 ∧
      ∃ x ∈ data, 2 ^ ((2 ^ fmt.expoBits - 2 : ℕ) - fmt.bias : ℤ) ≤ fmt.value (bitsOf x)) ∨
    (1 ≤ (medDataset fmt data).2 ∧ ∀ x ∈ data,
      fmt.expoField (bitsOf x) <
        2 ^ fmt.expoBits - 2 ^ (fmt.expoBits - (medDataset fmt data).2)) := by
  have hE := fmt.expo_wide
  have hfin : ∀ x ∈ data, fmt.Finite (bitsOf x) := fun x hx => (hdata x hx).1
  obtain ⟨hmem, hmax⟩ := maxOf_spec hne hfin
  have h := typeLoop_spec (maxOf fmt data) (show fmt.expoBits - 1 < fmt.expoBits by omega)
  rw [Nat.sub_add_cancel (by omega : 1 ≤ fmt.expoBits), Nat.sub_self] at h
  -- the loop compares the largest element, which is one of the list
  have hlt : ∀ k : ℤ, ltPow fmt (maxOf fmt data) k = true ↔
      fmt.value (bitsOf (maxOf fmt data)) < 2 ^ k := fun k => by
    rw [ltPow, compareBound_of_finite _ _ (hfin _ hmem), decide_eq_true_iff]
  -- no power of two was above it, or the loop has stopped at the first one
  rcases h with ⟨h0, hall⟩ | ⟨j, h1, h2, hj, hltj⟩
  · refine .inl ⟨h0, _, hmem, not_lt.mp fun hbig => ?_⟩
    have hfalse := hall 1 (Nat.le_refl 1) (by omega)
    rw [pow_one, (hlt _).mpr hbig] at hfalse
    cases hfalse
  · have htype : (medDataset fmt data).2 = fmt.expoBits - j := hj
    refine .inr ⟨by omega, fun x hx => ?_⟩
    rw [htype, show fmt.expoBits - (fmt.expoBits - j) = j by omega]
    have hpow : 2 ^ j < 2 ^ fmt.expoBits := Nat.pow_lt_pow_right (by decide) (by omega)
    -- a number below `2 ^ (e - bias)` has an exponent field below `e`
    by_cases he : fmt.expoField (bitsOf x) = 0
    · omega
    · have hb := (hdata x hx).expoField_lt
        (lt_of_le_of_lt (hmax x hx) ((hlt _).mp hltj)) he
      omega

/-- An exponent below those that start with `type` ones does not start so. -/
theorem expo_not_all_ones {x : BitVec fmt.numBits} {type : Nat} (htype : type ≤ fmt.expoBits)
    (h : fmt.expoField (bitsOf x) < 2 ^ fmt.expoBits - 2 ^ (fmt.expoBits - type)) :
    ((((bitsOf x).drop 1).take fmt.expoBits).take type).all id = false := by
  have hW := fmt.numBits_eq
  have hlen : (((bitsOf x).drop 1).take fmt.expoBits).length = fmt.expoBits := by
    rw [List.length_take, List.length_drop, bitsOf_length]
    omega
  rw [Bool.eq_false_iff]
  intro hall
  have hle := le_natOfBits_of_ones (by rw [hlen]; exact htype) hall
  rw [hlen, ← Format.expoField] at hle
  omega

/-- Nor do the characters of the number behind the sign. -/
theorem not_all_ones {x : BitVec fmt.numBits} {type n : Nat} (htype : type ≤ fmt.expoBits)
    (h : fmt.expoField (bitsOf x) < 2 ^ fmt.expoBits - 2 ^ (fmt.expoBits - type))
    (hn : 1 + fmt.expoBits ≤ n) :
    ((((tostr x).take n).drop 1).take type).all id = false := by
  have hbits : (((tostr x).take n).drop 1).take type =
      (((bitsOf x).drop 1).take fmt.expoBits).take type := by
    rw [List.take_take, Nat.min_eq_left htype, List.drop_take, List.take_take,
      Nat.min_eq_left (by omega), tostr_eq]
  rw [hbits]
  exact expo_not_all_ones htype h

/-! ## The expansion of a written word -/

section Expansion

variable {type : Nat} {mask : List Bool} {x : BitVec fmt.numBits}

theorem maskOf_length (medium : BitVec fmt.numBits) :
    (maskOf fmt medium).length = 1 + fmt.expoBits + 8 := by
  have hM := fmt.mant_wide
  have hW := fmt.numBits_eq
  rw [maskOf, List.length_take, tostr_length]
  omega

theorem take_literal {k : Nat} (hk : k ≤ (literal fmt eb x).length) :
    (literal fmt eb x).take k = (tostr x).take k := by
  rw [literal_length] at hk
  rw [literal, List.take_take, Nat.min_eq_left hk]

/-- With flag 1 the mask stands for sign and exponent: the expansion completes the literal,
    except for a word that happens to be as long as a number. -/
theorem expandMasked_flag_one (hmask : mask.length = 1 + fmt.expoBits + 8)
    (htype : type ≤ fmt.expoBits - 1) (hm : Masked fmt mask x) (hn : ¬ MaskedMantissa fmt mask x)
    (hfull : mantissaBitsWithinErrorBound fmt eb (tostr x) = fmt.mantBits →
      type ≠ fmt.expoBits - 1) :
    expandMasked fmt type mask (maskLiteral fmt eb type mask x) =
      completed fmt (literal fmt eb x) := by
  have hE := fmt.expo_wide
  have hW := fmt.numBits_eq
  have hle := mantissaBits_le fmt eb (tostr x)
  have hlit := literal_length eb x
  -- flag 1: the mantissa is written out
  have hword : maskLiteral fmt eb type mask x = false :: (List.replicate type true ++
      true :: (literal fmt eb x).drop (1 + fmt.expoBits)) := by
    simp [maskLiteral, hm, hn, maskPrefix]
  -- and the exponent of the mask is that of the word
  have hsplit : mask.take (1 + fmt.expoBits) ++ (literal fmt eb x).drop (1 + fmt.expoBits) =
      literal fmt eb x := by
    have hm' : (tostr x).take (1 + fmt.expoBits) = mask.take (1 + fmt.expoBits) := hm
    rw [← hm', ← @take_literal fmt eb _ _ (by omega), List.take_append_drop]
  rw [hword, expandMasked_masked hmask false true, if_pos rfl, hsplit]
  simp only [List.length_cons, List.length_append, List.length_replicate, List.length_drop]
  omega

/-- With flag 0 the mask stands for eight mantissa bits as well. -/
theorem expandMasked_flag_zero (hmask : mask.length = 1 + fmt.expoBits + 8)
    (htype : type ≤ fmt.expoBits - 1) (hm : Masked fmt mask x) (hn : MaskedMantissa fmt mask x) :
    expandMasked fmt type mask (maskLiteral fmt eb type mask x) =
      completed fmt (mask ++ (literal fmt eb x).drop (1 + fmt.expoBits + 8)) := by
  have hE := fmt.expo_wide
  have hM := fmt.mant_wide
  have hW := fmt.numBits_eq
  have hle := mantissaBits_le fmt eb (tostr x)
  have hlit := literal_length eb x
  have hword : maskLiteral fmt eb type mask x = false :: (List.replicate type true ++
      false :: (literal fmt eb x).drop (1 + fmt.expoBits + 8)) := by
    simp [maskLiteral, hm, hn, maskPrefix]
  rw [hword, expandMasked_masked hmask false false, if_neg Bool.false_ne_true, ← hmask,
    List.take_length]
  simp only [List.length_cons, List.length_append, List.length_replicate, List.length_drop]
  omega

/-- Under flag 0 the mask is the beginning of the number. -/
theorem mask_eq_take (hmask : mask.length = 1 + fmt.expoBits + 8) (hm : Masked fmt mask x)
    (hn : MaskedMantissa fmt mask x) : mask = (tostr x).take (1 + fmt.expoBits + 8) := by
  have hm' : (tostr x).take (1 + fmt.expoBits) = mask.take (1 + fmt.expoBits) := hm
  have hn' : ((tostr x).drop (1 + fmt.expoBits)).take 8 =
      (mask.drop (1 + fmt.expoBits)).take 8 := hn
  rw [List.take_add, hm', hn', ← List.take_add, ← hmask, List.take_length]

/-- A number that the mask does not fit is written and completed as by the default codec,
    provided `type` tells its exponent from a masked word. -/
theorem expandMasked_unmasked_literal (htype : type ≤ fmt.expoBits - 1)
    (hones : fmt.expoField (bitsOf x) < 2 ^ fmt.expoBits - 2 ^ (fmt.expoBits - type))
    (hm : ¬ Masked fmt mask x) :
    expandMasked fmt type mask (maskLiteral fmt eb type mask x) =
      if mantissaBitsWithinErrorBound fmt eb (tostr x) = fmt.mantBits then
        .ok (strto fmt.numBits (literal fmt eb x))
      else completed fmt (literal fmt eb x) := by
  have hE := fmt.expo_wide
  have hW := fmt.numBits_eq
  have hlit := literal_length eb x
  have hword : maskLiteral fmt eb type mask x = literal fmt eb x := by simp [maskLiteral, hm]
  rw [hword]
  by_cases hfull : mantissaBitsWithinErrorBound fmt eb (tostr x) = fmt.mantBits
  · rw [if_pos hfull, expandMasked, if_pos (by omega)]
    rfl
  · rw [if_neg hfull, expandMasked_unmasked (by omega) (by omega)]
    exact not_all_ones (by omega) hones (by omega)

/-- Without a type every word passes for a masked one, the second character being its flag. -/
theorem expandMasked_type_zero (hmask : mask.length = 1 + fmt.expoBits + 8)
    (hm : ¬ Masked fmt mask x)
    (hfull : mantissaBitsWithinErrorBound fmt eb (tostr x) ≠ fmt.mantBits) :
    expandMasked fmt 0 mask (maskLiteral fmt eb 0 mask x) =
      completed fmt (mask.take (if (tostr x).getD 1 false then 1 + fmt.expoBits
        else 1 + fmt.expoBits + 8) ++ (literal fmt eb x).drop 2) := by
  have hE := fmt.expo_wide
  have hW := fmt.numBits_eq
  have hlit := literal_length eb x
  have hword : maskLiteral fmt eb 0 mask x = literal fmt eb x := by simp [maskLiteral, hm]
  -- the mask test passes with no character, so the second one is the flag
  obtain ⟨b, flag, payload, hl⟩ : ∃ b flag payload, literal fmt eb x = b :: flag :: payload := by
    match hlist : literal fmt eb x with
    | [] => simp [hlist] at hlit; omega
    | [_] => simp [hlist] at hlit; omega
    | b :: flag :: payload => exact ⟨b, flag, payload, rfl⟩
  have hflag : (tostr x).getD 1 false = flag := by
    have htake := @take_literal fmt eb x 2 (by omega)
    rw [hl] at htake
    have hget : ((tostr x).take 2).getD 1 false = flag := by
      rw [← htake]
      rfl
    rw [List.getD_eq_getElem?_getD, List.getElem?_take_of_lt (by decide),
      ← List.getD_eq_getElem?_getD] at hget
    exact hget
  have hexp := @expandMasked_masked fmt 0 _ hmask b flag payload (by
    show (b :: flag :: payload).length ≠ fmt.numBits
    rw [← hl]
    omega)
  rw [hword, hl, hflag]
  exact hexp

end Expansion

/-! ## Masked and unmasked words -/

/-- What the decoder's test of the first `type + 1` characters rests on: `type` leaves room
    for an exponent, no exponent of the list starts with `type` ones, and so no word that is
    written unmasked starts like a masked one, whatever the mask. -/
structure TypeSeparates (fmt : Format) (eb : ErrorBound) (data : List (BitVec fmt.numBits)) :
    Prop where
  one_le : 1 ≤ (medDataset fmt data).2
  le : (medDataset fmt data).2 ≤ fmt.expoBits - 1
  expo : ∀ x ∈ data, (((bitsOf x).drop 1).take fmt.expoBits).take (medDataset fmt data).2 ≠
    List.replicate (medDataset fmt data).2 true
  word : ∀ (mask : List Bool), ∀ x ∈ data, ¬ Masked fmt mask x →
    ¬ (false :: List.replicate (medDataset fmt data).2 true) <+:
      maskLiteral fmt eb (medDataset fmt data).2 mask x

theorem expoField_ne_ones {type : Nat} {x : BitVec fmt.numBits} (htype : type ≤ fmt.expoBits)
    (h : fmt.expoField (bitsOf x) < 2 ^ fmt.expoBits - 2 ^ (fmt.expoBits - type)) :
    (((bitsOf x).drop 1).take fmt.expoBits).take type ≠ List.replicate type true := by
  intro hones
  have hall := expo_not_all_ones htype h
  rw [hones] at hall
  simp at hall

/-- An unmasked word shows the exponent itself where a masked one has `type` ones. -/
theorem unmasked_not_prefixed {type : Nat} {mask : List Bool} {x : BitVec fmt.numBits}
    (htype : type ≤ fmt.expoBits)
    (h : fmt.expoField (bitsOf x) < 2 ^ fmt.expoBits - 2 ^ (fmt.expoBits - type))
    (hm : ¬ Masked fmt mask x) :
    ¬ (false :: List.replicate type true) <+: maskLiteral fmt eb type mask x := by
  have hlit := literal_length eb x
  have hword : maskLiteral fmt eb type mask x = literal fmt eb x := by simp [maskLiteral, hm]
  rw [hword]
  rintro hpre
  have htake : (literal fmt eb x).take (1 + type) = false :: List.replicate type true := by
    have hpre := List.prefix_iff_eq_take.mp hpre
    rw [List.length_cons, List.length_replicate, Nat.add_comm] at hpre
    exact hpre.symm
  refine expoField_ne_ones htype h ?_
  rw [@take_literal fmt eb _ _ (by omega), tostr_eq] at htake
  rw [List.take_take, Nat.min_eq_left htype, ← Nat.add_sub_cancel_left 1 type, ← List.drop_take,
    Nat.add_sub_cancel_left, htake, List.drop_one, List.tail_cons]

/-- Below the last power of two that the loop tries, `type` is set and separates. -/
theorem medDataset_separates {data : List (BitVec fmt.numBits)} (hne : data ≠ [])
    (hdata : ∀ x ∈ data, NonNeg fmt x)
    (hmax : ∀ x ∈ data,
      fmt.value (bitsOf x) < 2 ^ ((2 ^ fmt.expoBits - 2 : ℕ) - fmt.bias : ℤ)) :
    TypeSeparates fmt eb data := by
  have hle := medDataset_type_le data
  rcases medDataset_type_spec hne hdata with ⟨_, x, hx, hbig⟩ | ⟨hone, hones⟩
  · exact absurd (hmax x hx) (not_lt.mpr hbig)
  · exact ⟨hone, hle, fun x hx => expoField_ne_ones (by omega) (hones x hx),
      fun _ x hx hm => unmasked_not_prefixed (by omega) (hones x hx) hm⟩

/-- For every non-empty list of non-negative doubles below `2 ^ 1023` (floats below `2 ^ 127`)
    the mask type separates the masked words from the unmasked ones. -/
theorem type_separates (eb : ErrorBound) :
    (∀ xs : List (BitVec 64), xs ≠ [] → (∀ x ∈ xs, NonNeg double x) →
      (∀ x ∈ xs, double.value (bitsOf x) < 2 ^ 1023) → TypeSeparates double eb xs) ∧
    (∀ ys : List (BitVec 32), ys ≠ [] → (∀ y ∈ ys, NonNeg float y) →
      (∀ y ∈ ys, float.value (bitsOf y) < 2 ^ 127) → TypeSeparates float eb ys) :=
  ⟨fun _ hne hxs hmax => medDataset_separates hne hxs hmax,
    fun _ hne hys hmax => medDataset_separates hne hys hmax⟩

/-- `1.0` and `3.0`: type 1, both exponents starting with a zero. -/
theorem type_separates_pair :
    TypeSeparates double absErrorBound [0x3FF0000000000000, 0x4008000000000000] :=
  (type_separates absErrorBound).1 [0x3FF0000000000000, 0x4008000000000000]
    (List.cons_ne_nil _ _)
    (forall_mem_pair.mpr ⟨⟨by decide +kernel, by decide +kernel⟩,
      ⟨by decide +kernel, by decide +kernel⟩⟩)
    (forall_mem_pair.mpr ⟨by decide +kernel, by decide +kernel⟩)

/-! ## Inside the buffer -/

/-- The expansion of the word for `x` stays inside its buffer: a masked number must not
    keep its whole mantissa, unless the word is as long as a number.  Without a type an
    unmasked word is cut behind its second character, and what is left of it must fit
    behind the part of the mask that this character selects. -/
structure FitsBuffer (fmt : Format) (eb : ErrorBound) (type : Nat) (mask : List Bool)
    (x : BitVec fmt.numBits) : Prop where
  masked : Masked fmt mask x →
    mantissaBitsWithinErrorBound fmt eb (tostr x) < fmt.mantBits ∨
      (¬ MaskedMantissa fmt mask x ∧ type = fmt.expoBits - 1)
  untyped : ¬ Masked fmt mask x → type = 0 →
    mantissaBitsWithinErrorBound fmt eb (tostr x) = fmt.mantBits ∨
      fmt.expoBits + mantissaBitsWithinErrorBound fmt eb (tostr x) +
        (if (tostr x).getD 1 false then 0 else 8) ≤ fmt.mantBits

instance (fmt : Format) (eb : ErrorBound) (type : Nat) (mask : List Bool)
    (x : BitVec fmt.numBits) : Decidable (FitsBuffer fmt eb type mask x) :=
  decidable_of_iff (_ ∧ _) ⟨fun h => ⟨h.1, h.2⟩, fun h => ⟨h.masked, h.untyped⟩⟩

section Fits

variable {type : Nat} {mask : List Bool} {x : BitVec fmt.numBits}

theorem completed_ok_iff {str : List Bool} :
    (∃ y, completed fmt str = .ok y) ↔ str.length < fmt.numBits := by
  unfold completed
  split
  · next h => exact ⟨fun _ => h, fun _ => ⟨_, rfl⟩⟩
  · next h =>
      constructor
      · rintro ⟨_, hy⟩
        cases hy
      · exact fun h' => absurd h' h

theorem fitsBuffer_masked_iff (hm : Masked fmt mask x) :
    FitsBuffer fmt eb type mask x ↔
      mantissaBitsWithinErrorBound fmt eb (tostr x) < fmt.mantBits ∨
        (¬ MaskedMantissa fmt mask x ∧ type = fmt.expoBits - 1) :=
  ⟨fun h => h.masked hm, fun h => ⟨fun _ => h, fun hm' => absurd hm hm'⟩⟩

theorem fitsBuffer_unmasked_iff (hm : ¬ Masked fmt mask x) :
    FitsBuffer fmt eb type mask x ↔ (type = 0 →
      mantissaBitsWithinErrorBound fmt eb (tostr x) = fmt.mantBits ∨
        fmt.expoBits + mantissaBitsWithinErrorBound fmt eb (tostr x) +
          (if (tostr x).getD 1 false then 0 else 8) ≤ fmt.mantBits) :=
  ⟨fun h => h.untyped hm, fun h => ⟨fun hm' => absurd hm' hm, fun _ => h⟩⟩

/-- A word as long as a number is taken for one. -/
theorem expandMasked_of_length {word : List Bool} (hlen : word.length = fmt.numBits) :
    expandMasked fmt type mask word = .ok (strto fmt.numBits word) := by
  rw [expandMasked, if_pos hlen]
  rfl

theorem expandMasked_masked_ok_iff (hmask : mask.length = 1 + fmt.expoBits + 8)
    (htype : type ≤ fmt.expoBits - 1) (hm : Masked fmt mask x) :
    (∃ y, expandMasked fmt type mask (maskLiteral fmt eb type mask x) = .ok y) ↔
      FitsBuffer fmt eb type mask x := by
  have hE := fmt.expo_wide
  have hM := fmt.mant_wide
  have hW := fmt.numBits_eq
  have hle := mantissaBits_le fmt eb (tostr x)
  have hlit := literal_length eb x
  rw [fitsBuffer_masked_iff hm]
  by_cases hn : MaskedMantissa fmt mask x
  · rw [expandMasked_flag_zero hmask htype hm hn, completed_ok_iff, List.length_append,
      List.length_drop]
    simp only [hn, not_true_eq_false, false_and, or_false]
    omega
  · by_cases hfull : mantissaBitsWithinErrorBound fmt eb (tostr x) = fmt.mantBits ∧
        type = fmt.expoBits - 1
    · -- the word is as long as a number and taken for one
      have hlen : (maskLiteral fmt eb type mask x).length = fmt.numBits := by
        simp only [maskLiteral, hm, hn, if_true, if_false, maskPrefix, List.length_append,
          List.length_cons, List.length_replicate, List.length_drop, List.length_nil]
        omega
      exact ⟨fun _ => .inr ⟨hn, hfull.2⟩, fun _ => ⟨_, expandMasked_of_length hlen⟩⟩
    · rw [expandMasked_flag_one hmask htype hm hn fun h1 h2 => hfull ⟨h1, h2⟩, completed_ok_iff]
      simp only [hn, not_false_eq_true, true_and]
      omega

theorem expandMasked_unmasked_ok_iff (hmask : mask.length = 1 + fmt.expoBits + 8)
    (htype : type ≤ fmt.expoBits - 1)
    (hones : type = 0 ∨
      fmt.expoField (bitsOf x) < 2 ^ fmt.expoBits - 2 ^ (fmt.expoBits - type))
    (hm : ¬ Masked fmt mask x) :
    (∃ y, expandMasked fmt type mask (maskLiteral fmt eb type mask x) = .ok y) ↔
      FitsBuffer fmt eb type mask x := by
  have hE := fmt.expo_wide
  have hW := fmt.numBits_eq
  have hle := mantissaBits_le fmt eb (tostr x)
  have hlit := literal_length eb x
  rw [fitsBuffer_unmasked_iff hm]
  by_cases h0 : type = 0
  · -- without a type the second character of the literal is read as the flag
    subst h0
    by_cases hfull : mantissaBitsWithinErrorBound fmt eb (tostr x) = fmt.mantBits
    · have hword : maskLiteral fmt eb 0 mask x = literal fmt eb x := by simp [maskLiteral, hm]
      rw [hword]
      exact ⟨fun _ _ => .inl hfull, fun _ => ⟨_, expandMasked_of_length (by omega)⟩⟩
    · rw [expandMasked_type_zero hmask hm hfull, completed_ok_iff, List.length_append,
        List.length_take, List.length_drop]
      simp only [hfull, false_or, forall_const]
      split <;> omega
  · rw [expandMasked_unmasked_literal htype (hones.resolve_left h0) hm]
    refine ⟨fun _ h => absurd h h0, fun _ => ?_⟩
    split
    · exact ⟨_, rfl⟩
    · rw [completed_ok_iff]
      omega

theorem expandMasked_ok_iff (hmask : mask.length = 1 + fmt.expoBits + 8)
    (htype : type ≤ fmt.expoBits - 1)
    (hones : type = 0 ∨
      fmt.expoField (bitsOf x) < 2 ^ fmt.expoBits - 2 ^ (fmt.expoBits - type)) :
    (∃ y, expandMasked fmt type mask (maskLiteral fmt eb type mask x) = .ok y) ↔
      FitsBuffer fmt eb type mask x := by
  by_cases hm : Masked fmt mask x
  · exact expandMasked_masked_ok_iff hmask htype hm
  · exact expandMasked_unmasked_ok_iff hmask htype hones hm

/-- A masked or literal word is never taken for a code. -/
theorem decompressBitwiseMask_word {V : Type} (A : FloatArith fmt V) (h : History V) :
    decompressBitwiseMask A type mask (maskLiteral fmt eb type mask x) h =
      (expandMasked fmt type mask (maskLiteral fmt eb type mask x)).map A.ofBits := by
  have hE := fmt.expo_wide
  have hlit := literal_length eb x
  -- a masked word starts with 0 and a literal is longer than a code
  have hne : ∀ b c, maskLiteral fmt eb type mask x ≠ [true, b, c] := by
    intro b c heq
    by_cases hm : Masked fmt mask x
    · have hhead : (maskLiteral fmt eb type mask x).head? = some false := by
        simp only [maskLiteral, hm, if_true]
        split <;> rfl
      rw [heq] at hhead
      cases hhead
    · have hword : maskLiteral fmt eb type mask x = literal fmt eb x := by simp [maskLiteral, hm]
      rw [hword] at heq
      rw [heq] at hlit
      simp only [List.length_cons, List.length_nil] at hlit
      omega
  unfold decompressBitwiseMask
  split
  · next heq => exact absurd heq (hne _ _)
  · next heq => exact absurd heq (hne _ _)
  · next heq => exact absurd heq (hne _ _)
  · next heq => exact absurd heq (hne _ _)
  · rfl

end Fits

/-- Every element of the list is expanded without leaving the word or the buffer. -/
def ExpandsInside {V : Type} (A : FloatArith fmt V) (xs : List (BitVec fmt.numBits)) : Prop :=
  ∀ v ∈ xs, ∀ h, ∃ y,
    decompressBitwiseMask A (medDataset fmt xs).2 (maskOf fmt (medDataset fmt xs).1)
      (maskLiteral fmt A.errorBound (medDataset fmt xs).2 (maskOf fmt (medDataset fmt xs).1) v) h =
        .ok y

theorem expandsInside_iff {V : Type} (A : FloatArith fmt V) {xs : List (BitVec fmt.numBits)}
    (hne : xs ≠ []) (hxs : ∀ x ∈ xs, NonNeg fmt x) :
    ExpandsInside A xs ↔ ∀ v ∈ xs, FitsBuffer fmt A.errorBound (medDataset fmt xs).2
      (maskOf fmt (medDataset fmt xs).1) v := by
  refine forall₂_congr fun v hv => ?_
  have hones : (medDataset fmt xs).2 = 0 ∨ fmt.expoField (bitsOf v) <
      2 ^ fmt.expoBits - 2 ^ (fmt.expoBits - (medDataset fmt xs).2) :=
    (medDataset_type_spec hne hxs).imp And.left fun h => h.2 v hv
  rw [← expandMasked_ok_iff (maskOf_length _) (medDataset_type_le xs) hones]
  simp only [decompressBitwiseMask_word]
  constructor
  · -- the history is not used for a word, so any one will do
    intro h
    obtain ⟨y, hy⟩ := h (History.init A)
    cases he : expandMasked fmt (medDataset fmt xs).2 (maskOf fmt (medDataset fmt xs).1)
        (maskLiteral fmt A.errorBound (medDataset fmt xs).2
          (maskOf fmt (medDataset fmt xs).1) v) with
    | ok z => exact ⟨z, rfl⟩
    | error f =>
        rw [he] at hy
        cases hy
  · rintro ⟨y, hy⟩ h
    rw [hy]
    exact ⟨_, rfl⟩

/-- On lists of non-negative numbers the expansion of the written words stays inside word
    and buffer exactly if it does so for each element by `FitsBuffer`. -/
theorem mask_expandsInside_iff {V W : Type} (A : FloatArith double V) (B : FloatArith float W)
    (xs : List (BitVec 64)) (ys : List (BitVec 32)) (hxs : xs ≠ []) (hys : ys ≠ [])
    (hnonneg : ∀ x ∈ xs, NonNeg double x) (hnonneg' : ∀ y ∈ ys, NonNeg float y) :
    (ExpandsInside A xs ↔ ∀ v ∈ xs, FitsBuffer double A.errorBound (medDatasetDouble xs).2
      (maskOf double (medDatasetDouble xs).1) v) ∧
    (ExpandsInside B ys ↔ ∀ v ∈ ys, FitsBuffer float B.errorBound (medDatasetFloat ys).2
      (maskOf float (medDatasetFloat ys).1) v) :=
  ⟨expandsInside_iff A hxs hnonneg, expandsInside_iff B hys hnonneg'⟩

/-- `5`, `2.375`, `0` and `2.125`, with mean `2.375`: a word without the mask, one that shares
    the mantissa bits of the mask, a code, and one that shares only its exponent. -/
def fourDoubles : List (BitVec double.numBits) :=
  [0x4014000000000000, 0x4003000000000000, 0, 0x4001000000000000]

/-- The same numbers as floats. -/
def fourFloats : List (BitVec float.numBits) := [0x40A00000, 0x40180000, 0, 0x40080000]

/-- The words of all four kinds stay inside. -/
theorem mask_expandsInside_iff_four :
    ExpandsInside (FloatArith.ieee double absErrorBound) fourDoubles ∧
      ExpandsInside (FloatArith.ieee float absErrorBound) fourFloats :=
  have hfit := (List.all_iff_forall_prop (p := FitsBuffer double absErrorBound
    (medDatasetDouble fourDoubles).2 (maskOf double (medDatasetDouble fourDoubles).1))).mp
      (by decide +kernel)
  have hfit' := (List.all_iff_forall_prop (p := FitsBuffer float absErrorBound
    (medDatasetFloat fourFloats).2 (maskOf float (medDatasetFloat fourFloats).1))).mp
      (by decide +kernel)
  have h := mask_expandsInside_iff (FloatArith.ieee double absErrorBound)
    (FloatArith.ieee float absErrorBound) fourDoubles fourFloats
    (List.cons_ne_nil _ _) (List.cons_ne_nil _ _)
    ((List.all_iff_forall_prop (p := NonNeg double)).mp (by decide +kernel))
    ((List.all_iff_forall_prop (p := NonNeg float)).mp (by decide +kernel))
  ⟨h.1.mpr hfit, h.2.mpr hfit'⟩

theorem expandsInside_singleton {V : Type} {A : FloatArith fmt V} {x : BitVec fmt.numBits}
    (hx : NonNeg fmt x) (h : ExpandsInside A [x]) :
    FitsBuffer fmt A.errorBound (medDataset fmt [x]).2 (maskOf fmt (medDataset fmt [x]).1) x :=
  (expandsInside_iff A (List.cons_ne_nil _ _) (List.forall_mem_singleton.mpr hx)).mp h x
    (List.mem_singleton.mpr rfl)

/-- `2 ^ 32` and the float `8` keep their whole mantissa: the midpoint bit of their words is
    written behind the end of the buffer. -/
theorem mask_expands_outside :
    (NonNeg double 0x41F0000000000000 ∧
      ¬ ExpandsInside (FloatArith.ieee double absErrorBound) [0x41F0000000000000]) ∧
    (NonNeg float 0x41000000 ∧
      ¬ ExpandsInside (FloatArith.ieee float absErrorBound) [0x41000000]) := by
  have hx : NonNeg double 0x41F0000000000000 := ⟨by decide +kernel, by decide +kernel⟩
  have hy : NonNeg float 0x41000000 := ⟨by decide +kernel, by decide +kernel⟩
  have hfit : ¬ FitsBuffer double absErrorBound (medDataset double [0x41F0000000000000]).2
      (maskOf double (medDataset double [0x41F0000000000000]).1) 0x41F0000000000000 := by
    decide +kernel
  have hfit' : ¬ FitsBuffer float absErrorBound (medDataset float [0x41000000]).2
      (maskOf float (medDataset float [0x41000000]).1) 0x41000000 := by
    decide +kernel
  refine ⟨⟨hx, fun h => ?_⟩, ⟨hy, fun h => ?_⟩⟩
  · have hin := expandsInside_singleton hx h
    exact hfit hin
  · have hin := expandsInside_singleton hy h
    exact hfit' hin

/-! ## Within the error bound -/

/-- The kept mantissa is short of a bit for numbers below the power of two from which on
    the error bound asks for all bits. -/
theorem mantissaBits_lt {x : BitVec fmt.numBits} (hx : NonNeg fmt x)
    (hlt : fmt.value (bitsOf x) < 2 ^ ((fmt.mantBits : ℤ) - eb.binary)) :
    mantissaBitsWithinErrorBound fmt eb (tostr x) < fmt.mantBits := by
  have hM := fmt.mant_wide
  have hm := mantissaBits_eq eb x
  have hn := eb.binary_lt
  have hbias := fmt.bias_ge
  by_cases h0 : fmt.expoField (bitsOf x) = 0
  · omega
  · have := hx.expoField_lt hlt h0
    omega

/-- The midpoint behind the mask is close to every number that starts like the mask, if
    the error bound asks for fewer than eight mantissa bits. -/
theorem completed_mask_accuracy {x : BitVec fmt.numBits}
    (hfew : mantissaBitsWithinErrorBound fmt eb (tostr x) < 8) :
    ∃ y, completed fmt ((tostr x).take (1 + fmt.expoBits + 8)) = .ok y ∧
      |fmt.value (bitsOf y) - fmt.value (bitsOf x)| ≤ 2 ^ (-(eb.binary + 1 : ℤ)) := by
  have hM := fmt.mant_wide
  have hW := fmt.numBits_eq
  have hn := eb.binary_lt
  have hbias := fmt.bias_ge
  have hlen := bitsOf_length x
  have hm := mantissaBits_eq eb x
  obtain ⟨s, l, hl⟩ : ∃ s l, bitsOf x = s :: l := List.exists_cons_of_length_pos (by omega)
  rw [hl, List.length_cons] at hlen
  -- sign, exponent, eight mantissa bits and the rest
  obtain ⟨e, k, t, hx, he, hk, ht⟩ : ∃ e k t, bitsOf x = s :: (e ++ (k ++ t)) ∧
      e.length = fmt.expoBits ∧ k.length = 8 ∧ t.length + k.length = fmt.mantBits := by
    refine ⟨l.take fmt.expoBits, (l.drop fmt.expoBits).take 8, (l.drop fmt.expoBits).drop 8,
      ?_, ?_, ?_, ?_⟩
    · rw [hl, List.take_append_drop, List.take_append_drop]
    · rw [List.length_take]
      omega
    · rw [List.length_take, List.length_drop]
      omega
    · rw [List.length_drop, List.length_take, List.length_drop]
      omega
  have hfield : fmt.expoField (bitsOf x) = natOfBits e := by rw [hx, Format.expoField_mk _ _ he]
  have htake : (tostr x).take (1 + fmt.expoBits + 8) = s :: (e ++ k) := by
    have hpre : (s :: (e ++ k)).length = 1 + fmt.expoBits + 8 := by
      rw [List.length_cons, List.length_append]
      omega
    rw [tostr_eq, hx, ← List.append_assoc, ← List.cons_append, ← hpre, List.take_left]
  have htpos : t ≠ [] := by
    rintro rfl
    rw [List.length_nil] at ht
    omega
  have hpre : (s :: (e ++ k)).length = 1 + fmt.expoBits + 8 := by
    rw [List.length_cons, List.length_append]
    omega
  have hrest : fmt.numBits - ((s :: (e ++ k)).length + 1) = t.length - 1 := by omega
  have hbits : (s :: (e ++ k)) ++ true :: List.replicate (t.length - 1) false =
      s :: (e ++ (k ++ true :: List.replicate (t.length - 1) false)) := by simp
  have htlen : 0 < t.length := List.length_pos_of_ne_nil htpos
  have hfull : (s :: (e ++ (k ++ true :: List.replicate (t.length - 1) false))).length =
      fmt.numBits := by
    simp only [List.length_cons, List.length_append, List.length_replicate]
    omega
  refine ⟨_, by rw [htake, completed, if_pos (by omega), hrest, hbits], ?_⟩
  rw [strto_eq hfull (by omega), bitsOf_vecOf hfull, hx]
  refine (Format.value_midpoint s he ht htpos).trans (zpow_le_zpow_right₀ (by norm_num) ?_)
  omega

/-- What the expansion of a written word has to do with the number and with the default
    codec: it is within half of the last bit that the error bound asks for, and it is what
    the default codec returns unless flag 0 replaced a shorter mantissa. -/
def MaskAccurate {V : Type} (A : FloatArith fmt V) (xs : List (BitVec fmt.numBits))
    (v : BitVec fmt.numBits) : Prop :=
  ∀ h, ∃ y, decompressBitwiseMask A (medDataset fmt xs).2 (maskOf fmt (medDataset fmt xs).1)
      (maskLiteral fmt A.errorBound (medDataset fmt xs).2 (maskOf fmt (medDataset fmt xs).1) v) h =
        .ok (A.ofBits y) ∧
    |fmt.value (bitsOf y) - fmt.value (bitsOf v)| ≤ 2 ^ (-(A.errorBound.binary + 1 : ℤ)) ∧
    (8 ≤ mantissaBitsWithinErrorBound fmt A.errorBound (tostr v) ∨
        ¬ (Masked fmt (maskOf fmt (medDataset fmt xs).1) v ∧
          MaskedMantissa fmt (maskOf fmt (medDataset fmt xs).1) v) →
      decompressBitwise A (literal fmt A.errorBound v) h = .ok (A.ofBits y))

/-- A literal that is short of a bit is completed as by the default codec. -/
theorem completed_literal {x : BitVec fmt.numBits}
    (hlt : mantissaBitsWithinErrorBound fmt eb (tostr x) < fmt.mantBits) :
    ∃ y, completed fmt (literal fmt eb x) = .ok y ∧ fillBits fmt (literal fmt eb x) = some y := by
  have hW := fmt.numBits_eq
  have hlit := literal_length eb x
  exact ⟨_, by rw [completed, if_pos (by omega)],
    by rw [fillBits, if_neg (by omega), if_pos (by omega)]⟩

/-- The type is set: no element reaches the power of two that leaves it at 0. -/
theorem medDataset_typed (hwide : fmt.mantBits ≤ fmt.bias) {xs : List (BitVec fmt.numBits)}
    (hne : xs ≠ []) (hxs : ∀ x ∈ xs, NonNeg fmt x)
    (hmax : ∀ x ∈ xs, fmt.value (bitsOf x) < 2 ^ ((fmt.mantBits : ℤ) - eb.binary)) :
    1 ≤ (medDataset fmt xs).2 ∧ ∀ x ∈ xs, fmt.expoField (bitsOf x) <
      2 ^ fmt.expoBits - 2 ^ (fmt.expoBits - (medDataset fmt xs).2) := by
  refine (medDataset_type_spec hne hxs).resolve_left ?_
  rintro ⟨_, x, hx, hbig⟩
  have hE := fmt.expo_wide
  have hpow := (zpow_lt_zpow_iff_right₀ (by norm_num : (1 : ℚ) < 2)).mp
    (lt_of_le_of_lt hbig (hmax x hx))
  have hbias : 2 ^ fmt.expoBits - 2 = 2 * fmt.bias := by
    obtain ⟨k, hk⟩ : ∃ k, fmt.expoBits = k + 1 := ⟨fmt.expoBits - 1, by omega⟩
    rw [Format.bias, hk, Nat.add_sub_cancel, pow_succ]
    omega
  omega

/-- The expansion of a word that starts like the mask in sign, exponent and mantissa. -/
theorem expandMasked_masked_accuracy {mask : List Bool} {type : Nat} {x y : BitVec fmt.numBits}
    (hmask : mask.length = 1 + fmt.expoBits + 8) (htype : type ≤ fmt.expoBits - 1)
    (hm : Masked fmt mask x) (hn : MaskedMantissa fmt mask x)
    (hy : completed fmt (literal fmt eb x) = .ok y)
    (hacc : |fmt.value (bitsOf y) - fmt.value (bitsOf x)| ≤ 2 ^ (-(eb.binary + 1 : ℤ))) :
    ∃ u, expandMasked fmt type mask (maskLiteral fmt eb type mask x) = .ok u ∧
      |fmt.value (bitsOf u) - fmt.value (bitsOf x)| ≤ 2 ^ (-(eb.binary + 1 : ℤ)) ∧
      (8 ≤ mantissaBitsWithinErrorBound fmt eb (tostr x) → u = y) := by
  have hlit := literal_length eb x
  rw [expandMasked_flag_zero hmask htype hm hn]
  by_cases hfew : mantissaBitsWithinErrorBound fmt eb (tostr x) < 8
  · -- nothing is left of the mantissa: the mask alone is completed
    obtain ⟨u, hu, huacc⟩ := completed_mask_accuracy hfew
    refine ⟨u, ?_, huacc, fun h => absurd h (by omega)⟩
    rw [List.drop_eq_nil_of_le (by omega), List.append_nil, mask_eq_take hmask hm hn, hu]
  · have hsplit : mask ++ (literal fmt eb x).drop (1 + fmt.expoBits + 8) = literal fmt eb x := by
      rw [mask_eq_take hmask hm hn, ← @take_literal fmt eb _ _ (by omega), List.take_append_drop]
    exact ⟨y, by rw [hsplit, hy], hacc, fun _ => rfl⟩

theorem maskAccurate {V : Type} (A : FloatArith fmt V) {xs : List (BitVec fmt.numBits)}
    (hwide : fmt.mantBits ≤ fmt.bias) (hne : xs ≠ []) (hxs : ∀ x ∈ xs, NonNeg fmt x)
    (hmax : ∀ x ∈ xs, fmt.value (bitsOf x) < 2 ^ ((fmt.mantBits : ℤ) - A.errorBound.binary))
    {v : BitVec fmt.numBits} (hv : v ∈ xs) : MaskAccurate A xs v := by
  have hE := fmt.expo_wide
  have hW := fmt.numBits_eq
  have hmask := maskOf_length (medDataset fmt xs).1
  have htype := medDataset_type_le xs
  have hlt := mantissaBits_lt (hxs v hv) (hmax v hv)
  have hlit := literal_length A.errorBound v
  obtain ⟨hone, hones⟩ := medDataset_typed hwide hne hxs hmax
  obtain ⟨y, hy, hfill⟩ := completed_literal hlt
  obtain ⟨z, hz, hacc, _⟩ := literal_accuracy A.errorBound v
  obtain rfl : z = y := Option.some.inj (hz.symm.trans hfill)
  have hdefault : ∀ h, decompressBitwise A (literal fmt A.errorBound v) h =
      .ok (A.ofBits z) := by
    intro h
    rw [decompressBitwise_of_length A (by omega), decompressLiteral, hz]
    rfl
  intro h
  rw [decompressBitwiseMask_word]
  by_cases hboth : Masked fmt (maskOf fmt (medDataset fmt xs).1) v ∧
      MaskedMantissa fmt (maskOf fmt (medDataset fmt xs).1) v
  · -- flag 0: a short mantissa is replaced by that of the mask
    obtain ⟨u, hu, huacc, hueq⟩ :=
      expandMasked_masked_accuracy hmask htype hboth.1 hboth.2 hy hacc
    rw [hu]
    refine ⟨u, rfl, huacc, fun hcond => ?_⟩
    rw [hueq (hcond.resolve_right (not_not.mpr hboth))]
    exact hdefault h
  · -- the mantissa is written as by the default codec
    have hexp : expandMasked fmt (medDataset fmt xs).2 (maskOf fmt (medDataset fmt xs).1)
        (maskLiteral fmt A.errorBound (medDataset fmt xs).2
          (maskOf fmt (medDataset fmt xs).1) v) = .ok z := by
      by_cases hm : Masked fmt (maskOf fmt (medDataset fmt xs).1) v
      · rw [expandMasked_flag_one hmask htype hm (fun hn => hboth ⟨hm, hn⟩)
          (fun hfull => absurd hfull (by omega)), hy]
      · rw [expandMasked_unmasked_literal htype (hones v hv) hm, if_neg (by omega), hy]
    rw [hexp]
    exact ⟨z, rfl, hacc, fun _ => hdefault h⟩

/-- On non-empty lists of non-negative numbers below `2 ^ (52 - n)` (`2 ^ (23 - n)` for
    floats), every element comes back from its word within `2 ^ -(n+1)`, and as from the
    default codec unless flag 0 replaced a mantissa of less than eight bits. -/
theorem mask_accurate {V W : Type} (A : FloatArith double V) (B : FloatArith float W) :
    (∀ xs : List (BitVec 64), xs ≠ [] → (∀ x ∈ xs, NonNeg double x) →
      (∀ x ∈ xs, double.value (bitsOf x) < 2 ^ (52 - A.errorBound.binary : ℤ)) →
      ∀ v ∈ xs, MaskAccurate A xs v) ∧
    (∀ ys : List (BitVec 32), ys ≠ [] → (∀ y ∈ ys, NonNeg float y) →
      (∀ y ∈ ys, float.value (bitsOf y) < 2 ^ (23 - B.errorBound.binary : ℤ)) →
      ∀ v ∈ ys, MaskAccurate B ys v) :=
  ⟨fun _ hne hxs hmax _ hv => maskAccurate A (by decide +kernel) hne hxs hmax hv,
    fun _ hne hys hmax _ hv => maskAccurate B (by decide +kernel) hne hys hmax hv⟩

/-- `1.0` and `1.5`: the mean `1.25` has the exponent of both and the mantissa of neither. -/
theorem mask_accurate_example :
    ∀ v ∈ [(0x3FF0000000000000 : BitVec 64), 0x3FF8000000000000],
      MaskAccurate (FloatArith.exact double absErrorBound)
        [0x3FF0000000000000, 0x3FF8000000000000] v :=
  (mask_accurate (FloatArith.exact double absErrorBound)
    (FloatArith.exact float absErrorBound)).1 [0x3FF0000000000000, 0x3FF8000000000000]
    (List.cons_ne_nil _ _)
    (forall_mem_pair.mpr ⟨⟨by decide +kernel, by decide +kernel⟩,
      ⟨by decide +kernel, by decide +kernel⟩⟩)
    (forall_mem_pair.mpr ⟨by decide +kernel, by decide +kernel⟩)

end MpiApps.Codec
