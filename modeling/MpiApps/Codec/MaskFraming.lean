/-
  MpiApps.Codec.MaskFraming

  The automaton that cuts the stream of the bitmask codec into words.

  Unlike the default one it cannot tell from the start bit how long a literal is: after
  `type + 1` characters it looks whether the word is masked, and stops again where the
  mantissa begins.  It knows these stops by their lengths alone, `1 + E` for a literal and
  `type + 2` for a masked word, whatever kind of word it is in.

  `maskRule` is the framing rule behind it (`decompressStepMask_follows`); which code words
  are complete under that rule is the subject of `MpiApps.Codec.MaskDelivery`.
-/

import MpiApps.Codec.MaskWords
import MpiApps.Codec.Completeness

namespace MpiApps.Codec

open MpiApps.BinaryFormat
open MpiApps.Framing

/-! ## The code -/

/-- The variables of the loop: `offset_bits`, `bits` with `bits_num = bits.length`,
    `pending`, and what has been produced. -/
structure MaskAutomaton (H V : Type) where
  offsetBits : Int
  bits : List Bool
  pending : Bool
  out : Output H V

section Automaton

variable {H V : Type} (fmt : Format) (eb : ErrorBound) (type : Nat) (mask : List Bool)
  (U : Unpacker H V) (num : Nat)

/-- A start bit: 0 announces the `1+type` bits that tell a masked word, 1 a code. -/
def startBitMask (s : MaskAutomaton H V) (bit : Bool) : MaskAutomaton H V :=
  if bit = false then { s with offsetBits := 1 + type, pending := true }
  else { s with offsetBits := 3 }

/-- The string whose exponent counts when the mantissa begins: the word or the mask. -/
def expoBitsFrom (bits : List Bool) : Except Fault (List Bool) :=
  if bits.length = 1 + fmt.expoBits then return bits
  else if bits.length = 1 + type + 1 then return mask
  else throw (.exit "bits_num error")

/-- `if(bits_num == 1 + type + 1) if(bits[bits_num-1] == '0') offset_bits -= 8`. -/
def mantissaOffset (bits : List Bool) (mantissaBits : Nat) : Int :=
  if bits.length = 1 + type + 1 ∧ bits.getLastD true = false then mantissaBits - 8
  else mantissaBits

/-- `bits[bits_num-1] = bit + '0'` and `offset_bits--`; a word that has all its bits is
    handed over, unless it could be one that stops before its mantissa. -/
def appendBitMask (s : MaskAutomaton H V) (bit : Bool) : Except Fault (MaskAutomaton H V) := do
  let s := { s with bits := s.bits ++ [bit], offsetBits := s.offsetBits - 1 }
  if s.offsetBits = 0 ∧ s.bits.length ≠ 1 + fmt.expoBits ∧ s.bits.length ≠ 1 + type + 1 ∧
      s.pending = false then
    let out ← U.emit num s.out s.bits
    return { s with bits := [], pending := false, out := out }
  else return s

/-- The loop body of the decompressors of the bitmask codec. -/
def decompressStepMask (s : MaskAutomaton H V) (bit : Bool) :
    Except Fault (MaskAutomaton H V) := do
  let s ←
    if s.offsetBits = 0 then
      if s.bits.length = 0 then pure (startBitMask type s bit)
      else if s.pending = true then
        let masked ← maskedLoop s.bits 1 type
        pure { s with
          pending := false, offsetBits := if masked then 1 else fmt.expoBits - type }
      else
        let expoBits ← expoBitsFrom fmt type mask s.bits
        let mantissaBits := mantissaBitsWithinErrorBound fmt eb expoBits
        if mantissaBits > 0 then
          pure { s with offsetBits := mantissaOffset type s.bits mantissaBits }
        else
          -- no mantissa: the word is closed and this bit starts the next one
          let out ← U.emit num s.out s.bits
          pure (startBitMask type ⟨mantissaBits, [], false, out⟩ bit)
    else pure s
  appendBitMask fmt type U num s bit

/-- The loop over the bits of `data_bits`, for any function that unpacks one string. -/
def decompressMaskWith (h : H) (dataBits : List (BitVec 8)) : Except Fault (Output H V) := do
  let s ← (readBits dataBits).foldlM (decompressStepMask fmt eb type mask U num)
    ⟨0, [], false, h, [], []⟩
  return s.out

end Automaton

section Members

variable {V : Type}

/-- `decompress_bitwise_double_mask`, `decompress_bitwise_float_mask` with the history. -/
def unpackerMask {fmt : Format} (A : FloatArith fmt V) (type : Nat) (mask : List Bool) :
    Unpacker (History V) V :=
  ⟨decompressBitwiseMask A type mask, fun h v => h.push A v⟩

/-- `myDecompress_bitwise_double_mask`. -/
def myDecompressBitwiseDoubleMask (A : FloatArith double V) (dataBits : List (BitVec 8))
    (num type : Nat) (mask : List Bool) : Except Fault (Output (History V) V) :=
  decompressMaskWith double A.errorBound type mask (unpackerMask A type mask) num
    (History.init A) dataBits

/-- `myDecompress_bitwise_mask`. -/
def myDecompressBitwiseMask (A : FloatArith float V) (dataBits : List (BitVec 8))
    (num type : Nat) (mask : List Bool) : Except Fault (Output (History V) V) :=
  decompressMaskWith float A.errorBound type mask (unpackerMask A type mask) num
    (History.init A) dataBits

end Members

/-! ## The framing rule -/

section Rule

variable (fmt : Format) (eb : ErrorBound) (type : Nat) (mask : List Bool)

/-- The mantissa bits that the automaton reckons with at the end of `cur`. -/
def announced (cur : List Bool) : Nat :=
  mantissaBitsWithinErrorBound fmt eb (if cur.length = 1 + fmt.expoBits then cur else mask)

/-- The bits up to the next stop, by the characters `h` that the mask test looks at. -/
def testedBits (h : List Bool) : Int := if h.all id then 1 else fmt.expoBits - type

/-- `offset_bits` and `pending` when a bit is appended to `cur`, where they were `c`. -/
def advance (cur : List Bool) (c : Int × Bool) (bit : Bool) : Int × Bool :=
  if c.1 = 0 then
    if cur = [] then if bit = false then (1 + type, true) else (3, c.2)
    else if c.2 = true then (testedBits fmt type ((cur.drop 1).take type), false)
    else (mantissaOffset type cur (announced fmt eb mask cur), false)
  else c

/-- `offset_bits` and `pending` at a partial word, which they depend on alone. -/
def control (cur : List Bool) : Int × Bool :=
  (cur.foldl (fun (s : List Bool × Int × Bool) b =>
    (s.1 ++ [b], (advance fmt eb type mask s.1 s.2 b).1 - 1,
      (advance fmt eb type mask s.1 s.2 b).2)) ([], 0, false)).2

/-- The lengths at which a word is not closed when the count runs out. -/
def AtStop (cur : List Bool) : Prop :=
  cur.length = 1 + fmt.expoBits ∨ cur.length = 1 + type + 1

instance (cur : List Bool) : Decidable (AtStop fmt type cur) :=
  inferInstanceAs (Decidable (_ ∨ _))

/-- When a partial word ends: where the count runs out, but at a stop only with the next
    bit, and only if no mantissa is announced there. -/
def maskStatus (cur : List Bool) : Status :=
  if cur = [] then .more
  else if (control fmt eb type mask cur).1 ≠ 0 ∨ (control fmt eb type mask cur).2 = true then .more
  else if AtStop fmt type cur then
    if announced fmt eb mask cur = 0 then .doneAtNext else .more
  else .done

/-- The rule of the decompressors of the bitmask codec. -/
def maskRule : Rule Bool := ⟨maskStatus fmt eb type mask, rfl⟩

/-- The state of the automaton at a partial word. -/
def maskState {H V : Type} (cur : List Bool) (o : Output H V) : MaskAutomaton H V :=
  ⟨(control fmt eb type mask cur).1, cur, (control fmt eb type mask cur).2, o⟩

end Rule

/-! ## The automaton follows its rule -/

section Follows

variable {fmt : Format} {eb : ErrorBound} {type : Nat} {mask : List Bool} {H V : Type}
  {U : Unpacker H V} {num : Nat}

theorem control_concat (cur : List Bool) (b : Bool) :
    control fmt eb type mask (cur ++ [b]) =
      ((advance fmt eb type mask cur (control fmt eb type mask cur) b).1 - 1,
        (advance fmt eb type mask cur (control fmt eb type mask cur) b).2) := by
  have hcur : ∀ l : List Bool, (l.foldl (fun (s : List Bool × Int × Bool) b =>
      (s.1 ++ [b], (advance fmt eb type mask s.1 s.2 b).1 - 1,
        (advance fmt eb type mask s.1 s.2 b).2)) ([], 0, false)).1 = l := by
    intro l
    induction l using List.reverseRecOn with
    | nil => rfl
    | append_singleton l b ih => rw [List.foldl_append, List.foldl_cons, List.foldl_nil, ih]
  rw [control, List.foldl_append, List.foldl_cons, List.foldl_nil, hcur]
  rfl

/-- Between the start bit and the mask test the count is what is missing of `1+type`. -/
theorem control_of_pending {cur : List Bool} (h : (control fmt eb type mask cur).2 = true) :
    (control fmt eb type mask cur).1 + cur.length = 1 + type := by
  induction cur using List.reverseRecOn with
  | nil => cases h
  | append_singleton cur b ih =>
      rw [control_concat] at h ⊢
      simp only [advance, List.length_append, List.length_singleton, Nat.cast_add,
        Nat.cast_one] at h ⊢
      by_cases h0 : (control fmt eb type mask cur).1 = 0
      · by_cases hnil : cur = []
        · subst hnil
          cases b with
          | false => simp [control, Int.add_comm]
          | true => simp [control] at h
        · -- the flag is cleared by the test and by the start of the mantissa
          by_cases hp : (control fmt eb type mask cur).2 = true
          · simp [h0, hnil, hp] at h
          · simp [h0, hnil, hp] at h
      · simp only [h0, if_false] at h ⊢
        have := ih h
        omega

theorem maskStatus_doneAtNext {cur : List Bool}
    (h : maskStatus fmt eb type mask cur = .doneAtNext) :
    cur ≠ [] ∧ control fmt eb type mask cur = (0, false) ∧ AtStop fmt type cur ∧
      announced fmt eb mask cur = 0 := by
  unfold maskStatus at h
  split_ifs at h with hnil hopen hstop hzero
  rw [not_or, not_not, Bool.not_eq_true] at hopen
  exact ⟨hnil, Prod.ext hopen.1 hopen.2, hstop, hzero⟩

theorem maskStatus_concat_done_iff {cur : List Bool} {b : Bool} :
    maskStatus fmt eb type mask (cur ++ [b]) = .done ↔
      (control fmt eb type mask (cur ++ [b])).1 = 0 ∧ (cur ++ [b]).length ≠ 1 + fmt.expoBits ∧
        (cur ++ [b]).length ≠ 1 + type + 1 ∧
        (control fmt eb type mask (cur ++ [b])).2 = false := by
  have hnil : cur ++ [b] ≠ [] := by simp
  rw [maskStatus, if_neg hnil]
  -- the tests of the reader, in its order: the count, the stops, the end
  by_cases hopen : (control fmt eb type mask (cur ++ [b])).1 ≠ 0 ∨
      (control fmt eb type mask (cur ++ [b])).2 = true
  · rw [if_pos hopen]
    constructor
    · intro h
      cases h
    · rintro ⟨h0, _, _, hp⟩
      rcases hopen with h | h
      · exact absurd h0 h
      · exact absurd (hp.symm.trans h) Bool.false_ne_true
  · rw [if_neg hopen]
    rw [not_or, not_not, Bool.not_eq_true] at hopen
    by_cases hstop : AtStop fmt type (cur ++ [b])
    · rw [if_pos hstop]
      constructor
      · intro h
        split at h <;> cases h
      · rintro ⟨_, h1, h2, _⟩
        exact absurd hstop (not_or.mpr ⟨h1, h2⟩)
    · rw [if_neg hstop]
      have hlen := not_or.mp hstop
      exact ⟨fun _ => ⟨hopen.1, hlen.1, hlen.2, hopen.2⟩, fun _ => rfl⟩

/-- At a stop the string is found whose exponent counts. -/
theorem expoBitsFrom_of_atStop {cur : List Bool} (h : AtStop fmt type cur) :
    ∃ bits, expoBitsFrom fmt type mask cur = .ok bits ∧
      mantissaBitsWithinErrorBound fmt eb bits = announced fmt eb mask cur := by
  unfold expoBitsFrom announced
  by_cases h1 : cur.length = 1 + fmt.expoBits
  · exact ⟨cur, by rw [if_pos h1]; rfl, by rw [if_pos h1]⟩
  · exact ⟨mask, by rw [if_neg h1, if_pos (h.resolve_left h1)]; rfl, by rw [if_neg h1]⟩

/-- Appending a bit with the count that the partial word determines. -/
theorem appendBitMask_advance (cur : List Bool) (o : Output H V) (b : Bool) :
    appendBitMask fmt type U num
        ⟨(advance fmt eb type mask cur (control fmt eb type mask cur) b).1, cur,
          (advance fmt eb type mask cur (control fmt eb type mask cur) b).2, o⟩ b =
      if maskStatus fmt eb type mask (cur ++ [b]) = .done then
        (U.emit num o (cur ++ [b])).map (maskState fmt eb type mask [])
      else .ok (maskState fmt eb type mask (cur ++ [b]) o) := by
  have hdone := @maskStatus_concat_done_iff fmt eb type mask cur b
  rw [control_concat] at hdone
  unfold appendBitMask
  by_cases hd : maskStatus fmt eb type mask (cur ++ [b]) = .done
  · have hc := hdone.mp hd
    rw [if_pos hd, if_pos hc]
    simp only at hc
    simp only [hc.1]
    cases U.emit num o (cur ++ [b]) <;> rfl
  · rw [if_neg hd, if_neg (fun hc => hd (hdone.mpr hc)), maskState, control_concat]
    rfl

/-- In a word that goes on the next bit is appended, and the word is handed over if that
    completes it. -/
theorem decompressStepMask_more {cur : List Bool}
    (hm : maskStatus fmt eb type mask cur = .more) (o : Output H V) (b : Bool) :
    decompressStepMask fmt eb type mask U num (maskState fmt eb type mask cur o) b =
      if maskStatus fmt eb type mask (cur ++ [b]) = .done then
        (U.emit num o (cur ++ [b])).map (maskState fmt eb type mask [])
      else .ok (maskState fmt eb type mask (cur ++ [b]) o) := by
  rw [← appendBitMask_advance, decompressStepMask]
  by_cases h0 : (control fmt eb type mask cur).1 = 0
  · by_cases hnil : cur = []
    · -- a start bit
      subst hnil
      cases b <;> rfl
    · have hlen : cur.length ≠ 0 := by simpa using hnil
      by_cases hp : (control fmt eb type mask cur).2 = true
      · -- the mask test looks at the characters that are there
        have hpend := control_of_pending hp
        simp only [maskState, h0, hlen, hp, if_true, if_false, advance, hnil]
        rw [maskedLoop_eq (by omega)]
        rfl
      · -- the mantissa begins
        have hstop : AtStop fmt type cur ∧ announced fmt eb mask cur ≠ 0 := by
          rw [maskStatus, if_neg hnil, if_neg (by simp [h0, hp])] at hm
          by_cases hs : AtStop fmt type cur
          · rw [if_pos hs] at hm
            refine ⟨hs, fun hz => ?_⟩
            rw [if_pos hz] at hm
            cases hm
          · rw [if_neg hs] at hm
            cases hm
        obtain ⟨bits, hbits, hann⟩ := @expoBitsFrom_of_atStop fmt eb type mask _ hstop.1
        have hpos : 0 < announced fmt eb mask cur := Nat.pos_of_ne_zero hstop.2
        simp only [maskState, h0, hlen, hp, if_true, if_false, advance, hnil, hbits]
        rw [ok_bind]
        simp only [hann, gt_iff_lt, hpos, if_true]
        rfl
  · simp only [maskState, h0, if_false, advance]
    rfl

/-- A word that waits for its next bit is handed over, and that bit starts a word. -/
theorem decompressStepMask_waiting {cur : List Bool}
    (hn : maskStatus fmt eb type mask cur = .doneAtNext) (o : Output H V) (b : Bool) :
    decompressStepMask fmt eb type mask U num (maskState fmt eb type mask cur o) b =
      (U.emit num o cur).bind fun o' =>
        decompressStepMask fmt eb type mask U num (maskState fmt eb type mask [] o') b := by
  obtain ⟨hnil, hc, hstop, hz⟩ := maskStatus_doneAtNext hn
  have hlen : cur.length ≠ 0 := by simpa using hnil
  obtain ⟨bits, hbits, hann⟩ := @expoBitsFrom_of_atStop fmt eb type mask _ hstop
  rw [decompressStepMask]
  simp only [maskState, hc, hlen, if_true, if_false, Bool.false_eq_true, hbits]
  rw [ok_bind]
  simp only [hann, hz, gt_iff_lt, Nat.lt_irrefl, if_false]
  cases U.emit num o cur <;> rfl

/-- The decompressors of the bitmask codec follow their rule. -/
theorem decompressStepMask_follows :
    Rule.Follows (decompressStepMask fmt eb type mask U num) (U.emit num)
      (maskState fmt eb type mask) (maskRule fmt eb type mask) := by
  apply Rule.Follows.of_cases
  · intro cur o b _ hn
    exact decompressStepMask_waiting hn o b
  · intro cur o b _ hm hd
    exact (decompressStepMask_more hm o b).trans (if_pos hd)
  · intro cur o b _ hm ho
    exact (decompressStepMask_more hm o b).trans (if_neg ho.1)

/-- The strings handed over are the frames of the stream. -/
theorem decompressMaskWith_eq_frames (h : H) (dataBits : List (BitVec 8)) :
    decompressMaskWith fmt eb type mask U num h dataBits =
      ((maskRule fmt eb type mask).frames (readBits dataBits)).foldlM (U.emit num)
        ⟨h, [], []⟩ := by
  have hrun := (@decompressStepMask_follows fmt eb type mask H V U num).run_frames
    (readBits dataBits) ⟨h, [], []⟩
  rw [decompressMaskWith, show (⟨0, [], false, h, [], []⟩ : MaskAutomaton H V) =
    maskState fmt eb type mask [] ⟨h, [], []⟩ from rfl, hrun]
  cases ((maskRule fmt eb type mask).frames (readBits dataBits)).foldlM (U.emit num)
    (⟨h, [], []⟩ : Output H V) <;> rfl

end Follows

/-! ## From one stop to the next -/

section Stops

variable {fmt : Format} {eb : ErrorBound} {type : Nat} {mask cur v : List Bool}

theorem maskStatus_of_count_ne (h : (control fmt eb type mask cur).1 ≠ 0) :
    (maskRule fmt eb type mask).status cur = .more := by
  show maskStatus fmt eb type mask cur = .more
  unfold maskStatus
  split
  · rfl
  · rw [if_pos (.inl h)]

theorem maskStatus_of_pending (h : (control fmt eb type mask cur).2 = true) :
    (maskRule fmt eb type mask).status cur = .more := by
  show maskStatus fmt eb type mask cur = .more
  unfold maskStatus
  split
  · rfl
  · rw [if_pos (.inr h)]

/-- While bits are counted, the count goes down and the flag stays. -/
theorem control_counted {k : Int} {pending : Bool}
    (hadv : ∀ b, advance fmt eb type mask cur (control fmt eb type mask cur) b = (k, pending))
    {p : List Bool} (hne : p ≠ []) (hk : ∀ j : Nat, 1 ≤ j → j < p.length → k ≠ j) :
    control fmt eb type mask (cur ++ p) = (k - p.length, pending) := by
  -- the control state is a fold from the left, so the last bit comes off first
  induction p using List.reverseRecOn with
  | nil => exact absurd rfl hne
  | append_singleton p b ih =>
      rw [← List.append_assoc, control_concat]
      cases p with
      | nil =>
          rw [List.append_nil, hadv]
          rfl
      | cons a p =>
          have hlen : ((a :: p) ++ [b]).length = (a :: p).length + 1 := by simp
          have hc := ih (by simp) fun j h1 h2 => hk j h1 (by omega)
          -- the count has not run out, so it only goes down
          have hne0 : k - ((a :: p).length : Int) ≠ 0 := by
            have := hk (a :: p).length (by simp) (by omega)
            omega
          rw [hc, advance, if_neg hne0, hlen]
          push_cast
          congr 1
          omega

/-- A word in which `k` bits are counted is complete only if it has them, and then if it is
    so from the point where the count runs out. -/
theorem completeFrom_counted {k : Int} {pending : Bool}
    (hadv : ∀ b, advance fmt eb type mask cur (control fmt eb type mask cur) b = (k, pending))
    (hmore : (maskRule fmt eb type mask).status cur = .more) :
    (maskRule fmt eb type mask).CompleteFrom cur v ↔
      0 < k ∧ k ≤ v.length ∧
        (maskRule fmt eb type mask).CompleteFrom (cur ++ v.take k.toNat) (v.drop k.toNat) := by
  -- short of the count the word stays open
  have hopen : ∀ p : List Bool, (k ≤ 0 ∨ p.length < k) →
      (maskRule fmt eb type mask).status (cur ++ p) = .more := by
    intro p hp
    by_cases hne : p = []
    · rw [hne, List.append_nil]
      exact hmore
    · refine maskStatus_of_count_ne ?_
      rw [control_counted hadv hne fun j _ hj => by omega]
      have := List.length_pos_of_ne_nil hne
      show k - (p.length : Int) ≠ 0
      omega
  by_cases hk : 0 < k ∧ k ≤ v.length
  · have hpre : ∀ p, p <+: v.take k.toNat → p ≠ v.take k.toNat →
        (maskRule fmt eb type mask).status (cur ++ p) = .more := by
      intro p hp hne
      have hlen := hp.length_le
      have hlt : p.length ≠ (v.take k.toNat).length := fun h => hne (hp.eq_of_length h)
      rw [List.length_take] at hlen hlt
      exact hopen p (.inr (by omega))
    conv_lhs => rw [← List.take_append_drop k.toNat v]
    rw [Rule.completeFrom_append hpre]
    simp [hk]
  · refine ⟨fun hc => absurd hc (Rule.not_completeFrom (hopen v (by omega))), ?_⟩
    rintro ⟨h1, h2, _⟩
    exact absurd ⟨h1, h2⟩ hk

/-- Where the count has run out, away from a stop, the word has ended. -/
theorem completeFrom_of_not_atStop (hne : cur ≠ []) (hc : control fmt eb type mask cur = (0, false))
    (hstop : ¬ AtStop fmt type cur) :
    (maskRule fmt eb type mask).CompleteFrom cur v ↔ v = [] := by
  refine Rule.completeFrom_of_ended ?_
  show maskStatus fmt eb type mask cur ≠ .more
  rw [maskStatus, if_neg hne, if_neg (by simp [hc]), if_neg hstop]
  exact fun h => by cases h

/-- The next bit would start the mantissa. -/
theorem advance_of_count_zero (hne : cur ≠ [])
    (hc : control fmt eb type mask cur = (0, false)) (b : Bool) :
    advance fmt eb type mask cur (control fmt eb type mask cur) b =
      (mantissaOffset type cur (announced fmt eb mask cur), false) := by
  simp [advance, hc, hne]

/-- At a stop the word goes on with the mantissa that is announced. -/
theorem completeFrom_of_atStop (hne : cur ≠ []) (hc : control fmt eb type mask cur = (0, false))
    (hstop : AtStop fmt type cur) :
    (maskRule fmt eb type mask).CompleteFrom cur v ↔
      if announced fmt eb mask cur = 0 then v = []
      else 0 < mantissaOffset type cur (announced fmt eb mask cur) ∧
        mantissaOffset type cur (announced fmt eb mask cur) ≤ v.length ∧
        (maskRule fmt eb type mask).CompleteFrom
          (cur ++ v.take (mantissaOffset type cur (announced fmt eb mask cur)).toNat)
          (v.drop (mantissaOffset type cur (announced fmt eb mask cur)).toNat) := by
  have hstatus : (maskRule fmt eb type mask).status cur =
      if announced fmt eb mask cur = 0 then .doneAtNext else .more := by
    show maskStatus fmt eb type mask cur = _
    rw [maskStatus, if_neg hne, if_neg (by simp [hc]), if_pos hstop]
  by_cases hz : announced fmt eb mask cur = 0
  · rw [if_pos hz] at hstatus ⊢
    exact Rule.completeFrom_of_ended (by rw [hstatus]; exact fun h => by cases h)
  · rw [if_neg hz] at hstatus ⊢
    exact completeFrom_counted (advance_of_count_zero hne hc) hstatus

/-- The count has run out again behind the announced mantissa. -/
theorem control_of_atStop (hne : cur ≠ []) (hc : control fmt eb type mask cur = (0, false))
    (hpos : 0 < mantissaOffset type cur (announced fmt eb mask cur))
    (hle : mantissaOffset type cur (announced fmt eb mask cur) ≤ v.length) :
    control fmt eb type mask
        (cur ++ v.take (mantissaOffset type cur (announced fmt eb mask cur)).toNat) =
      (0, false) := by
  have hadv := advance_of_count_zero hne hc
  generalize mantissaOffset type cur (announced fmt eb mask cur) = k at hpos hle hadv
  have hlen : (v.take k.toNat).length = k.toNat := by
    rw [List.length_take]
    omega
  rw [control_counted hadv ?_ ?_, hlen]
  · congr 1
    omega
  · rintro h
    rw [h, List.length_nil] at hlen
    omega
  · intro j _ hj
    omega

/-- The characters that tell a masked word are all waited for. -/
theorem control_header {h : List Bool} (hlen : h.length ≤ type) :
    control fmt eb type mask (false :: h) = ((type : Int) - h.length, true) := by
  have hstart : control fmt eb type mask [false] = ((type : Int), true) := by
    simp [control, advance]
  by_cases hne : h = []
  · rw [hne, hstart]
    simp
  · have hpos := List.length_pos_of_ne_nil hne
    have hadv : ∀ b, advance fmt eb type mask [false] (control fmt eb type mask [false]) b =
        ((type : Int), true) := by
      intro b
      rw [hstart, advance, if_neg (by simp; omega)]
    exact control_counted hadv hne fun j _ hj => by omega

/-- Behind them the count is set by the mask test: one more character for a masked word,
    the rest of the exponent for another one. -/
theorem control_tested {h u : List Bool} (hlen : h.length = type) (hne : u ≠ [])
    (hu : u.length ≤ testedBits fmt type h) :
    control fmt eb type mask (false :: (h ++ u)) =
      (testedBits fmt type h - u.length, false) := by
  have hc := @control_header fmt eb type mask h (Nat.le_of_eq hlen)
  rw [hlen, sub_self] at hc
  have hadv : ∀ b, advance fmt eb type mask (false :: h)
      (control fmt eb type mask (false :: h)) b =
        (testedBits fmt type h, false) := by
    intro b
    rw [hc, advance, if_pos rfl, if_neg (List.cons_ne_nil _ _), if_pos rfl, List.drop_one,
      List.tail_cons, ← hlen, List.take_length]
  exact control_counted hadv hne fun j _ hj => by omega

/-- A word that starts with 0 is complete if it is so from the first stop on. -/
theorem complete_tested {h u : List Bool} (hlen : h.length = type)
    (hu : u.length = testedBits fmt type h) (hne : u ≠ []) :
    control fmt eb type mask (false :: (h ++ u)) = (0, false) ∧
      ((maskRule fmt eb type mask).Complete (false :: (h ++ u) ++ v) ↔
        (maskRule fmt eb type mask).CompleteFrom (false :: (h ++ u)) v) := by
  have hend := @control_tested fmt eb type mask h u hlen hne (le_of_eq hu)
  rw [hu, sub_self] at hend
  refine ⟨hend, ?_⟩
  suffices hpre : ∀ p, p <+: false :: (h ++ u) → p ≠ false :: (h ++ u) →
      (maskRule fmt eb type mask).status ([] ++ p) = .more by
    rw [Rule.complete_iff_completeFrom_nil, Rule.completeFrom_append hpre, List.nil_append]
  intro p hp hpe
  rw [List.nil_append]
  cases p with
  | nil => exact (maskRule fmt eb type mask).status_nil
  | cons b p =>
      obtain ⟨rfl, htail⟩ := List.cons_prefix_cons.mp hp
      by_cases hle : p.length ≤ type
      · -- the mask test is still to come
        exact maskStatus_of_pending (by rw [control_header hle])
      · obtain ⟨r, rfl⟩ : h <+: p :=
          List.prefix_of_prefix_length_le (List.prefix_append h u) htail (by omega)
        have hr := (List.prefix_append_right_inj h).mp htail
        have hrne : r ≠ [] := by
          rintro rfl
          rw [List.append_nil] at hle
          omega
        have hlt : r.length ≠ u.length := fun heq => hpe (by rw [hr.eq_of_length heq])
        have hrle := hr.length_le
        refine maskStatus_of_count_ne ?_
        rw [control_tested hlen hrne (by omega), ← hu]
        show (u.length : Int) - r.length ≠ 0
        omega

theorem mantissaOffset_of_length_ne (h : cur.length ≠ 1 + type + 1) (m : Nat) :
    mantissaOffset type cur m = m := by
  rw [mantissaOffset, if_neg fun hc => h hc.1]

/-- Where the count runs out away from a stop, nothing may be left. -/
theorem completeFrom_take_iff {off : Nat} (hne : cur ≠ []) (hle : off ≤ v.length)
    (hc : control fmt eb type mask (cur ++ v.take off) = (0, false))
    (hstop : ¬ AtStop fmt type (cur ++ v.take off)) :
    (maskRule fmt eb type mask).CompleteFrom (cur ++ v.take off) (v.drop off) ↔
      v.length = off := by
  rw [completeFrom_of_not_atStop (by simp [hne]) hc hstop, List.drop_eq_nil_iff]
  omega

theorem not_atStop_take {off : Nat} (hle : off ≤ v.length)
    (hexpo : cur.length + off ≠ 1 + fmt.expoBits) (htype : cur.length + off ≠ 1 + type + 1) :
    ¬ AtStop fmt type (cur ++ v.take off) := by
  unfold AtStop
  rw [List.length_append, List.length_take, Nat.min_eq_left hle]
  exact not_or.mpr ⟨hexpo, htype⟩

/-- From the last stop on, only the announced mantissa is missing. -/
theorem completeFrom_literalStop (htype : type + 1 ≤ fmt.expoBits)
    (hlen : cur.length = 1 + fmt.expoBits) (hc : control fmt eb type mask cur = (0, false)) :
    (maskRule fmt eb type mask).CompleteFrom cur v ↔
      if mantissaBitsWithinErrorBound fmt eb cur = 0 then v = []
      else 0 < mantissaOffset type cur (mantissaBitsWithinErrorBound fmt eb cur) ∧
        mantissaOffset type cur (mantissaBitsWithinErrorBound fmt eb cur) = v.length := by
  have hne : cur ≠ [] := by
    rintro rfl
    rw [List.length_nil] at hlen
    omega
  have hann : announced fmt eb mask cur = mantissaBitsWithinErrorBound fmt eb cur := by
    rw [announced, if_pos hlen]
  rw [completeFrom_of_atStop hne hc (.inl hlen), ← hann]
  split
  · rfl
  · refine and_congr_right fun hpos => ?_
    -- behind the mantissa both stops have been passed
    have hrest : mantissaOffset type cur (announced fmt eb mask cur) ≤ v.length →
        ((maskRule fmt eb type mask).CompleteFrom
          (cur ++ v.take (mantissaOffset type cur (announced fmt eb mask cur)).toNat)
          (v.drop (mantissaOffset type cur (announced fmt eb mask cur)).toNat) ↔
            v.length = (mantissaOffset type cur (announced fmt eb mask cur)).toNat) :=
      fun hle => completeFrom_take_iff hne (by omega) (control_of_atStop hne hc hpos hle)
        (not_atStop_take (by omega) (by omega) (by omega))
    constructor
    · rintro ⟨hle, hword⟩
      have hend := (hrest hle).mp hword
      omega
    · intro heq
      exact ⟨heq.le, (hrest heq.le).mpr (by omega)⟩

/-- The count runs out at the other stop, and the word announces its own mantissa. -/
theorem completeFrom_take_literalStop {off : Nat} (htype : type + 1 < fmt.expoBits)
    (hlen : cur.length + off = 1 + fmt.expoBits) (hle : off ≤ v.length)
    (hc : control fmt eb type mask (cur ++ v.take off) = (0, false)) :
    (maskRule fmt eb type mask).CompleteFrom (cur ++ v.take off) (v.drop off) ↔
      v.length = off + mantissaBitsWithinErrorBound fmt eb (cur ++ v) := by
  have hcut : (cur ++ v.take off).length = 1 + fmt.expoBits := by
    rw [List.length_append, List.length_take]
    omega
  have hmant : mantissaBitsWithinErrorBound fmt eb (cur ++ v.take off) =
      mantissaBitsWithinErrorBound fmt eb (cur ++ v) := by
    rw [← mantissaBits_take (cur ++ v) (1 + fmt.expoBits) (Nat.le_refl _), ← hlen,
      List.take_length_add_append]
  rw [completeFrom_literalStop htype.le hcut hc, hmant,
    mantissaOffset_of_length_ne (by omega), List.length_drop]
  split
  · rw [List.drop_eq_nil_iff]
    omega
  · omega

/-- From the stop of a masked word on, the mantissa that the mask announces is missing, and
    if it ends where that of a literal would begin, the one that the word announces there. -/
theorem completeFrom_maskedStop (htype : type + 1 < fmt.expoBits)
    (hlen : cur.length = 1 + type + 1) (hc : control fmt eb type mask cur = (0, false)) :
    (maskRule fmt eb type mask).CompleteFrom cur v ↔
      if mantissaBitsWithinErrorBound fmt eb mask = 0 then v = []
      else 0 < mantissaOffset type cur (mantissaBitsWithinErrorBound fmt eb mask) ∧
        (v.length : Int) = mantissaOffset type cur (mantissaBitsWithinErrorBound fmt eb mask) +
          if 1 + type + 1 + mantissaOffset type cur (mantissaBitsWithinErrorBound fmt eb mask) =
              1 + fmt.expoBits then
            (mantissaBitsWithinErrorBound fmt eb (cur ++ v) : Int)
          else 0 := by
  have hne : cur ≠ [] := by
    rintro rfl
    rw [List.length_nil] at hlen
    omega
  have hann : announced fmt eb mask cur = mantissaBitsWithinErrorBound fmt eb mask := by
    rw [announced, if_neg (by omega)]
  rw [completeFrom_of_atStop hne hc (.inr hlen), ← hann]
  split
  · rfl
  · refine and_congr_right fun hpos => ?_
    have hend := @control_of_atStop fmt eb type mask cur v hne hc hpos
    have hoff : ∃ off : Nat, mantissaOffset type cur (announced fmt eb mask cur) = off :=
      ⟨(mantissaOffset type cur (announced fmt eb mask cur)).toNat, by omega⟩
    obtain ⟨off, hoff⟩ := hoff
    rw [hoff] at hpos hend ⊢
    rw [Int.toNat_natCast] at hend ⊢
    by_cases hle : off ≤ v.length
    · rw [and_iff_right (by omega)]
      by_cases hstop : 1 + type + 1 + off = 1 + fmt.expoBits
      · have hif : (1 : Int) + type + 1 + off = 1 + fmt.expoBits := by omega
        rw [completeFrom_take_literalStop htype (by omega) hle (hend (by omega)), if_pos hif]
        omega
      · have hif : ¬ (1 : Int) + type + 1 + off = 1 + fmt.expoBits := by omega
        rw [completeFrom_take_iff hne hle (hend (by omega))
          (not_atStop_take hle (by omega) (by omega)), if_neg hif]
        omega
    · -- the word ends before its mantissa does
      refine ⟨fun h => absurd h.1 (by omega), fun h => ?_⟩
      split at h <;> omega

end Stops

end MpiApps.Codec
