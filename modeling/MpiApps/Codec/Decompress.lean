/-
  MpiApps.Codec.Decompress

  The bitwise decompressors: automata that read the compressed bytes bit by bit,
  isolate one code word after the other and hand each to a `decompress` function.

  Three automata are translated here.  The default one and the one without
  prediction differ in what a leading one does and in the `decompress` function;
  the one of the `op` codec expects literals of full width.  Each of them is then
  shown to follow a framing rule: which words it isolates is decided by the rule
  alone, and the values it emits are those of the isolated words.
-/

import MpiApps.Lib.Framing
import MpiApps.Codec.Compress

namespace MpiApps.Codec

open MpiApps.BinaryFormat
open MpiApps.Framing

/-! ## The code -/

/-- How a decompressor can fail to return. -/
inductive Fault
  /-- the message printed before `exit` -/
  | exit (msg : String)
  /-- a write past the end of an allocated array -/
  | outOfBounds
  deriving DecidableEq, Repr

/-- What a decompressor has produced: the history, the slots of `decompressed`
    written so far (`decompressed_num` of them), and the log of the strings that
    it handed to its `decompress` function. -/
structure Output (H V : Type) where
  hist : H
  decompressed : List V
  words : List (List Bool)
  deriving DecidableEq, Repr

/-- The part of a decompressor that deals with an isolated word. -/
structure Unpacker (H V : Type) where
  decompress : List Bool → H → Except Fault V
  push : H → V → H

/-- `decompressed_num++; decompressed[decompressed_num-1] = decompress(...)`, then the
    history update; `decompressed` has `num` slots. -/
def Unpacker.emit {H V : Type} (U : Unpacker H V) (num : Nat) (o : Output H V)
    (bits : List Bool) : Except Fault (Output H V) := do
  let v ← U.decompress bits o.hist
  if o.decompressed.length < num then
    return ⟨U.push o.hist v, o.decompressed ++ [v], o.words ++ [bits]⟩
  else throw .outOfBounds

/-- The number for a string that is not a code: completed with a one and zeros. -/
def decompressLiteral {fmt : Format} {V : Type} (A : FloatArith fmt V) (bits : List Bool) :
    Except Fault V :=
  match fillBits fmt bits with
  | some x => return A.ofBits x
  | none => throw .outOfBounds

/-- `decompress_bitwise_double`, `decompress_bitwise_float`. -/
def decompressBitwise {fmt : Format} {V : Type} (A : FloatArith fmt V) (bits : List Bool)
    (h : History V) : Except Fault V :=
  match bits with
  | [true, false, false] => return A.ofInt 0
  | [true, false, true] => return h.beforeValue1
  | [true, true, false] => return h.predict2 A
  | [true, true, true] => return h.predict3 A
  | [false, _, _] => throw (.exit "Error start bit of 3 bits is 0\n")
  | bits => decompressLiteral A bits

/-- The default decompressor with its three-slot history. -/
def unpacker {fmt : Format} {V : Type} (A : FloatArith fmt V) : Unpacker (History V) V :=
  ⟨decompressBitwise A, fun h v => h.push A v⟩

/-- `decompress_bitwise_double_np`, `decompress_bitwise_float_np`: no history. -/
def unpackerNp {fmt : Format} {V : Type} (A : FloatArith fmt V) : Unpacker Unit V :=
  ⟨fun bits _ => decompressLiteral A bits, fun _ _ => ()⟩

/-- The variables of the loop: `offset_bits`, `bits` with `bits_num = bits.length`,
    and what has been produced. -/
structure Automaton (H V : Type) where
  offsetBits : Int
  bits : List Bool
  out : Output H V

section Automata

variable {H V : Type} (fmt : Format) (eb : ErrorBound) (U : Unpacker H V) (num : Nat)

/-- A start bit: 0 announces `len` bits, 1 whatever `startOne` says. -/
def startBit (len : Int) (startOne : Except Fault Int) (s : Automaton H V) (bit : Bool) :
    Except Fault (Automaton H V) :=
  if bit = false then
    return { s with offsetBits := len, bits := s.bits ++ [bit] }
  else do
    let offset ← startOne
    return { s with offsetBits := offset, bits := s.bits ++ [bit] }

/-- The loop body of the default decompressor and of the one without prediction. -/
def decompressStep (startOne : Except Fault Int) (s : Automaton H V) (bit : Bool) :
    Except Fault (Automaton H V) := do
  let s ←
    if s.offsetBits = 0 then
      if s.bits.length = 0 then
        startBit (1 + fmt.expoBits) startOne s bit
      else
        -- the exponent is complete: this is the first bit of the mantissa
        let offsetBits := mantissaBitsWithinErrorBound fmt eb s.bits
        if offsetBits > 0 then
          pure { s with offsetBits := offsetBits, bits := s.bits ++ [bit] }
        else
          -- no mantissa: the pending word is closed and this bit starts the next one
          let out ← U.emit num s.out s.bits
          startBit (1 + fmt.expoBits) startOne ⟨offsetBits, [], out⟩ bit
    else
      pure { s with bits := s.bits ++ [bit] }
  let s := { s with offsetBits := s.offsetBits - 1 }
  if s.offsetBits = 0 ∧ s.bits.length ≠ 1 + fmt.expoBits then
    let out ← U.emit num s.out s.bits
    return { s with bits := [], out := out }
  else return s

/-- The loop body of the `op` decompressor. -/
def decompressStepOp (s : Automaton H V) (bit : Bool) : Except Fault (Automaton H V) := do
  let s ←
    if s.offsetBits = 0 then startBit fmt.numBits (.ok 3) s bit
    else pure { s with bits := s.bits ++ [bit] }
  let s := { s with offsetBits := s.offsetBits - 1 }
  if s.offsetBits = 0 then
    let out ← U.emit num s.out s.bits
    return { s with bits := [], out := out }
  else return s

end Automata

section Members

variable {V : Type}

/-- The loop over the bits of `data_bits`, `num` slots allocated. -/
def decompressWith {fmt : Format} (A : FloatArith fmt V) (dataBits : List (BitVec 8)) (num : Nat) :
    Except Fault (Output (History V) V) := do
  let s ← (readBits dataBits).foldlM
    (decompressStep fmt A.errorBound (unpacker A) num (.ok 3)) ⟨0, [], History.init A, [], []⟩
  return s.out

/-- The same without prediction: a leading one ends the program. -/
def decompressNp {fmt : Format} (A : FloatArith fmt V) (dataBits : List (BitVec 8))
    (num : Nat) : Except Fault (Output Unit V) := do
  let s ← (readBits dataBits).foldlM
    (decompressStep fmt A.errorBound (unpackerNp A) num (.error (.exit "Error leading bit 1\n")))
    ⟨0, [], (), [], []⟩
  return s.out

/-- The same for literals of full width. -/
def decompressOp {fmt : Format} (A : FloatArith fmt V) (dataBits : List (BitVec 8))
    (num : Nat) : Except Fault (Output (History V) V) := do
  let s ← (readBits dataBits).foldlM (decompressStepOp fmt (unpacker A) num)
    ⟨0, [], History.init A, [], []⟩
  return s.out

/-- `myDecompress_bitwise_double`. -/
def myDecompressBitwiseDouble (A : FloatArith double V) (dataBits : List (BitVec 8)) (num : Nat) :=
  decompressWith A dataBits num

/-- `myDecompress_bitwise`. -/
def myDecompressBitwise (A : FloatArith float V) (dataBits : List (BitVec 8)) (num : Nat) :=
  decompressWith A dataBits num

/-- `myDecompress_bitwise_double_np`. -/
def myDecompressBitwiseDoubleNp (A : FloatArith double V) (dataBits : List (BitVec 8))
    (num : Nat) :=
  decompressNp A dataBits num

/-- `myDecompress_bitwise_np`. -/
def myDecompressBitwiseNp (A : FloatArith float V) (dataBits : List (BitVec 8)) (num : Nat) :=
  decompressNp A dataBits num

/-- `myDecompress_bitwise_double_op`. -/
def myDecompressBitwiseDoubleOp (A : FloatArith double V) (dataBits : List (BitVec 8))
    (num : Nat) :=
  decompressOp A dataBits num

/-- `myDecompress_bitwise_op`. -/
def myDecompressBitwiseOp (A : FloatArith float V) (dataBits : List (BitVec 8)) (num : Nat) :=
  decompressOp A dataBits num

end Members

theorem ok_bind {ε α β : Type} (a : α) (f : α → Except ε β) : (Except.ok a >>= f) = f a := rfl

/-- A step that is followed by a result has one itself. -/
theorem bind_eq_ok {ε α β : Type} {x : Except ε α} {f : α → Except ε β} {b : β}
    (h : (x >>= f) = .ok b) : ∃ a, x = .ok a ∧ f a = .ok b := by
  cases x with
  | error e => cases h
  | ok a => exact ⟨a, rfl, h⟩

theorem map_ok {ε α β : Type} (a : α) (f : α → β) :
    Except.map f (Except.ok a : Except ε α) = .ok (f a) := rfl

/-! ## Framing rules -/

/-- When a partial word of the default format ends: a code after `codeLen` bits, a
    literal after its mantissa, and a literal without mantissa at the next bit. -/
def bitwiseStatus (fmt : Format) (eb : ErrorBound) (codeLen : Nat) : List Bool → Status
  | [] => .more
  | true :: l => if l.length + 1 = codeLen then .done else .more
  | false :: l =>
    if l.length < fmt.expoBits then .more
    else if l.length = fmt.expoBits then
      if mantissaBitsWithinErrorBound fmt eb (false :: l) = 0 then .doneAtNext else .more
    else if l.length = fmt.expoBits + mantissaBitsWithinErrorBound fmt eb (false :: l) then .done
    else .more

/-- The rule of the default and `np` decompressors; `codeLen` is 3 and 1. -/
def bitwiseRule (fmt : Format) (eb : ErrorBound) (codeLen : Nat) : Rule Bool :=
  ⟨bitwiseStatus fmt eb codeLen, rfl⟩

/-- The rule of the `op` decompressor. -/
def opRule (fmt : Format) : Rule Bool where
  status
    | [] => .more
    | true :: l => if l.length + 1 = 3 then .done else .more
    | false :: l => if l.length + 1 = fmt.numBits then .done else .more
  status_nil := rfl

/-- `offset_bits` at a partial word of the default format. -/
def bitwiseOffset (fmt : Format) (eb : ErrorBound) : List Bool → Int
  | [] => 0
  | true :: l => 3 - (l.length + 1)
  | false :: l =>
    if l.length ≤ fmt.expoBits then fmt.expoBits - l.length
    else fmt.expoBits + mantissaBitsWithinErrorBound fmt eb (false :: l) - l.length

/-- The state of the automaton at a partial word. -/
def bitwiseState {H V : Type} (fmt : Format) (eb : ErrorBound) (cur : List Bool)
    (o : Output H V) : Automaton H V :=
  ⟨bitwiseOffset fmt eb cur, cur, o⟩

variable {fmt : Format} {eb : ErrorBound}

theorem mantissaBits_concat {cur : List Bool} (h : 1 + fmt.expoBits ≤ cur.length) (b : Bool) :
    mantissaBitsWithinErrorBound fmt eb (cur ++ [b]) =
      mantissaBitsWithinErrorBound fmt eb cur := by
  rw [← mantissaBits_take (cur ++ [b]) cur.length h, List.take_left]

/-- A partial literal is shorter than its exponent and mantissa; with no mantissa bits it may
    be as long, and waits. -/
theorem bitwise_open_literal {codeLen : Nat} {l : List Bool}
    (h : (bitwiseRule fmt eb codeLen).Open (false :: l)) :
    l.length ≤ fmt.expoBits ∨
      l.length < fmt.expoBits + mantissaBitsWithinErrorBound fmt eb (false :: l) := by
  by_contra hlt
  rw [not_or, Nat.not_le, Nat.not_lt] at hlt
  obtain ⟨h1, h2⟩ := hlt
  have htake : ∀ k, fmt.expoBits ≤ k → k ≤ l.length →
      (l.take k).length = k ∧ false :: l.take k <+: false :: l ∧
        mantissaBitsWithinErrorBound fmt eb (false :: l.take k) =
          mantissaBitsWithinErrorBound fmt eb (false :: l) := by
    intro k hk1 hk2
    refine ⟨by rw [List.length_take]; omega,
      List.cons_prefix_cons.mpr ⟨rfl, List.take_prefix _ _⟩, ?_⟩
    rw [← List.take_succ_cons]
    exact mantissaBits_take _ _ (by omega)
  by_cases hm : mantissaBitsWithinErrorBound fmt eb (false :: l) = 0
  · -- a proper prefix was already waiting for its next bit
    obtain ⟨hlen, hpre, hmant⟩ := htake fmt.expoBits (Nat.le_refl _) (by omega)
    have hst : (bitwiseRule fmt eb codeLen).status (false :: l.take fmt.expoBits) ≠ .more := by
      simp [bitwiseRule, bitwiseStatus, hlen, hmant, hm]
    have heq := congrArg List.length (h.eq_of_status_ne_more hpre hst)
    simp only [List.length_cons, hlen] at heq
    omega
  · -- the word was complete with its last mantissa bit
    obtain ⟨hlen, hpre, hmant⟩ := htake
      (fmt.expoBits + mantissaBitsWithinErrorBound fmt eb (false :: l)) (by omega) h2
    refine h.status_prefix_ne_done hpre ?_
    simp [bitwiseRule, bitwiseStatus, hlen, hmant, hm]

/-- The partial words that the default reader can be left with. -/
theorem bitwise_open_cases {codeLen : Nat} (hk : 0 < codeLen) {cur : List Bool}
    (h : (bitwiseRule fmt eb codeLen).Open cur) :
    cur = [] ∨ (∃ l, cur = true :: l ∧ l.length + 1 < codeLen) ∨
    (∃ l, cur = false :: l ∧ (l.length ≤ fmt.expoBits ∨
      l.length < fmt.expoBits + mantissaBitsWithinErrorBound fmt eb cur)) := by
  match cur with
  | [] => exact .inl rfl
  | true :: l =>
      refine .inr (.inl ⟨l, rfl, ?_⟩)
      by_contra hlt
      -- the first `codeLen` bits are a code
      refine h.status_prefix_ne_done (List.take_prefix codeLen _) ?_
      obtain ⟨k, rfl⟩ : ∃ k, codeLen = k + 1 := ⟨codeLen - 1, by omega⟩
      have hlen : (l.take k).length = k := by
        rw [List.length_take]
        omega
      simp [bitwiseRule, bitwiseStatus, hlen]
  | false :: l => exact .inr (.inr ⟨l, rfl, bitwise_open_literal h⟩)

theorem bitwise_complete_code {codeLen : Nat} {l : List Bool} (h : l.length + 1 = codeLen) :
    (bitwiseRule fmt eb codeLen).Complete (true :: l) := by
  refine Rule.Complete.of_shorter (by simp [bitwiseRule, bitwiseStatus, h]) fun p hp hlt => ?_
  cases p with
  | nil => rfl
  | cons b p =>
      obtain ⟨rfl, _⟩ := List.cons_prefix_cons.mp hp
      rw [List.length_cons, List.length_cons] at hlt
      simp only [bitwiseRule, bitwiseStatus]
      rw [if_neg (by omega)]

theorem bitwise_complete_literal {codeLen : Nat} {l : List Bool}
    (h : l.length = fmt.expoBits + mantissaBitsWithinErrorBound fmt eb (false :: l)) :
    (bitwiseRule fmt eb codeLen).Complete (false :: l) := by
  refine Rule.Complete.of_shorter ?_ ?_
  · simp only [bitwiseRule, bitwiseStatus]
    rw [if_neg (by omega)]
    by_cases hm : mantissaBitsWithinErrorBound fmt eb (false :: l) = 0
    · rw [if_pos (by omega), if_pos hm]
      decide
    · rw [if_neg (by omega), if_pos h]
      decide
  · intro p hp hlt
    cases p with
    | nil => rfl
    | cons b p =>
        obtain ⟨rfl, _⟩ := List.cons_prefix_cons.mp hp
        rw [List.length_cons, List.length_cons] at hlt
        -- as soon as the exponent is there, the prefix has the same mantissa length
        have hm : fmt.expoBits ≤ p.length →
            mantissaBitsWithinErrorBound fmt eb (false :: p) =
              mantissaBitsWithinErrorBound fmt eb (false :: l) := by
          intro hE
          rw [List.prefix_iff_eq_take.mp hp]
          exact mantissaBits_take _ _ (by simp; omega)
        simp only [bitwiseRule, bitwiseStatus]
        rcases Nat.lt_trichotomy p.length fmt.expoBits with h1 | h1 | h1
        · rw [if_pos h1]
        · rw [if_neg (by omega), if_pos h1, if_neg]
          rw [hm (by omega)]
          omega
        · rw [if_neg (by omega), if_neg (by omega), if_neg]
          rw [hm (by omega)]
          omega

/-- A complete word is a code or a literal with the mantissa bits that its exponent asks for. -/
theorem bitwise_complete_cases {codeLen : Nat} {w : List Bool}
    (h : (bitwiseRule fmt eb codeLen).Complete w) :
    (∃ l, w = true :: l ∧ w.length = codeLen) ∨
    (∃ l, w = false :: l ∧
      w.length = 1 + fmt.expoBits + mantissaBitsWithinErrorBound fmt eb w) := by
  match w with
  | [] => exact absurd rfl h.1
  | true :: l =>
      refine .inl ⟨l, rfl, ?_⟩
      by_contra hlen
      exact h.1 (if_neg hlen)
  | false :: l =>
      refine .inr ⟨l, rfl, ?_⟩
      have hst := h.1
      simp only [bitwiseRule, bitwiseStatus] at hst
      rw [List.length_cons]
      -- either the mantissa is complete or there is none
      split_ifs at hst with h1 h2 h3 h4
      · exact absurd rfl hst
      · omega
      · exact absurd rfl hst
      · omega
      · exact absurd rfl hst

/-- Only a literal without mantissa bits waits for the bit after it. -/
theorem bitwise_waits_iff {codeLen : Nat} (hk : codeLen < 1 + fmt.expoBits) {w : List Bool}
    (h : (bitwiseRule fmt eb codeLen).Complete w) :
    (bitwiseRule fmt eb codeLen).status w = .doneAtNext ↔ w.length = 1 + fmt.expoBits := by
  rcases bitwise_complete_cases h with ⟨l, rfl, hlen⟩ | ⟨l, rfl, hlen⟩
  · constructor
    · intro hst
      simp only [bitwiseRule, bitwiseStatus] at hst
      split at hst <;> simp at hst
    · omega
  · rw [List.length_cons] at hlen
    simp only [bitwiseRule, bitwiseStatus, List.length_cons]
    split_ifs with h1 h2 h3 h4
    all_goals simp
    all_goals omega

/-- Padding bits are too few to end a word. -/
theorem bitwise_frames_zeros {codeLen n : Nat} (hn : n ≤ fmt.expoBits) :
    (bitwiseRule fmt eb codeLen).frames (List.replicate n false) = [] := by
  rw [Rule.frames, Rule.run_more]
  · rfl
  · intro p hp
    rw [List.nil_append]
    cases p with
    | nil => rfl
    | cons b p =>
        have hb : b = false := by
          have hmem : b ∈ List.replicate n false := hp.subset (by simp)
          exact List.eq_of_mem_replicate hmem
        have hlen := hp.length_le
        rw [List.length_cons, List.length_replicate] at hlen
        subst hb
        simp only [bitwiseRule, bitwiseStatus]
        rw [if_pos (by omega)]

/-! ## The default automaton follows its rule -/

section Default

variable {H V : Type} {U : Unpacker H V} {num : Nat} {startOne : Except Fault Int}

/-- Inside a word the bit is appended, and the word is handed over when the count
    runs out, unless it ends with the exponent. -/
theorem decompressStep_append {k : Int} (hk : k ≠ 0) (cur : List Bool) (o : Output H V)
    (b : Bool) :
    decompressStep fmt eb U num startOne ⟨k, cur, o⟩ b =
      if k = 1 ∧ cur.length ≠ fmt.expoBits then
        (U.emit num o (cur ++ [b])).map fun o' => ⟨0, [], o'⟩
      else .ok ⟨k - 1, cur ++ [b], o⟩ := by
  have hlen : (cur ++ [b]).length ≠ 1 + fmt.expoBits ↔ cur.length ≠ fmt.expoBits := by
    simp [Nat.add_comm 1]
  simp only [decompressStep, hk, if_false, pure_bind, hlen]
  by_cases hone : k = 1
  · subst hone
    by_cases he : cur.length = fmt.expoBits
    · simp [he]
      rfl
    · simp only [sub_self, true_and, he, ne_eq, not_false_eq_true, if_true]
      cases U.emit num o (cur ++ [b]) <;> rfl
  · have hk1 : k - 1 ≠ 0 := by omega
    simp [hone, hk1]
    rfl

/-- The first mantissa bit is treated like the others, with the count just set. -/
theorem decompressStep_mantissa {cur : List Bool} (hne : cur ≠ [])
    (hm : 0 < mantissaBitsWithinErrorBound fmt eb cur) (o : Output H V) (b : Bool) :
    decompressStep fmt eb U num startOne ⟨0, cur, o⟩ b =
      decompressStep fmt eb U num startOne
        ⟨mantissaBitsWithinErrorBound fmt eb cur, cur, o⟩ b := by
  have hlen : cur.length ≠ 0 := by simpa using hne
  have hm' : (mantissaBitsWithinErrorBound fmt eb cur : Int) ≠ 0 := by omega
  simp only [decompressStep, hlen, hm, hm', if_true, if_false]

/-- Without mantissa bits the pending word is handed over and the bit starts a word. -/
theorem decompressStep_pending {cur : List Bool} (hne : cur ≠ [])
    (hm : mantissaBitsWithinErrorBound fmt eb cur = 0) (o : Output H V) (b : Bool) :
    decompressStep fmt eb U num startOne ⟨0, cur, o⟩ b =
      (U.emit num o cur).bind fun o' => decompressStep fmt eb U num startOne ⟨0, [], o'⟩ b := by
  have hlen : cur.length ≠ 0 := by simpa using hne
  simp only [decompressStep, hlen, hm, gt_iff_lt, Nat.lt_irrefl, if_true, if_false,
    List.length_nil, Nat.cast_zero]
  cases U.emit num o cur <;> rfl

theorem decompressStep_zero (o : Output H V) :
    decompressStep fmt eb U num startOne (bitwiseState fmt eb [] o) false =
      .ok (bitwiseState fmt eb [false] o) := by
  simp [decompressStep, bitwiseState, bitwiseOffset, startBit]
  rfl

theorem decompressStep_one (o : Output H V) (offset : Int) (hoff : offset ≠ 1) :
    decompressStep fmt eb U num (.ok offset) (bitwiseState fmt eb [] o) true =
      .ok ⟨offset - 1, [true], o⟩ := by
  have hoff' : ¬ (offset - 1 = 0 ∧ [true].length ≠ 1 + fmt.expoBits) := by omega
  exact if_neg hoff'

theorem decompressStep_one_error (o : Output H V) (f : Fault) :
    decompressStep fmt eb U num (.error f) (bitwiseState fmt eb [] o) true = .error f := by
  simp [decompressStep, bitwiseState, bitwiseOffset, startBit]
  rfl

/-- Up to the end of the exponent the count never closes a word. -/
theorem decompressStep_exponentBit {codeLen : Nat} {l : List Bool} (hlt : l.length < fmt.expoBits)
    (o : Output H V) (b : Bool) :
    decompressStep fmt eb U num startOne (bitwiseState fmt eb (false :: l) o) b =
        .ok (bitwiseState fmt eb (false :: l ++ [b]) o) ∧
      (bitwiseRule fmt eb codeLen).status (false :: l ++ [b]) ≠ .done := by
  constructor
  · have hoff : bitwiseOffset fmt eb (false :: l) = fmt.expoBits - l.length := by
      simp [bitwiseOffset, Nat.le_of_lt hlt]
    rw [bitwiseState, hoff, decompressStep_append (by omega), if_neg (by simp; omega)]
    simp only [bitwiseState, bitwiseOffset, List.cons_append, List.length_append,
      List.length_singleton]
    rw [if_pos (by omega)]
    congr 2
    push_cast
    omega
  · simp only [bitwiseRule, bitwiseStatus, List.cons_append, List.length_append,
      List.length_singleton]
    split_ifs <;> first | omega | simp

/-- Among the mantissa bits the count is what is left of them. -/
theorem decompressStep_mantissaBit {codeLen : Nat} {l : List Bool} (hge : fmt.expoBits ≤ l.length)
    (hm : l.length < fmt.expoBits + mantissaBitsWithinErrorBound fmt eb (false :: l))
    (o : Output H V) (b : Bool) :
    decompressStep fmt eb U num startOne
        ⟨fmt.expoBits + mantissaBitsWithinErrorBound fmt eb (false :: l) - l.length, false :: l, o⟩
        b =
      if (bitwiseRule fmt eb codeLen).status (false :: l ++ [b]) = .done then
        (U.emit num o (false :: l ++ [b])).map (bitwiseState fmt eb [])
      else .ok (bitwiseState fmt eb (false :: l ++ [b]) o) := by
  have hmc : mantissaBitsWithinErrorBound fmt eb (false :: (l ++ [b])) =
      mantissaBitsWithinErrorBound fmt eb (false :: l) :=
    @mantissaBits_concat fmt eb (false :: l) (by rw [List.length_cons]; omega) b
  have hdone : (bitwiseRule fmt eb codeLen).status (false :: l ++ [b]) = .done ↔
      l.length + 1 = fmt.expoBits + mantissaBitsWithinErrorBound fmt eb (false :: l) := by
    simp only [bitwiseRule, bitwiseStatus, List.cons_append, List.length_append,
      List.length_singleton, hmc]
    rw [if_neg (by omega), if_neg (by omega)]
    split <;> simp [*]
  have hlen : (false :: l).length ≠ fmt.expoBits := by
    rw [List.length_cons]
    omega
  rw [decompressStep_append (by omega)]
  -- the last mantissa bit closes the word
  by_cases hone : l.length + 1 = fmt.expoBits + mantissaBitsWithinErrorBound fmt eb (false :: l)
  · rw [if_pos ⟨by omega, hlen⟩, if_pos (hdone.mpr hone)]
    rfl
  · rw [if_neg (by omega), if_neg (hdone.not.mpr hone)]
    simp only [bitwiseState, bitwiseOffset, List.cons_append, List.length_append,
      List.length_singleton, hmc]
    rw [if_neg (by omega)]
    congr 2
    push_cast
    omega

/-- In a literal that goes on, the next bit is appended with the count that the
    partial word determines. -/
theorem decompressStep_literal {codeLen : Nat} {l : List Bool}
    (ho : (bitwiseRule fmt eb codeLen).Open (false :: l)) (hk : 0 < codeLen)
    (hmore : (bitwiseRule fmt eb codeLen).status (false :: l) = .more) (o : Output H V)
    (b : Bool) :
    decompressStep fmt eb U num startOne (bitwiseState fmt eb (false :: l) o) b =
      if (bitwiseRule fmt eb codeLen).status (false :: l ++ [b]) = .done then
        (U.emit num o (false :: l ++ [b])).map (bitwiseState fmt eb [])
      else .ok (bitwiseState fmt eb (false :: l ++ [b]) o) := by
  obtain h | ⟨_, h, _⟩ | ⟨l', hl', hcase⟩ := bitwise_open_cases hk ho
  · simp at h
  · simp at h
  obtain rfl : l = l' := by simpa using hl'
  rcases Nat.lt_trichotomy l.length fmt.expoBits with hlt | heq | hgt
  · obtain ⟨hstep, hdone⟩ := @decompressStep_exponentBit fmt eb H V U num startOne codeLen l hlt o b
    rw [hstep, if_neg hdone]
  · -- the count has run out at the exponent and is set to the number of mantissa bits
    have hm : mantissaBitsWithinErrorBound fmt eb (false :: l) ≠ 0 := by
      intro h0
      simp [bitwiseRule, bitwiseStatus, heq, h0] at hmore
    have hoff : bitwiseOffset fmt eb (false :: l) = 0 := by simp [bitwiseOffset, heq]
    have hcount : (mantissaBitsWithinErrorBound fmt eb (false :: l) : Int) =
        fmt.expoBits + mantissaBitsWithinErrorBound fmt eb (false :: l) - l.length := by
      omega
    rw [bitwiseState, hoff, decompressStep_mantissa (by simp) (Nat.pos_of_ne_zero hm), hcount,
      decompressStep_mantissaBit (by omega) (by omega)]
  · have hoff : bitwiseOffset fmt eb (false :: l) =
        fmt.expoBits + mantissaBitsWithinErrorBound fmt eb (false :: l) - l.length := by
      simp only [bitwiseOffset]
      rw [if_neg (by omega)]
    rw [bitwiseState, hoff, decompressStep_mantissaBit (by omega) (by omega)]

/-- A word that waits for its next bit is handed over, and that bit starts a word. -/
theorem decompressStep_waiting {codeLen : Nat} {cur : List Bool}
    (hn : (bitwiseRule fmt eb codeLen).status cur = .doneAtNext) (o : Output H V) (b : Bool) :
    decompressStep fmt eb U num startOne (bitwiseState fmt eb cur o) b =
      (U.emit num o cur).bind fun o' =>
        decompressStep fmt eb U num startOne (bitwiseState fmt eb [] o') b := by
  match cur with
  | [] => simp [bitwiseRule, bitwiseStatus] at hn
  | true :: l =>
      simp only [bitwiseRule, bitwiseStatus] at hn
      split at hn <;> simp at hn
  | false :: l =>
      have hm : l.length = fmt.expoBits ∧
          mantissaBitsWithinErrorBound fmt eb (false :: l) = 0 := by
        simp only [bitwiseRule, bitwiseStatus] at hn
        split_ifs at hn with h1 h2 h3
        exact ⟨h2, h3⟩
      have hoff : bitwiseOffset fmt eb (false :: l) = 0 := by simp [bitwiseOffset, hm.1]
      rw [bitwiseState, hoff, decompressStep_pending (by simp) hm.2]
      rfl

/-- Inside a code the next bit is appended, and the third one closes it. -/
theorem decompressStep_code {l : List Bool} (hl : l.length + 1 < 3) (o : Output H V) (b : Bool) :
    decompressStep fmt eb U num startOne (bitwiseState fmt eb (true :: l) o) b =
      if (bitwiseRule fmt eb 3).status (true :: l ++ [b]) = .done then
        (U.emit num o (true :: l ++ [b])).map (bitwiseState fmt eb [])
      else .ok (bitwiseState fmt eb (true :: l ++ [b]) o) := by
  have hE := fmt.expo_wide
  simp only [bitwiseState, bitwiseOffset]
  rw [decompressStep_append (by omega)]
  have hst : (bitwiseRule fmt eb 3).status (true :: l ++ [b]) = .done ↔ l.length = 1 := by
    simp [bitwiseRule, bitwiseStatus]
  by_cases hone : l.length = 1
  · rw [if_pos (by simp; omega), if_pos (hst.mpr hone)]
    rfl
  · rw [if_neg (by simp; omega), if_neg (hst.not.mpr hone)]
    congr 2
    simp
    omega

/-- The default decompressor follows the rule with 3-bit codes. -/
theorem decompressStep_follows :
    Rule.Follows (decompressStep fmt eb U num (.ok 3)) (U.emit num) (bitwiseState fmt eb)
      (bitwiseRule fmt eb 3) := by
  have hone : ∀ o : Output H V, decompressStep fmt eb U num (.ok 3) (bitwiseState fmt eb [] o)
      true = .ok (bitwiseState fmt eb [true] o) := fun o => decompressStep_one o 3 (by decide)
  apply Rule.Follows.of_cases
  · intro cur o a _ hn
    exact decompressStep_waiting hn o a
  · intro cur o a ho hm hd
    rcases bitwise_open_cases (by decide) ho with rfl | ⟨l, rfl, hl⟩ | ⟨l, rfl, _⟩
    · -- no word is complete after one bit
      exfalso
      have hE := fmt.expo_wide
      have hE0 : fmt.expoBits ≠ 0 := by omega
      cases a <;> simp [bitwiseRule, bitwiseStatus, Nat.pos_of_ne_zero hE0] at hd
    · rw [decompressStep_code hl, if_pos hd]
    · rw [decompressStep_literal ho (by decide) hm, if_pos hd]
  · intro cur o a ho hm ho'
    rcases bitwise_open_cases (by decide) ho with rfl | ⟨l, rfl, hl⟩ | ⟨l, rfl, _⟩
    · cases a with
      | false => exact decompressStep_zero o
      | true => exact hone o
    · rw [decompressStep_code hl, if_neg ho'.1]
    · rw [decompressStep_literal ho (by decide) hm, if_neg ho'.1]

/-- The unpacker of the `np` decompressor with its exit on a leading one, which is
    reached before any word is collected, seen as the unpacking of the word `1`. -/
def exitOnOne (U : Unpacker H V) (f : Fault) : Unpacker H V :=
  ⟨fun bits h => if bits = [true] then .error f else U.decompress bits h, U.push⟩

/-- The decompressor without prediction follows the rule in which a leading one is
    a word of its own. -/
theorem decompressStepNp_follows (f : Fault) :
    Rule.Follows (decompressStep fmt eb U num (.error f)) ((exitOnOne U f).emit num)
      (bitwiseState fmt eb) (bitwiseRule fmt eb 1) := by
  have hemit : ∀ (o : Output H V) (l : List Bool),
      (exitOnOne U f).emit num o (false :: l) = U.emit num o (false :: l) := by
    intro o l
    simp [Unpacker.emit, exitOnOne]
  apply Rule.Follows.of_cases
  · intro cur o a ho hn
    rcases bitwise_open_cases (by decide) ho with rfl | ⟨l, rfl, hl⟩ | ⟨l, rfl, _⟩
    · simp [bitwiseRule, bitwiseStatus] at hn
    · omega
    · rw [hemit]
      exact decompressStep_waiting hn o a
  · intro cur o a ho hm hd
    rcases bitwise_open_cases (by decide) ho with rfl | ⟨l, rfl, hl⟩ | ⟨l, rfl, _⟩
    · -- a leading one is complete at once, and its unpacking is the exit
      cases a with
      | false =>
          have hE0 : fmt.expoBits ≠ 0 := by have hE := fmt.expo_wide; omega
          simp [bitwiseRule, bitwiseStatus, Nat.pos_of_ne_zero hE0] at hd
      | true =>
          rw [decompressStep_one_error]
          simp [Unpacker.emit, exitOnOne]
          rfl
    · omega
    · rw [decompressStep_literal ho (by decide) hm, if_pos hd, List.cons_append, hemit]
  · intro cur o a ho hm ho'
    rcases bitwise_open_cases (by decide) ho with rfl | ⟨l, rfl, hl⟩ | ⟨l, rfl, _⟩
    · cases a with
      | false => exact decompressStep_zero o
      | true =>
          exfalso
          exact ho'.1 (by simp [bitwiseRule, bitwiseStatus])
    · omega
    · rw [decompressStep_literal ho (by decide) hm, if_neg ho'.1]

end Default

/-! ## The automaton of the `op` codec -/

section Op

variable {H V : Type} {U : Unpacker H V} {num : Nat}

/-- `offset_bits` at a partial word of the `op` format. -/
def opOffset (fmt : Format) : List Bool → Int
  | [] => 0
  | true :: l => 3 - (l.length + 1)
  | false :: l => fmt.numBits - (l.length + 1)

def opState (fmt : Format) (cur : List Bool) (o : Output H V) : Automaton H V :=
  ⟨opOffset fmt cur, cur, o⟩

theorem op_open_cases {cur : List Bool} (h : (opRule fmt).Open cur) :
    cur = [] ∨ (∃ l, cur = true :: l ∧ l.length + 1 < 3) ∨
    (∃ l, cur = false :: l ∧ l.length + 1 < fmt.numBits) := by
  have hw : 0 < fmt.numBits := by
    have := fmt.numBits_eq
    omega
  -- a word of at least `k` bits has a finished prefix of `k` bits
  have key : ∀ (b : Bool) (l : List Bool) (k : Nat), 0 < k → cur = b :: l →
      (∀ l' : List Bool, l'.length + 1 = k → (opRule fmt).status (b :: l') = .done) →
      l.length + 1 < k := by
    intro b l k hk hcur hst
    by_contra hlt
    have hlen : (l.take (k - 1)).length + 1 = k := by
      rw [List.length_take]
      omega
    have hpre : b :: l.take (k - 1) <+: cur :=
      hcur ▸ List.cons_prefix_cons.mpr ⟨rfl, List.take_prefix _ _⟩
    exact h.status_prefix_ne_done hpre (hst _ hlen)
  match cur with
  | [] => exact .inl rfl
  | true :: l =>
      refine .inr (.inl ⟨l, rfl, key true l 3 (by decide) rfl ?_⟩)
      intro l' hl'
      simpa [opRule] using hl'
  | false :: l =>
      refine .inr (.inr ⟨l, rfl, key false l fmt.numBits hw rfl ?_⟩)
      intro l' hl'
      simp [opRule, hl']

/-- Inside a word the bit is appended and the last one closes the word. -/
theorem decompressStepOp_append {k : Int} (hk : k ≠ 0) (cur : List Bool) (o : Output H V)
    (b : Bool) :
    decompressStepOp fmt U num ⟨k, cur, o⟩ b =
      if k = 1 then (U.emit num o (cur ++ [b])).map fun o' => ⟨0, [], o'⟩
      else .ok ⟨k - 1, cur ++ [b], o⟩ := by
  simp only [decompressStepOp, hk, if_false, pure_bind]
  by_cases hone : k = 1
  · subst hone
    simp only [sub_self, if_true]
    cases U.emit num o (cur ++ [b]) <;> rfl
  · have hk1 : k - 1 ≠ 0 := by omega
    simp [hone, hk1]
    rfl

/-- Where the rest of the word is `offset_bits` bits, the next one is appended and the last
    of them closes the word. -/
theorem decompressStepOp_bit {cur : List Bool} (hne : opOffset fmt cur ≠ 0) {a : Bool}
    (hdone : (opRule fmt).status (cur ++ [a]) = .done ↔ opOffset fmt cur = 1)
    (hoff : opOffset fmt (cur ++ [a]) = opOffset fmt cur - 1) (o : Output H V) :
    decompressStepOp fmt U num (opState fmt cur o) a =
      if (opRule fmt).status (cur ++ [a]) = .done then
        (U.emit num o (cur ++ [a])).map (opState fmt [])
      else .ok (opState fmt (cur ++ [a]) o) := by
  rw [opState, decompressStepOp_append hne]
  by_cases hone : opOffset fmt cur = 1
  · rw [if_pos hone, if_pos (hdone.mpr hone)]
    rfl
  · rw [if_neg hone, if_neg (hdone.not.mpr hone), opState, hoff]

/-- Inside a word of the `op` format the next bit is appended, and the last one closes it. -/
theorem decompressStepOp_inner {cur : List Bool} (ho : (opRule fmt).Open cur) (hne : cur ≠ [])
    (o : Output H V) (a : Bool) :
    decompressStepOp fmt U num (opState fmt cur o) a =
      if (opRule fmt).status (cur ++ [a]) = .done then
        (U.emit num o (cur ++ [a])).map (opState fmt [])
      else .ok (opState fmt (cur ++ [a]) o) := by
  rcases op_open_cases ho with rfl | ⟨l, rfl, hl⟩ | ⟨l, rfl, hl⟩
  · exact absurd rfl hne
  · have hst : (opRule fmt).status (true :: l ++ [a]) = .done ↔ l.length + 1 + 1 = 3 := by
      simp [opRule]
    refine decompressStepOp_bit ?_ (hst.trans ?_) ?_ o <;>
      simp only [opOffset, List.cons_append, List.length_append, List.length_singleton] <;> omega
  · have hst : (opRule fmt).status (false :: l ++ [a]) = .done ↔
        l.length + 1 + 1 = fmt.numBits := by
      simp [opRule]
    refine decompressStepOp_bit ?_ (hst.trans ?_) ?_ o <;>
      simp only [opOffset, List.cons_append, List.length_append, List.length_singleton] <;> omega

/-- The `op` decompressor follows its rule. -/
theorem decompressStepOp_follows :
    Rule.Follows (decompressStepOp fmt U num) (U.emit num) (opState fmt) (opRule fmt) := by
  have hw : 3 < fmt.numBits := by
    have := fmt.numBits_eq
    have := fmt.expo_wide
    omega
  apply Rule.Follows.of_cases
  · -- no word of this format waits for its next bit
    intro cur o a ho hn
    rcases op_open_cases ho with rfl | ⟨l, rfl, _⟩ | ⟨l, rfl, _⟩
    · simp [opRule] at hn
    all_goals
      simp only [opRule] at hn
      split at hn <;> simp at hn
  · intro cur o a ho _ hd
    by_cases hne : cur = []
    · subst hne
      cases a <;> simp [opRule] at hd
      omega
    · rw [decompressStepOp_inner ho hne, if_pos hd]
  · intro cur o a ho _ ho'
    by_cases hne : cur = []
    · subst hne
      have hw1 : ¬ ((fmt.numBits : Int) - 1 = 0) := by omega
      cases a with
      | false => exact if_neg hw1
      | true => rfl
    · rw [decompressStepOp_inner ho hne, if_neg ho'.1]

end Op

/-! ## The decompressors as readers of frames -/

section Frames

variable {V : Type} (A : FloatArith fmt V) (dataBits : List (BitVec 8)) (num : Nat)

theorem out_of_follows {H : Type} {r : Rule Bool} {U : Unpacker H V}
    {step : Automaton H V → Bool → Except Fault (Automaton H V)}
    {ctl : List Bool → Output H V → Automaton H V} (hf : Rule.Follows step (U.emit num) ctl r)
    (hout : ∀ cur o, (ctl cur o).out = o) (bs : List Bool) (o : Output H V) :
    (do let s ← bs.foldlM step (ctl [] o); return s.out) =
      (r.frames bs).foldlM (U.emit num) o := by
  rw [hf.run_frames bs o]
  cases (r.frames bs).foldlM (U.emit num) o with
  | error f => rfl
  | ok o' => exact congrArg Except.ok (hout _ o')

theorem decompressWith_eq_frames :
    decompressWith A dataBits num =
      ((bitwiseRule fmt A.errorBound 3).frames (readBits dataBits)).foldlM
        ((unpacker A).emit num) ⟨History.init A, [], []⟩ :=
  out_of_follows num decompressStep_follows (fun _ _ => rfl) _ _

theorem decompressNp_eq_frames :
    decompressNp A dataBits num =
      ((bitwiseRule fmt A.errorBound 1).frames (readBits dataBits)).foldlM
        ((exitOnOne (unpackerNp A) (.exit "Error leading bit 1\n")).emit num) ⟨(), [], []⟩ :=
  out_of_follows num (decompressStepNp_follows _) (fun _ _ => rfl) _ _

theorem decompressOp_eq_frames :
    decompressOp A dataBits num =
      ((opRule fmt).frames (readBits dataBits)).foldlM
        ((unpacker A).emit num) ⟨History.init A, [], []⟩ :=
  out_of_follows num decompressStepOp_follows (fun _ _ => rfl) _ _

end Frames

/-! ## Emitting a list of words -/

section Emit

variable {H V : Type} {U : Unpacker H V} {num : Nat}

/-- What a successful `emit` did. -/
theorem Unpacker.emit_ok {o o' : Output H V} {w : List Bool} (h : U.emit num o w = .ok o') :
    ∃ v, U.decompress w o.hist = .ok v ∧ o.decompressed.length < num ∧
      o' = ⟨U.push o.hist v, o.decompressed ++ [v], o.words ++ [w]⟩ := by
  obtain ⟨v, hd, hstore⟩ := bind_eq_ok h
  -- the value is stored if a slot is left
  have h' : (if o.decompressed.length < num then
      (pure ⟨U.push o.hist v, o.decompressed ++ [v], o.words ++ [w]⟩ :
        Except Fault (Output H V)) else throw .outOfBounds) = .ok o' := hstore
  by_cases hlt : o.decompressed.length < num
  · rw [if_pos hlt] at h'
    exact ⟨v, hd, hlt, (Except.ok.inj h').symm⟩
  · rw [if_neg hlt] at h'
    cases h'

theorem Unpacker.emit_of_ok {o : Output H V} {w : List Bool} {v : V}
    (hd : U.decompress w o.hist = .ok v) (hlt : o.decompressed.length < num) :
    U.emit num o w = .ok ⟨U.push o.hist v, o.decompressed ++ [v], o.words ++ [w]⟩ := by
  unfold Unpacker.emit
  rw [hd]
  exact if_pos hlt

/-- After a successful run the log has grown by exactly the words, one value each. -/
theorem Unpacker.words_of_foldlM {ws : List (List Bool)} {o o' : Output H V}
    (h : ws.foldlM (U.emit num) o = .ok o') :
    o'.words = o.words ++ ws ∧
      o'.decompressed.length = o.decompressed.length + ws.length := by
  induction ws generalizing o with
  | nil =>
      cases h
      simp
  | cons w ws ih =>
      rw [List.foldlM_cons] at h
      obtain ⟨o₁, he, h⟩ := bind_eq_ok h
      obtain ⟨v, _, _, rfl⟩ := Unpacker.emit_ok he
      obtain ⟨hw, hl⟩ := ih h
      refine ⟨by simpa using hw, ?_⟩
      rw [List.length_append, List.length_singleton] at hl
      rw [List.length_cons]
      omega

/-- The value in slot `i` is the word `i` unpacked against the values before it. -/
theorem Unpacker.decompress_of_foldlM {ws : List (List Bool)} {o o' : Output H V}
    (h : ws.foldlM (U.emit num) o = .ok o') :
    ∃ vs, o'.decompressed = o.decompressed ++ vs ∧ vs.length = ws.length ∧
      ∀ i w v, ws[i]? = some w → vs[i]? = some v →
        U.decompress w ((vs.take i).foldl U.push o.hist) = .ok v := by
  induction ws generalizing o with
  | nil =>
      cases h
      exact ⟨[], by simp, rfl, by simp⟩
  | cons w ws ih =>
      rw [List.foldlM_cons] at h
      obtain ⟨o₁, he, h⟩ := bind_eq_ok h
      obtain ⟨v, hv, _, rfl⟩ := Unpacker.emit_ok he
      obtain ⟨vs, hdec, hlen, hvs⟩ := ih h
      refine ⟨v :: vs, by simp [hdec], by simp [hlen], ?_⟩
      intro i w' v' hw' hv'
      cases i with
      | zero =>
          obtain rfl : w = w' := by simpa using hw'
          obtain rfl : v = v' := by simpa using hv'
          exact hv
      | succ i => exact hvs i w' v' (by simpa using hw') (by simpa using hv')

/-- Words that can be unpacked are emitted as long as slots are left. -/
theorem Unpacker.foldlM_ok {ws : List (List Bool)} {o : Output H V}
    (hd : ∀ w ∈ ws, ∀ h, ∃ v, U.decompress w h = .ok v)
    (hnum : o.decompressed.length + ws.length ≤ num) :
    ∃ o', ws.foldlM (U.emit num) o = .ok o' := by
  induction ws generalizing o with
  | nil => exact ⟨o, rfl⟩
  | cons w ws ih =>
      obtain ⟨v, hv⟩ := hd w (by simp) o.hist
      rw [List.length_cons] at hnum
      rw [List.foldlM_cons, Unpacker.emit_of_ok hv (by omega)]
      refine ih (fun w' hw' => hd w' (by simp [hw'])) ?_
      simp only [List.length_append, List.length_singleton]
      omega

end Emit

end MpiApps.Codec
