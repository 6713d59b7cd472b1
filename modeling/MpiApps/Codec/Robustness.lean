/-
  MpiApps.Codec.Robustness

  The decompressors on arbitrary bytes.

  A truncated or corrupted stream makes a decompressor emit other values, and it may
  emit more of them than `decompressed` has slots.  Its scratch state stays within
  bounds all the same: after any number of bits the automaton is at an open word of its
  framing rule, and the words of the rule are never longer than a number.
-/

import MpiApps.Codec.OnlyPrediction

namespace MpiApps.Codec

open MpiApps.BinaryFormat
open MpiApps.Framing

variable {fmt : Format} {eb : ErrorBound}

/-! ## Safe states -/

/-- The states that a loop over the bits of `dataBits` goes through. -/
def Reaches {S E : Type} (step : S → Bool → Except E S) (init : S) (dataBits : List (BitVec 8))
    (s : S) : Prop :=
  ∃ bs, bs <+: readBits dataBits ∧ bs.foldlM step init = .ok s

/-- The scratch variables are in range, every string that was handed over fits the buffer
    of a number and can be unpacked against any history, and the next bit cannot fail
    except on a full output array. -/
structure ScratchSafe {V : Type} (A : FloatArith fmt V) (num : Nat)
    (step : Automaton (History V) V → Bool → Except Fault (Automaton (History V) V))
    (s : Automaton (History V) V) : Prop where
  offset_nonneg : 0 ≤ s.offsetBits
  bits_le : s.bits.length ≤ fmt.numBits
  words_le : ∀ w ∈ s.out.words, w.length ≤ fmt.numBits
  words_ok : ∀ w ∈ s.out.words, ∀ h, ∃ v, decompressBitwise A w h = .ok v
  step_fault : ∀ bit f, step s bit = .error f →
    f = .outOfBounds ∧ num ≤ s.out.decompressed.length

/-! ## Machines that follow a rule -/

section Follows

variable {H V : Type} {U : Unpacker H V} {num : Nat} {r : Rule Bool}
  {step : Automaton H V → Bool → Except Fault (Automaton H V)}
  {ctl : List Bool → Output H V → Automaton H V}

/-- A state that is reached stands for an open word, and its log holds complete words. -/
theorem reaches_follows (hf : Rule.Follows step (U.emit num) ctl r) {dataBits : List (BitVec 8)}
    {h : H} {s : Automaton H V} (hs : Reaches step (ctl [] ⟨h, [], []⟩) dataBits s) :
    ∃ cur o, s = ctl cur o ∧ r.Open cur ∧ o.decompressed.length = o.words.length ∧
      ∀ w ∈ o.words, r.Complete w := by
  obtain ⟨bs, _, hrun⟩ := hs
  rw [hf.run_frames] at hrun
  obtain ⟨o, he, hrun⟩ := bind_eq_ok hrun
  obtain ⟨hw, hlen⟩ := Unpacker.words_of_foldlM he
  refine ⟨_, o, (Except.ok.inj hrun).symm, Rule.open_nil.run bs, by simp [hw, hlen], ?_⟩
  rw [hw, List.nil_append]
  exact fun w => Rule.complete_of_mem_frames

/-- Words that can always be unpacked are emitted while slots are left. -/
theorem foldlM_emit_fault {ws : List (List Bool)}
    (hok : ∀ w ∈ ws, ∀ h, ∃ v, U.decompress w h = .ok v) {o : Output H V} {f : Fault}
    (he : ws.foldlM (U.emit num) o = .error f) :
    f = .outOfBounds ∧ num < o.decompressed.length + ws.length := by
  induction ws generalizing o with
  | nil => cases he
  | cons w ws ih =>
      obtain ⟨v, hv⟩ := hok w (by simp) o.hist
      rw [List.foldlM_cons] at he
      by_cases hlt : o.decompressed.length < num
      · rw [Unpacker.emit_of_ok hv hlt] at he
        obtain ⟨hf, hnum⟩ := ih (fun w' hw' => hok w' (by simp [hw'])) he
        rw [List.length_append, List.length_singleton] at hnum
        exact ⟨hf, by rw [List.length_cons]; omega⟩
      · have hemit : U.emit num o w = .error .outOfBounds := by
          unfold Unpacker.emit
          rw [hv]
          exact if_neg hlt
        rw [hemit] at he
        cases he
        exact ⟨rfl, by rw [List.length_cons]; omega⟩

/-- The next bit can only fail on a full output array. -/
theorem step_fault_of_follows (hf : Rule.Follows step (U.emit num) ctl r)
    (hone : ∀ b, r.status [b] ≠ .done)
    (hok : ∀ w, r.Complete w → ∀ h, ∃ v, U.decompress w h = .ok v) {cur : List Bool}
    (hcur : r.Open cur) {o : Output H V} {bit : Bool} {f : Fault}
    (he : step (ctl cur o) bit = .error f) :
    f = .outOfBounds ∧ num ≤ o.decompressed.length := by
  rw [hf cur o bit hcur] at he
  cases hm : (r.step ⟨cur, []⟩ bit).out.foldlM (U.emit num) o with
  | ok o' =>
      rw [hm] at he
      cases he
  | error f' =>
      rw [hm] at he
      cases he
      have hcomplete : ∀ w ∈ (r.step ⟨cur, []⟩ bit).out, r.Complete w := fun w hw =>
        @Rule.complete_of_mem_run _ _ [bit] _ _ hcur hw
      obtain ⟨hfault, hnum⟩ := foldlM_emit_fault (fun w hw => hok w (hcomplete w hw)) hm
      have hlen := hcur.step_out_length hone bit
      exact ⟨hfault, by omega⟩

/-- With a slot for every bit of the stream the machine returns. -/
theorem returns_of_follows (hf : Rule.Follows step (U.emit num) ctl r)
    (hok : ∀ w, r.Complete w → ∀ h, ∃ v, U.decompress w h = .ok v) {bs : List Bool} {h : H}
    (hnum : bs.length ≤ num) : ∃ s, bs.foldlM step (ctl [] ⟨h, [], []⟩) = .ok s := by
  have hlen := Rule.frames_length_le (r := r) bs
  have hslots : (⟨h, [], []⟩ : Output H V).decompressed.length + (r.frames bs).length ≤ num := by
    rw [List.length_nil]
    omega
  obtain ⟨o, ho⟩ := Unpacker.foldlM_ok
    (fun w hw => hok w (Rule.complete_of_mem_frames hw)) hslots
  exact ⟨_, by rw [hf.run_frames, ho]; rfl⟩

end Follows

/-! ## The two automata -/

section Members

variable {V : Type} (A : FloatArith fmt V) (num : Nat)

theorem bitwiseOffset_nonneg {cur : List Bool} (h : (bitwiseRule fmt eb 3).Open cur) :
    0 ≤ bitwiseOffset fmt eb cur := by
  rcases bitwise_open_cases (by decide) h with rfl | ⟨l, rfl, hl⟩ | ⟨l, rfl, hl⟩
  · exact Int.le_refl 0
  · simp only [bitwiseOffset]
    omega
  · simp only [bitwiseOffset]
    split <;> omega

theorem bitwise_open_length_le {cur : List Bool} (h : (bitwiseRule fmt eb 3).Open cur) :
    cur.length ≤ fmt.numBits := by
  have hE := fmt.expo_wide
  have hW := fmt.numBits_eq
  have hm := mantissaBits_le fmt eb cur
  rcases bitwise_open_cases (by decide) h with rfl | ⟨l, rfl, hl⟩ | ⟨l, rfl, hl⟩
  · exact Nat.zero_le _
  · rw [List.length_cons]
    omega
  · rw [List.length_cons]
    omega

/-- Every state of the default decompressor is safe. -/
theorem decompressStep_safe {dataBits : List (BitVec 8)} {s : Automaton (History V) V}
    (hs : Reaches (decompressStep fmt A.errorBound (unpacker A) num (.ok 3))
      ⟨0, [], History.init A, [], []⟩ dataBits s) :
    ScratchSafe A num (decompressStep fmt A.errorBound (unpacker A) num (.ok 3)) s := by
  have hE := fmt.expo_wide
  have hW := fmt.numBits_eq
  obtain ⟨cur, o, rfl, hcur, _, hwords⟩ := reaches_follows decompressStep_follows hs
  have hone : ∀ b, (bitwiseRule fmt A.errorBound 3).status [b] ≠ .done := by
    intro b
    cases b
    · simp [bitwiseRule, bitwiseStatus, show 0 < fmt.expoBits by omega]
    · simp [bitwiseRule, bitwiseStatus]
  exact
    { offset_nonneg := bitwiseOffset_nonneg hcur
      bits_le := bitwise_open_length_le hcur
      words_le := fun w hw => complete_length_le (by omega) (hwords w hw)
      words_ok := fun w hw h => unpacker_ok A (hwords w hw) h
      step_fault := fun _ _ he => step_fault_of_follows decompressStep_follows hone
        (fun _ hw h => unpacker_ok A hw h) hcur he }

/-- Every state of the `op` decompressor is safe. -/
theorem decompressStepOp_safe {dataBits : List (BitVec 8)} {s : Automaton (History V) V}
    (hs : Reaches (decompressStepOp fmt (unpacker A) num) ⟨0, [], History.init A, [], []⟩
      dataBits s) :
    ScratchSafe A num (decompressStepOp fmt (unpacker A) num) s := by
  have hE := fmt.expo_wide
  have hW := fmt.numBits_eq
  obtain ⟨cur, o, rfl, hcur, _, hwords⟩ := reaches_follows decompressStepOp_follows hs
  have hone : ∀ b, (opRule fmt).status [b] ≠ .done := by
    intro b
    cases b <;> simp [opRule]
    omega
  have hle : ∀ w, (opRule fmt).Complete w → w.length ≤ fmt.numBits := by
    intro w hw
    rcases op_complete_cases hw with ⟨_, _, hlen⟩ | ⟨_, _, hlen⟩ <;> omega
  have hopen : 0 ≤ opOffset fmt cur ∧ cur.length ≤ fmt.numBits := by
    rcases op_open_cases hcur with rfl | ⟨l, rfl, hl⟩ | ⟨l, rfl, hl⟩
    · exact ⟨Int.le_refl 0, Nat.zero_le _⟩
    · rw [opOffset, List.length_cons]
      omega
    · rw [opOffset, List.length_cons]
      omega
  exact
    { offset_nonneg := hopen.1
      bits_le := hopen.2
      words_le := fun w hw => hle w (hwords w hw)
      words_ok := fun w hw h => op_unpacker_ok A (hwords w hw) h
      step_fault := fun _ _ he => step_fault_of_follows decompressStepOp_follows hone
        (fun _ hw h => op_unpacker_ok A hw h) hcur he }

end Members

/-- On every byte string and with any number of slots, the default and `op` decompressors
    only go through safe states.  A call that wrote outside its buffer or met the start
    bit 0 of a code would be a fault of the run with one slot more as well. -/
theorem decompress_scratchSafe {V W : Type} (A : FloatArith double V) (B : FloatArith float W)
    (dataBits : List (BitVec 8)) (num : Nat) :
    ((∀ s, Reaches (decompressStep double A.errorBound (unpacker A) num (.ok 3))
          ⟨0, [], History.init A, [], []⟩ dataBits s →
        ScratchSafe A num (decompressStep double A.errorBound (unpacker A) num (.ok 3)) s) ∧
      (∀ s, Reaches (decompressStepOp double (unpacker A) num)
          ⟨0, [], History.init A, [], []⟩ dataBits s →
        ScratchSafe A num (decompressStepOp double (unpacker A) num) s)) ∧
    ((∀ s, Reaches (decompressStep float B.errorBound (unpacker B) num (.ok 3))
          ⟨0, [], History.init B, [], []⟩ dataBits s →
        ScratchSafe B num (decompressStep float B.errorBound (unpacker B) num (.ok 3)) s) ∧
      (∀ s, Reaches (decompressStepOp float (unpacker B) num)
          ⟨0, [], History.init B, [], []⟩ dataBits s →
        ScratchSafe B num (decompressStepOp float (unpacker B) num) s)) :=
  ⟨⟨fun _ hs => decompressStep_safe A num hs, fun _ hs => decompressStepOp_safe A num hs⟩,
    ⟨fun _ hs => decompressStep_safe B num hs, fun _ hs => decompressStepOp_safe B num hs⟩⟩

/-- With a slot for every bit the decompressors return on every byte string. -/
theorem decompress_returns {V : Type} (A : FloatArith fmt V) {dataBits : List (BitVec 8)}
    {num : Nat} (hnum : 8 * dataBits.length ≤ num) :
    (∃ o, decompressWith A dataBits num = .ok o) ∧ ∃ o, decompressOp A dataBits num = .ok o := by
  rw [← readBits_length] at hnum
  obtain ⟨s, hs⟩ := returns_of_follows (h := History.init A)
    (@decompressStep_follows _ A.errorBound _ _ _ _) (fun _ hw h => unpacker_ok A hw h) hnum
  obtain ⟨s', hs'⟩ := returns_of_follows (h := History.init A)
    (@decompressStepOp_follows fmt _ _ _ _) (fun _ hw h => op_unpacker_ok A hw h) hnum
  constructor
  · exact ⟨s.out, by rw [decompressWith]; exact congrArg (· >>= fun s => pure s.out) hs⟩
  · exact ⟨s'.out, by rw [decompressOp]; exact congrArg (· >>= fun s => pure s.out) hs'⟩

end MpiApps.Codec
