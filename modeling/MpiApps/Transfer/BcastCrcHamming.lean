/-
  MpiApps.Transfer.BcastCrcHamming

  `MPI_Bcast_bitwise_crc_hamming`: a compressed broadcast of doubles under CRC and Hamming
  protection, with errors injected at the bit error rate of the header.

  Below three million bits the injection flips at most two of them.  That is never more than
  the stage can see: whatever `rand()` returns, a rank repairs the payload or asks for it
  again, and every run ends with the compressed doubles at every rank
  (`bcastCrcHamming_delivers`).
-/

import MpiApps.Fault.Detection
import MpiApps.Transfer.Resend

namespace MpiApps.Transfer

open MpiApps.BinaryFormat MpiApps.Codec MpiApps.Fault MpiApps.MessagePassing

/-! ## The code -/

/-- The loop over `bit_flip`: `data_bytes*8/to` calls, where `to` is `1/BER`, for the values
    of `rand()`. -/
def injectErrors (rand : Nat → Nat) (dataBytes : Nat) (dataBits : List (BitVec 8)) :
    List (BitVec 8) :=
  bitFlips ((List.range (dataBytes * 8 / 1000000)).map rand) dataBits

section Code

variable {R : Type} [DecidableEq R]

/-- The loop that broadcasts `c[i]` for the remaining blocks. -/
def bcastBlocks (ranks : List R) (root rank : R) :
    Nat → List (List Char) → (List (List Char) → Proc R (Tag R) Wire CrcReturn) →
      Proc R (Tag R) Wire CrcReturn
  | 0, _, k => k []
  | n + 1, c, k =>
    bcast ranks root rank .bcast (.chars (c.headD [])) fun
      | .chars ci => bcastBlocks ranks root rank n c.tail fun cs => k (ci :: cs)
      | _ => .abort

/-- `MPI_Bcast_bitwise_crc_hamming` at one rank. -/
def mpiBcastBitwiseCrcHamming [NanRule] (crc32 : BitVec 32 → BitVec 8 → BitVec 32)
    (eb : ErrorBound) (rand : Nat → Nat) (ranks : List R) (root rank : R)
    (buffer : List (BitVec 64)) (resend : Nat) : Proc R (Tag R) Wire CrcReturn :=
  let small := toSmallDatasetDouble buffer
  let s := myCompressBitwiseDouble (FloatArith.ieee double eb) small.2
  let decompressed := fun dataBits => decompressedDouble eb dataBits buffer.length
  let ownBytes := if rank = root then s.bytes else 0
  let ownMin := if rank = root then small.1 else 0
  bcast ranks root rank .bcast (.ints [ownBytes]) fun
    | .ints [dataBytes] =>
      bcast ranks root rank .bcast (.real ownMin) fun
        | .real min =>
          let plan := planBitwiseCrcHamming dataBytes
          -- the root encodes its blocks, the others allocate
          let own : Payload :=
            if rank = root then protect crc32 plan (s.dataBits.take s.bytes) else ⟨[], 0, [], []⟩
          bcast ranks root rank .bcast (.bytes own.dataBits) fun
            | .bytes dataBits =>
              bcast ranks root rank .bcast (.word own.crc) fun
                | .word crc =>
                  bcast ranks root rank .bcast (.ints own.r) fun
                    | .ints r =>
                      bcastBlocks ranks root rank plan.bsNum own.c fun c =>
                        if rank = root then
                          gather ranks root rank .gather (.chars ['y'])
                            (resendThenReturn decompressed ranks root buffer resend dataBits)
                        else
                          let out := crcHammingStage crc32 plan
                            ⟨injectErrors rand dataBytes (dataBits.take dataBytes), crc, r, c⟩
                          gather ranks root rank .gather (.chars [out.1]) fun _ =>
                            recvAgain root rank dataBytes out.1 out.2
                              (storeBuffer decompressed buffer.length min resend)
                    | _ => .abort
                | _ => .abort
            | _ => .abort
        | _ => .abort
    | _ => .abort

end Code

/-! ## The payload -/

@[simp] theorem injectErrors_length (rand : Nat → Nat) (dataBytes : Nat)
    (dataBits : List (BitVec 8)) :
    (injectErrors rand dataBytes dataBits).length = dataBits.length := bitFlips_length _ _

section Payload

variable [NanRule] (crc32 : BitVec 32 → BitVec 8 → BitVec 32) (eb : ErrorBound)

/-- Every element is written with at least one bit. -/
theorem sentBits_ne_nil {buffer : List (BitVec 64)} (hcount : 1 ≤ buffer.length) :
    0 < (sentBits eb buffer).length := by
  refine compressWith_pos (FloatArith.ieee double eb) _ (fun x => ?_)
    (hcount.trans (toSmallDatasetDouble_length buffer).ge)
  rw [literal_length]
  omega

/-- The blocks of the root's payload. -/
def sentPlan (buffer : List (BitVec 64)) : BlockPlan :=
  planBitwiseCrcHamming (sentBits eb buffer).length

/-- What a rank other than the root has before its check. -/
def arrivedWith (rand : Nat → Nat) (buffer : List (BitVec 64)) : Payload :=
  withFlips crc32 (sentPlan eb buffer) (sentBits eb buffer)
    (injectErrors rand (sentBits eb buffer).length (sentBits eb buffer))

/-- Up to two flips are within the radius of the stage. -/
theorem arrivedWith_withinRadius (rand : Nat → Nat) {buffer : List (BitVec 64)}
    (hcount : 1 ≤ buffer.length) (hbits : (sentBits eb buffer).length * 8 < 3000000) :
    WithinRadius zlibCrc32 (sentPlan eb buffer) (sentBits eb buffer)
      (arrivedWith zlibCrc32 eb rand buffer) := by
  have hbs : 0 < blockSize (sentBits eb buffer).length :=
    blockSizeOf_pos (by decide) (sentBits_ne_nil eb hcount)
  refine FewFlips.withinRadius (bitFlips_fewFlips hbs (sentBits eb buffer) ?_) (by omega)
  rw [List.length_map, List.length_range]
  omega

end Payload

/-! ## The ranks -/

section Ranks

variable {R : Type} [DecidableEq R] (ranks : List R) {root rank : R}

theorem localRun_bcastBlocks_root (root : R) (c : List (List Char))
    (k : List (List Char) → Proc R (Tag R) Wire CrcReturn) :
    LocalRun (bcastBlocks ranks root root c.length c k) (announcements ranks root (c.map .chars))
      (k c) := by
  induction c generalizing k with
  | nil => exact .refl _
  | cons ci c ih =>
      rw [List.length_cons, bcastBlocks, List.map_cons, announcements_cons]
      exact (localRun_bcast_root ranks root _ _ _).trans (ih fun cs => k (ci :: cs))

theorem localRun_bcastBlocks (hrank : rank ≠ root) (c own : List (List Char))
    (k : List (List Char) → Proc R (Tag R) Wire CrcReturn) :
    LocalRun (bcastBlocks ranks root rank c.length own k)
      ((c.map Wire.chars).map fun m => .received root .bcast m) (k c) := by
  induction c generalizing own k with
  | nil => exact .refl _
  | cons ci c ih =>
      rw [List.length_cons, bcastBlocks, List.map_cons, List.map_cons]
      exact (localRun_bcast hrank ranks _ _ (Wire.chars ci) _).trans
        (ih own.tail fun cs => k (ci :: cs))

variable [NanRule] (crc32 : BitVec 32 → BitVec 8 → BitVec 32) (eb : ErrorBound)

/-- What the root broadcasts. -/
def hammingWires (buffer : List (BitVec 64)) : List Wire :=
  .ints [(sentBits eb buffer).length] :: .real (toSmallDatasetDouble buffer).1 ::
    (protect crc32 (sentPlan eb buffer) (sentBits eb buffer)).wires

theorem localRun_crcHamming_root (root : R) (buffer : List (BitVec 64)) (resend : Nat)
    (rand : Nat → Nat) :
    LocalRun (mpiBcastBitwiseCrcHamming crc32 eb rand ranks root root buffer resend)
      (announcements ranks root (hammingWires crc32 eb buffer))
      (gather ranks root root .gather (.chars ['y'])
        (resendThenReturn (fun dataBits => decompressedDouble eb dataBits buffer.length) ranks
          root buffer resend (sentBits eb buffer))) := by
  obtain ⟨hbytes, htake⟩ := compressed_take eb buffer
  have hc := localRun_bcastBlocks_root ranks root
    (protect crc32 (sentPlan eb buffer) (sentBits eb buffer)).c fun _ =>
      gather ranks root root .gather (.chars ['y'])
        (resendThenReturn (fun dataBits => decompressedDouble eb dataBits buffer.length) ranks
          root buffer resend (sentBits eb buffer))
  rw [protect_c_length] at hc
  simp only [mpiBcastBitwiseCrcHamming, if_true, hammingWires, Payload.wires, List.cons_append,
    List.nil_append, announcements_cons]
  rw [← sentBits, htake, hbytes]
  refine (localRun_bcast_root ranks root _ _ _).trans ?_
  refine (localRun_bcast_root ranks root _ _ _).trans ?_
  refine (localRun_bcast_root ranks root _ _ _).trans ?_
  refine (localRun_bcast_root ranks root _ _ _).trans ?_
  exact (localRun_bcast_root ranks root _ _ _).trans hc

theorem localRun_crcHamming (hrank : rank ≠ root) (own buffer : List (BitVec 64)) (resend : Nat)
    (rand : Nat → Nat) :
    let out := crcHammingStage crc32 (sentPlan eb buffer) (arrivedWith crc32 eb rand buffer)
    LocalRun (mpiBcastBitwiseCrcHamming crc32 eb rand ranks root rank own resend)
      (reported root (hammingWires crc32 eb buffer) (.chars [out.1]))
      (recvAgain root rank (sentBits eb buffer).length out.1 out.2
        (storeBuffer (fun dataBits => decompressedDouble eb dataBits own.length) own.length
          (toSmallDatasetDouble buffer).1 resend)) := by
  intro out
  have hg := localRun_gather hrank ranks Tag.gather (Wire.chars [out.1]) fun _ =>
    recvAgain root rank (sentBits eb buffer).length out.1 out.2
      (storeBuffer (fun dataBits => decompressedDouble eb dataBits own.length) own.length
        (toSmallDatasetDouble buffer).1 resend)
  have hc := localRun_bcastBlocks ranks hrank
    (protect crc32 (sentPlan eb buffer) (sentBits eb buffer)).c [] fun c =>
      let out := crcHammingStage crc32 (sentPlan eb buffer)
        ⟨injectErrors rand (sentBits eb buffer).length (sentBits eb buffer),
          doCrc32 crc32 (sentBits eb buffer),
          (protect crc32 (sentPlan eb buffer) (sentBits eb buffer)).r, c⟩
      gather ranks root rank .gather (.chars [out.1]) fun _ =>
        recvAgain root rank (sentBits eb buffer).length out.1 out.2
          (storeBuffer (fun dataBits => decompressedDouble eb dataBits own.length) own.length
            (toSmallDatasetDouble buffer).1 resend)
  rw [protect_c_length] at hc
  -- number, minimum, payload, CRC and lengths come in, then the check characters
  simp only [mpiBcastBitwiseCrcHamming, if_neg hrank, reported, hammingWires, Payload.wires,
    List.cons_append, List.nil_append, List.map_cons]
  refine (localRun_bcast hrank ranks _ _ (Wire.ints [(sentBits eb buffer).length]) _).trans ?_
  refine (localRun_bcast hrank ranks _ _ (Wire.real (toSmallDatasetDouble buffer).1) _).trans ?_
  refine (localRun_bcast hrank ranks _ _ (Wire.bytes (sentBits eb buffer)) _).trans ?_
  refine (localRun_bcast hrank ranks _ _
    (Wire.word (doCrc32 crc32 (sentBits eb buffer))) _).trans ?_
  refine (localRun_bcast hrank ranks _ _
    (Wire.ints (protect crc32 (sentPlan eb buffer) (sentBits eb buffer)).r) _).trans ?_
  simp only [List.take_length]
  exact hc.trans hg

end Ranks

/-! ## The broadcast -/

section Broadcast

variable [NanRule] {n : Nat} {crc32 : BitVec 32 → BitVec 8 → BitVec 32} {eb : ErrorBound}
  {rand : Fin n → Nat → Nat} {root : Fin n} {buffers : Fin n → List (BitVec 64)}
  {resend : Fin n → Nat}

/-- The ranks that cannot repair what has arrived. -/
def beyondRepair (crc32 : BitVec 32 → BitVec 8 → BitVec 32) (eb : ErrorBound)
    (rand : Fin n → Nat → Nat) (root : Fin n) (buffer : List (BitVec 64)) : Finset (Fin n) :=
  Finset.univ.filter fun r => r ≠ root ∧ NeedsResend (sentPlan eb buffer) (sentBits eb buffer)
    (arrivedWith crc32 eb (rand r) buffer)

/-- Within the radius of the stage at every rank the payload is delivered. -/
theorem crcHamming_redelivers (hcount : 1 ≤ (buffers root).length)
    (hbuffers : ∀ r, (buffers r).length = (buffers root).length)
    (hradius : ∀ r, r ≠ root → WithinRadius crc32 (sentPlan eb (buffers root))
      (sentBits eb (buffers root)) (arrivedWith crc32 eb (rand r) (buffers root)))
    {d : List (BitVec 64)}
    (hd : decompressedDouble eb (sentBits eb (buffers root)) (buffers root).length = .ok d) :
    Redelivers (fun rank => mpiBcastBitwiseCrcHamming crc32 eb (rand rank) (List.finRange n) root
        rank (buffers rank) (resend rank)) root (sentBits eb (buffers root))
      (beyondRepair crc32 eb rand root (buffers root))
      (deliveredTo root (buffers root) (toSmallDatasetDouble (buffers root)).1 d resend
        (beyondRepair crc32 eb rand root (buffers root))) := by
  have hbs : 0 < blockSize (sentBits eb (buffers root)).length :=
    blockSizeOf_pos (by decide) (sentBits_ne_nil eb hcount)
  have hmem : ∀ r, r ∈ beyondRepair crc32 eb rand root (buffers root) ↔ r ≠ root ∧
      NeedsResend (sentPlan eb (buffers root)) (sentBits eb (buffers root))
        (arrivedWith crc32 eb (rand r) (buffers root)) := fun r => by simp [beyondRepair]
  let out (r : Fin n) := crcHammingStage crc32 (sentPlan eb (buffers root))
    (arrivedWith crc32 eb (rand r) (buffers root))
  have hstage : ∀ r, r ≠ root →
      (r ∈ beyondRepair crc32 eb rand root (buffers root) → (out r).1 = 'n') ∧
      (r ∉ beyondRepair crc32 eb rand root (buffers root) →
        out r = ('y', sentBits eb (buffers root))) := by
    intro r hr
    have h := crcHammingStage_of_withinRadius hbs (hradius r hr)
    exact ⟨fun hm => h.1 ((hmem r).mp hm).2,
      fun hm => h.2 fun hneed => hm ((hmem r).mpr ⟨hr, hneed⟩)⟩
  have hothers : ∀ r, r ≠ root → LocalRun (mpiBcastBitwiseCrcHamming crc32 eb (rand r)
        (List.finRange n) root r (buffers r) (resend r))
      (reported root (hammingWires crc32 eb (buffers root)) (.chars [(out r).1]))
      (recvAgain root r (sentBits eb (buffers root)).length (out r).1 (out r).2
        (storeBuffer (fun dataBits => decompressedDouble eb dataBits (buffers root).length)
          (buffers root).length (toSmallDatasetDouble (buffers root)).1 (resend r))) := by
    intro r hr
    have h := localRun_crcHamming (List.finRange n) crc32 eb hr (buffers r) (buffers root)
      (resend r) (rand r)
    rw [hbuffers r] at h
    exact h
  exact redelivered (localRun_crcHamming_root (List.finRange n) crc32 eb root (buffers root)
    (resend root) (rand root)) hothers (fun h => ((hmem root).mp h).1 rfl)
    (fun r hm => (hstage r ((hmem r).mp hm).1).1 hm) (fun r hr => (hstage r hr).2) hd

/-- Without a sign bit in a literal, and with a payload of less than three million bits, every run
    of all ranks comes to the same end whatever `rand()` returns.  The root sends the payload
    again to the ranks with two flips in one block, no other rank needs it again, and every rank
    has what the payload is decompressed to, in full unless the stream ends with a bare word at a
    byte boundary. -/
theorem bcastCrcHamming_delivers (hzlib : crc32 = zlibCrc32)
    (hcount : 1 ≤ (buffers root).length)
    (hbuffers : ∀ r, (buffers r).length = (buffers root).length)
    (hclear : SignsClear double eb (buffers root))
    (hbits : (sentBits eb (buffers root)).length * 8 < 3000000) :
    ∃ d, decompressedDouble eb (sentBits eb (buffers root)) (buffers root).length = .ok d ∧
      Redelivers (fun rank => mpiBcastBitwiseCrcHamming crc32 eb (rand rank) (List.finRange n) root
          rank (buffers rank) (resend rank)) root (sentBits eb (buffers root))
        (beyondRepair crc32 eb rand root (buffers root))
        (deliveredTo root (buffers root) (toSmallDatasetDouble (buffers root)).1 d resend
          (beyondRepair crc32 eb rand root (buffers root))) ∧
      (d.length = (buffers root).length ↔ ¬ EndsBare double (sentLengths eb (buffers root))) := by
  subst hzlib
  obtain ⟨d, hd, hfull⟩ := decompressedDouble_sentBits hclear
  exact ⟨d, hd, crcHamming_redelivers hcount hbuffers
    (fun r _ => arrivedWith_withinRadius eb (rand r) hcount hbits) hd, hfull⟩

end Broadcast

section Examples

attribute [local instance] NanRule.sse

/-- Three ranks with five doubles, sent by rank 1. -/
theorem bcastCrcHamming_delivers_three :
    ∃ d, decompressedDouble absErrorBound (sentBits absErrorBound (fiveDoubles 1)) 5 = .ok d ∧
      Redelivers (fun rank => mpiBcastBitwiseCrcHamming zlibCrc32 absErrorBound (fun i => i)
          (List.finRange 3) 1 rank (fiveDoubles rank) 0) 1 (sentBits absErrorBound (fiveDoubles 1))
        (beyondRepair zlibCrc32 absErrorBound (fun _ i => i) 1 (fiveDoubles 1))
        (deliveredTo 1 (fiveDoubles 1) (toSmallDatasetDouble (fiveDoubles 1)).1 d (fun _ => 0)
          (beyondRepair zlibCrc32 absErrorBound (fun _ i => i) 1 (fiveDoubles 1))) ∧
      (d.length = 5 ↔ ¬ EndsBare double (sentLengths absErrorBound (fiveDoubles 1))) :=
  @bcastCrcHamming_delivers .sse 3 zlibCrc32 absErrorBound (fun _ i => i) 1 fiveDoubles
    (fun _ => 0) rfl (by decide) (by decide)
    (@signsClear_of_finite .sse double (fiveDoubles 1) (.inl rfl) absErrorBound
      (finite_of_all (by decide +kernel)))
    (by rw [sentBits_fiveDoubles]; decide)

end Examples

end MpiApps.Transfer
