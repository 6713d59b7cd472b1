/-
  MpiApps.Transfer.BcastMaskCrc

  `MPI_Bcast_bitwise_mask_crc`: a broadcast of doubles compressed against a mask.

  The root broadcasts the mean and the type of its shifted data beside the payload, and the
  other ranks rebuild the mask from them.  An error that is injected at the bit error rate
  does not touch the payload: it sets the CRC of a rank to 0, which then asks for a payload
  that it already has.  So what the ranks get depends on the codec alone
  (`bcastMaskCrc_delivers_iff`).
-/

import MpiApps.Codec.MaskDelivery
import MpiApps.Transfer.Resend

namespace MpiApps.Transfer

open MpiApps.BinaryFormat MpiApps.Codec MpiApps.Fault MpiApps.MessagePassing

/-! ## The code -/

/-- `get_random_int`, for the value of `rand()`. -/
def getRandomInt (rand lo hi : Nat) : Nat := rand % (hi - lo + 1) + lo

/-- Whether an error is injected: `r < data_bytes * 8`. -/
def crcInjected (rand dataBytes : Nat) : Bool :=
  decide (getRandomInt rand 0 1000000 < dataBytes * 8)

/-- `myDecompress_bitwise_double_mask` with the mask of the mean. -/
def decompressedDoubleMask (eb : ErrorBound) (num type : Nat) (medium : BitVec 64)
    (dataBits : List (BitVec 8)) : Except Fault (List (BitVec 64)) := do
  return (← myDecompressBitwiseDoubleMask (FloatArith.ieee double eb) dataBits num type
    (maskOf double medium)).decompressed

/-- `MPI_Bcast_bitwise_mask_crc` at one rank. -/
def mpiBcastBitwiseMaskCrc [NanRule] {R : Type} [DecidableEq R]
    (crc32 : BitVec 32 → BitVec 8 → BitVec 32) (eb : ErrorBound) (rand : Nat) (ranks : List R)
    (root rank : R) (buffer : List (BitVec 64)) (resend : Nat) : Proc R (Tag R) Wire CrcReturn :=
  let small := toSmallDatasetDouble buffer
  let med := medDatasetDouble small.2
  let s := myCompressBitwiseDoubleMask (FloatArith.ieee double eb) small.2 med.2
    (maskOf double med.1)
  let ownBytes := if rank = root then s.bytes else 0
  let ownMin := if rank = root then small.1 else 0
  let ownBits := if rank = root then s.dataBits.take s.bytes else []
  let ownMedium := if rank = root then med.1 else 0
  let ownType := if rank = root then med.2 else 0
  let ownCrc := if rank = root then doCrc32 crc32 (s.dataBits.take s.bytes) else 0
  bcast ranks root rank .bcast (.ints [ownBytes]) fun
    | .ints [dataBytes] =>
      bcast ranks root rank .bcast (.real ownMin) fun
        | .real min =>
          bcast ranks root rank .bcast (.bytes ownBits) fun
            | .bytes dataBits =>
              bcast ranks root rank .bcast (.real ownMedium) fun
                | .real medium =>
                  bcast ranks root rank .bcast (.ints [ownType]) fun
                    | .ints [type] =>
                      bcast ranks root rank .bcast (.word ownCrc) fun
                        | .word crc =>
                          let decompressed :=
                            decompressedDoubleMask eb buffer.length type medium
                          if rank = root then
                            gather ranks root rank .gather (.chars ['y'])
                              (resendThenReturn decompressed ranks root buffer resend dataBits)
                          else
                            let received := dataBits.take dataBytes
                            let ok := crcOk crc32 crc received (crcInjected rand dataBytes)
                            gather ranks root rank .gather (.chars [ok]) fun _ =>
                              recvAgain root rank dataBytes ok received
                                (storeBuffer decompressed buffer.length min resend)
                        | _ => .abort
                    | _ => .abort
                | _ => .abort
            | _ => .abort
        | _ => .abort
    | _ => .abort

/-! ## The payload -/

section Payload

variable [NanRule] (eb : ErrorBound) (buffer : List (BitVec 64))

/-- The mean and the type of the root's shifted data. -/
def sentMed : BitVec 64 × Nat := medDatasetDouble (toSmallDatasetDouble buffer).2

/-- The buffer of the root after its compression. -/
def maskBuffer : ByteBuffer :=
  myCompressBitwiseDoubleMask (FloatArith.ieee double eb) (toSmallDatasetDouble buffer).2
    (sentMed buffer).2 (maskOf double (sentMed buffer).1)

/-- The payload of the root. -/
def maskSentBits : List (BitVec 8) := (maskBuffer eb buffer).dataBits

theorem maskBuffer_take :
    (maskBuffer eb buffer).bytes = (maskSentBits eb buffer).length ∧
      (maskSentBits eb buffer).take (maskBuffer eb buffer).bytes = maskSentBits eb buffer := by
  have hbytes : (maskBuffer eb buffer).bytes = (maskSentBits eb buffer).length :=
    (compressWith_packed _ _ _).bytes_eq
  exact ⟨hbytes, List.take_of_length_le hbytes.ge⟩

/-- The mask codec hands every element over, and none is expanded outside its buffer. -/
def MaskSurvives : Prop :=
  SelfFramed (FloatArith.ieee double eb) (toSmallDatasetDouble buffer).2 ∧
    LiteralsFit (FloatArith.ieee double eb) (sentMed buffer).2
      (maskOf double (sentMed buffer).1) (toSmallDatasetDouble buffer).2

variable {buffer}

/-- Differences to the minimum are not negative. -/
theorem toSmallDatasetDouble_nonNeg
    (hfinite : ∀ y ∈ (toSmallDatasetDouble buffer).2, double.Finite (bitsOf y)) :
    ∀ y ∈ (toSmallDatasetDouble buffer).2, NonNeg double y := by
  intro y hy
  refine ⟨hfinite y hy, ?_⟩
  obtain ⟨x, hx, rfl⟩ := List.mem_map.mp hy
  cases buffer with
  | nil => exact absurd hx List.not_mem_nil
  | cons m data =>
      have hle := @foldl_minStep_le double data m x hx
      have hmsb := minus_msb_eq_true_iff hle (sub_ne_notANumber_of_minus (hfinite _ hy))
      by_cases hneg : (minus double x (data.foldl (minStep double) m)).msb = true
      · -- only `-0 - +0` has a sign bit, and that is a zero
        obtain ⟨rfl, hmin⟩ := hmsb.mp hneg
        show 0 ≤ double.value (bitsOf (minus double 0x8000000000000000
          (data.foldl (minStep double) m)))
        rw [hmin, minus_negative_zero]
        decide +kernel
      · show 0 ≤ double.value (bitsOf (minus double x (data.foldl (minStep double) m)))
        rw [Format.value_eq_magnitude, if_neg hneg]
        exact Format.magnitude_nonneg _

/-- The decompressor of the other ranks returns with the words of the root exactly if the mask
    codec survives. -/
theorem maskSurvives_iff (hcount : 1 ≤ buffer.length)
    (hnonneg : ∀ y ∈ (toSmallDatasetDouble buffer).2, NonNeg double y) :
    Delivers
        (myDecompressBitwiseDoubleMask (FloatArith.ieee double eb) (maskSentBits eb buffer)
          buffer.length (sentMed buffer).2 (maskOf double (sentMed buffer).1))
        buffer.length
        (maskWords (FloatArith.ieee double eb) (toSmallDatasetDouble buffer).2) ↔
      MaskSurvives eb buffer := by
  have hlen : (toSmallDatasetDouble buffer).2.length = buffer.length :=
    toSmallDatasetDouble_length buffer
  have hne : (toSmallDatasetDouble buffer).2 ≠ [] :=
    List.length_pos_iff.mp (hcount.trans hlen.ge)
  have hwide : double.mantBits ≤ double.bias := by decide +kernel
  rw [← hlen]
  exact maskDelivers_iff hwide hne hnonneg fun x hx => ieee_msb_of_not_small rfl (hnonneg x hx)

end Payload

/-! ## The ranks -/

section Ranks

variable [NanRule] {R : Type} [DecidableEq R] (crc32 : BitVec 32 → BitVec 8 → BitVec 32)
  (eb : ErrorBound) (ranks : List R) {root rank : R}

/-- What the root broadcasts. -/
def maskWires (buffer : List (BitVec 64)) : List Wire :=
  [.ints [(maskSentBits eb buffer).length], .real (toSmallDatasetDouble buffer).1,
    .bytes (maskSentBits eb buffer), .real (sentMed buffer).1, .ints [(sentMed buffer).2],
    .word (doCrc32 crc32 (maskSentBits eb buffer))]

/-- What every rank decompresses. -/
def maskDecompressed (buffer : List (BitVec 64)) (dataBits : List (BitVec 8)) :
    Except Fault (List (BitVec 64)) :=
  decompressedDoubleMask eb buffer.length (sentMed buffer).2 (sentMed buffer).1 dataBits

theorem localRun_maskCrc_root (root : R) (buffer : List (BitVec 64)) (resend rand : Nat) :
    LocalRun (mpiBcastBitwiseMaskCrc crc32 eb rand ranks root root buffer resend)
      (announcements ranks root (maskWires crc32 eb buffer))
      (gather ranks root root .gather (.chars ['y'])
        (resendThenReturn (maskDecompressed eb buffer) ranks root buffer resend
          (maskSentBits eb buffer))) := by
  obtain ⟨hbytes, htake⟩ := maskBuffer_take eb buffer
  simp only [mpiBcastBitwiseMaskCrc, if_true, maskWires, announcements_cons]
  rw [← sentMed, ← maskBuffer, ← maskSentBits, htake, hbytes]
  refine (localRun_bcast_root ranks root _ _ _).trans ?_
  refine (localRun_bcast_root ranks root _ _ _).trans ?_
  refine (localRun_bcast_root ranks root _ _ _).trans ?_
  refine (localRun_bcast_root ranks root _ _ _).trans ?_
  refine (localRun_bcast_root ranks root _ _ _).trans ?_
  exact (localRun_bcast_root ranks root _ _ _).trans (.refl _)

/-- The verdict on the payload of the root. -/
def maskOk (buffer : List (BitVec 64)) (rand : Nat) : Char :=
  crcOk crc32 (doCrc32 crc32 (maskSentBits eb buffer)) (maskSentBits eb buffer)
    (crcInjected rand (maskSentBits eb buffer).length)

theorem localRun_maskCrc (hrank : rank ≠ root) (own buffer : List (BitVec 64))
    (hown : own.length = buffer.length) (resend rand : Nat) :
    LocalRun (mpiBcastBitwiseMaskCrc crc32 eb rand ranks root rank own resend)
      (reported root (maskWires crc32 eb buffer) (.chars [maskOk crc32 eb buffer rand]))
      (recvAgain root rank (maskSentBits eb buffer).length (maskOk crc32 eb buffer rand)
        (maskSentBits eb buffer)
        (storeBuffer (maskDecompressed eb buffer) buffer.length (toSmallDatasetDouble buffer).1
          resend)) := by
  have hg := localRun_gather hrank ranks Tag.gather (Wire.chars [maskOk crc32 eb buffer rand])
    fun _ => recvAgain root rank (maskSentBits eb buffer).length (maskOk crc32 eb buffer rand)
      (maskSentBits eb buffer)
      (storeBuffer (maskDecompressed eb buffer) buffer.length (toSmallDatasetDouble buffer).1
        resend)
  simp only [mpiBcastBitwiseMaskCrc, if_neg hrank, reported, maskWires, List.map_cons,
    List.cons_append]
  refine (localRun_bcast hrank ranks _ _
    (Wire.ints [(maskSentBits eb buffer).length]) _).trans ?_
  refine (localRun_bcast hrank ranks _ _ (Wire.real (toSmallDatasetDouble buffer).1) _).trans ?_
  refine (localRun_bcast hrank ranks _ _ (Wire.bytes (maskSentBits eb buffer)) _).trans ?_
  refine (localRun_bcast hrank ranks _ _ (Wire.real (sentMed buffer).1) _).trans ?_
  refine (localRun_bcast hrank ranks _ _ (Wire.ints [(sentMed buffer).2]) _).trans ?_
  refine (localRun_bcast hrank ranks _ _
    (Wire.word (doCrc32 crc32 (maskSentBits eb buffer))) _).trans ?_
  simp only [List.take_length, hown]
  exact hg

end Ranks

/-! ## The broadcast -/

section Broadcast

variable [NanRule] {n : Nat} {crc32 : BitVec 32 → BitVec 8 → BitVec 32} {eb : ErrorBound}
  {rand : Fin n → Nat} {root : Fin n} {buffers : Fin n → List (BitVec 64)} {resend : Fin n → Nat}

/-- The ranks whose injected CRC differs from that of the payload. -/
def misjudged (crc32 : BitVec 32 → BitVec 8 → BitVec 32) (rand : Fin n → Nat) (root : Fin n)
    (sent : List (BitVec 8)) : Finset (Fin n) :=
  Finset.univ.filter fun r => r ≠ root ∧ crcInjected (rand r) sent.length = true ∧
    doCrc32 crc32 sent ≠ 0

/-- All runs end with the elements of `words` at every rank, and the payload sent again to
    the ranks that misjudged it. -/
def MaskDelivered (crc32 : BitVec 32 → BitVec 8 → BitVec 32) (eb : ErrorBound)
    (rand : Fin n → Nat) (root : Fin n) (buffers : Fin n → List (BitVec 64))
    (resend : Fin n → Nat) (words : List (List Bool)) : Prop :=
  ∃ o, myDecompressBitwiseDoubleMask (FloatArith.ieee double eb)
      (maskSentBits eb (buffers root)) (buffers root).length (sentMed (buffers root)).2
      (maskOf double (sentMed (buffers root)).1) = .ok o ∧
    o.words = words ∧ o.decompressed.length = (buffers root).length ∧
    Redelivers (fun rank => mpiBcastBitwiseMaskCrc crc32 eb (rand rank) (List.finRange n) root rank
        (buffers rank) (resend rank)) root (maskSentBits eb (buffers root))
      (misjudged crc32 rand root (maskSentBits eb (buffers root)))
      (deliveredTo root (buffers root) (toSmallDatasetDouble (buffers root)).1 o.decompressed
        resend (misjudged crc32 rand root (maskSentBits eb (buffers root))))

theorem maskOk_eq (buffer : List (BitVec 64)) {r : Fin n} (hr : r ≠ root) :
    maskOk crc32 eb buffer (rand r) =
      if r ∈ misjudged crc32 rand root (maskSentBits eb buffer) then 'n' else 'y' := by
  rw [maskOk, crcOk]
  cases hinj : crcInjected (rand r) (maskSentBits eb buffer).length with
  | false => simp [misjudged, hinj]
  | true =>
      by_cases hzero : doCrc32 crc32 (maskSentBits eb buffer) = 0 <;>
        simp [misjudged, hinj, hr, hzero]

theorem maskCrc_redelivers (hbuffers : ∀ r, (buffers r).length = (buffers root).length)
    {d : List (BitVec 64)}
    (hd : maskDecompressed eb (buffers root) (maskSentBits eb (buffers root)) = .ok d) :
    Redelivers (fun rank => mpiBcastBitwiseMaskCrc crc32 eb (rand rank) (List.finRange n) root rank
        (buffers rank) (resend rank)) root (maskSentBits eb (buffers root))
      (misjudged crc32 rand root (maskSentBits eb (buffers root)))
      (deliveredTo root (buffers root) (toSmallDatasetDouble (buffers root)).1 d resend
        (misjudged crc32 rand root (maskSentBits eb (buffers root)))) := by
  let out (r : Fin n) : Char × List (BitVec 8) :=
    (maskOk crc32 eb (buffers root) (rand r), maskSentBits eb (buffers root))
  have hothers : ∀ r, r ≠ root → LocalRun (mpiBcastBitwiseMaskCrc crc32 eb (rand r)
        (List.finRange n) root r (buffers r) (resend r))
      (reported root (maskWires crc32 eb (buffers root)) (.chars [(out r).1]))
      (recvAgain root r (maskSentBits eb (buffers root)).length (out r).1 (out r).2
        (storeBuffer (maskDecompressed eb (buffers root)) (buffers root).length
          (toSmallDatasetDouble (buffers root)).1 (resend r))) := fun r hr =>
    localRun_maskCrc crc32 eb (List.finRange n) hr (buffers r) (buffers root) (hbuffers r)
      (resend r) (rand r)
  have hmem : ∀ r ∈ misjudged crc32 rand root (maskSentBits eb (buffers root)), r ≠ root :=
    fun r hr => (Finset.mem_filter.mp hr).2.1
  refine redelivered (localRun_maskCrc_root crc32 eb (List.finRange n) root (buffers root)
    (resend root) (rand root)) hothers (fun h => hmem root h rfl) (fun r hr => ?_)
    (fun r hr hnot => ?_) hd
  · exact (maskOk_eq (buffers root) (hmem r hr)).trans (if_pos hr)
  · exact congrArg (·, maskSentBits eb (buffers root))
      ((maskOk_eq (buffers root) hr).trans (if_neg hnot))

/-- If no difference to the minimum overflows, the broadcast delivers the words that the root
    has written exactly if the mask codec does: whatever `rand()` returns and in every order
    of the steps. -/
theorem bcastMaskCrc_delivers_iff (hcount : 1 ≤ (buffers root).length)
    (hbuffers : ∀ r, (buffers r).length = (buffers root).length)
    (hfinite : ∀ y ∈ (toSmallDatasetDouble (buffers root)).2, double.Finite (bitsOf y)) :
    MaskDelivered crc32 eb rand root buffers resend
        (maskWords (FloatArith.ieee double eb) (toSmallDatasetDouble (buffers root)).2) ↔
      MaskSurvives eb (buffers root) := by
  have hiff := maskSurvives_iff eb hcount (toSmallDatasetDouble_nonNeg hfinite)
  refine Iff.trans ?_ hiff
  constructor
  · rintro ⟨o, ho, hwords, hfull, -⟩
    exact ⟨o, ho, hwords, hfull⟩
  · rintro ⟨o, ho, hwords, hfull⟩
    have hd : maskDecompressed eb (buffers root) (maskSentBits eb (buffers root)) =
        .ok o.decompressed := by
      rw [maskDecompressed, decompressedDoubleMask]
      exact congrArg (· >>= fun o => pure o.decompressed) ho
    exact ⟨o, ho, hwords, hfull, maskCrc_redelivers hbuffers hd⟩

end Broadcast

section Examples

attribute [local instance] NanRule.sse

/-- `1.0` and `3.0` at rank 1; the injected errors make the other ranks ask again. -/
def oneThree (r : Fin 3) : List (BitVec 64) :=
  if (r : Nat) = 1 then [0x3FF0000000000000, 0x4008000000000000] else [0, 0]

theorem oneThree_small : (toSmallDatasetDouble (oneThree 1)).2 = [0, 0x4000000000000000] := by
  decide +kernel

theorem bcastMaskCrc_delivers_iff_three :
    MaskDelivered zlibCrc32 absErrorBound (fun r => r) 1 oneThree (fun _ => 0)
      (maskWords (FloatArith.ieee double absErrorBound) (toSmallDatasetDouble (oneThree 1)).2) := by
  have hfinite : ∀ y ∈ (toSmallDatasetDouble (oneThree 1)).2, double.Finite (bitsOf y) := by
    rw [oneThree_small]
    exact forall_mem_pair.mpr ⟨by decide +kernel, by decide +kernel⟩
  have hframed : MaskFramed (FloatArith.ieee double absErrorBound)
      (medDataset double [0, 0x4000000000000000]).2
      (maskOf double (medDataset double [0, 0x4000000000000000]).1) [0, 0x4000000000000000] := by
    decide +kernel
  -- the only literal is `2.0`
  have hmarked : marked (FloatArith.ieee double absErrorBound)
      (History.init (FloatArith.ieee double absErrorBound)) [0, 0x4000000000000000] =
        [(0, true), (0x4000000000000000, false)] := by
    decide +kernel
  have hfit : LiteralsFit (FloatArith.ieee double absErrorBound)
      (medDataset double [0, 0x4000000000000000]).2
      (maskOf double (medDataset double [0, 0x4000000000000000]).1) [0, 0x4000000000000000] := by
    have hlast : FitsBuffer double absErrorBound (medDataset double [0, 0x4000000000000000]).2
        (maskOf double (medDataset double [0, 0x4000000000000000]).1) 0x4000000000000000 := by
      decide +kernel
    rw [LiteralsFit, hmarked]
    exact forall_mem_pair.mpr ⟨fun h => absurd h.symm Bool.false_ne_true, fun _ => hlast⟩
  refine (bcastMaskCrc_delivers_iff (by decide) (by decide) hfinite).mpr ?_
  rw [MaskSurvives, sentMed, oneThree_small]
  exact ⟨hframed, hfit⟩

end Examples

end MpiApps.Transfer
