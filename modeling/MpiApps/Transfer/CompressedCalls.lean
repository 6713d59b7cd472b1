/-
  MpiApps.Transfer.CompressedCalls

  Compressed broadcasts in the place of `MPI_Bcast`.

  The programs choose by `CT` how they broadcast their doubles.  Whatever they choose, the
  root keeps its data and the other ranks get what is decompressed (`delivers_comp`), so what
  a program computes follows from its text alone (`yields_withComp`).
-/

import MpiApps.Fault.AbftCalls
import MpiApps.Transfer.BcastBytewise
import MpiApps.Transfer.BcastCrcHamming
import MpiApps.Transfer.BcastMaskCrc

namespace MpiApps.Transfer

open MpiApps.BinaryFormat MpiApps.Codec MpiApps.Fault MpiApps.MessagePassing

/-! ## The code -/

/-- The values of `CT`: 10 to 5, 1 and 0. -/
inductive CT
  | crcHamming
  | maskCrc
  | crc
  | mask
  | np
  | bitwise
  | bytewise
  | plain
  deriving DecidableEq

/-- What a rank meets in one broadcast. -/
structure Noise where
  rand : Nat → Nat
  /-- whether `crc_check` is set to 0 -/
  injected : Bool
  /-- the integer behind the displacements -/
  past : Int

/-- The messages of a program with compressed broadcasts. -/
inductive CompMessage
  | own (m : Buffer Double)
  | wire (w : Wire)
  | bytewise (w : ByteWire)

def CompMessage.asOwn : CompMessage → Option (Buffer Double)
  | .own m => some m
  | _ => none

def CompMessage.asWire : CompMessage → Option Wire
  | .wire w => some w
  | _ => none

def CompMessage.asByteWire : CompMessage → Option ByteWire
  | .bytewise w => some w
  | _ => none

section Code

variable [NanRule] {R : Type} [DecidableEq R]

/-- `buffer` on return, when every rank decompresses the payload. -/
def decompressHere (decompressed : List (BitVec 8) → Except Fault (List (BitVec 64)))
    (root rank : R) (buffer : List (BitVec 64)) (min : BitVec 64) (dataBits : List (BitVec 8)) :
    Proc R (Tag R) Wire CrcReturn :=
  match decompressed dataBits with
  | .ok decompressedData =>
    .ret ⟨if rank = root then buffer.map some else addMin min buffer.length decompressedData, 0⟩
  | .error _ => .abort

/-- `CT` 6 and 5: number, minimum and payload. -/
def bcastBits (compress : List (BitVec 64) → ByteBuffer)
    (decompressed : List (BitVec 8) → Nat → Except Fault (List (BitVec 64))) (ranks : List R)
    (root rank : R) (buffer : List (BitVec 64)) : Proc R (Tag R) Wire CrcReturn :=
  let small := toSmallDatasetDouble buffer
  let s := compress small.2
  let ownBytes := if rank = root then s.bytes else 0
  let ownMin := if rank = root then small.1 else 0
  let ownBits := if rank = root then s.dataBits.take s.bytes else []
  bcast ranks root rank .bcast (.ints [ownBytes]) fun
    | .ints [dataBytes] =>
      bcast ranks root rank .bcast (.real ownMin) fun
        | .real min =>
          bcast ranks root rank .bcast (.bytes ownBits) fun
            | .bytes dataBits =>
              decompressHere (decompressed · buffer.length) root rank buffer min
                (dataBits.take dataBytes)
            | _ => .abort
        | _ => .abort
    | _ => .abort

/-- `CT` 7: mean and type behind them. -/
def bcastMask (eb : ErrorBound) (ranks : List R) (root rank : R) (buffer : List (BitVec 64)) :
    Proc R (Tag R) Wire CrcReturn :=
  let small := toSmallDatasetDouble buffer
  let med := medDatasetDouble small.2
  let s := myCompressBitwiseDoubleMask (FloatArith.ieee double eb) small.2 med.2
    (maskOf double med.1)
  let ownBytes := if rank = root then s.bytes else 0
  let ownMin := if rank = root then small.1 else 0
  let ownBits := if rank = root then s.dataBits.take s.bytes else []
  let ownMedium := if rank = root then med.1 else 0
  let ownType := if rank = root then med.2 else 0
  bcast ranks root rank .bcast (.ints [ownBytes]) fun
    | .ints [dataBytes] =>
      bcast ranks root rank .bcast (.real ownMin) fun
        | .real min =>
          bcast ranks root rank .bcast (.bytes ownBits) fun
            | .bytes dataBits =>
              bcast ranks root rank .bcast (.real ownMedium) fun
                | .real medium =>
                  bcast ranks root rank .bcast (.ints [ownType]) fun
                    | .ints [type] =>
                      decompressHere (decompressedDoubleMask eb buffer.length type medium) root
                        rank buffer min (dataBits.take dataBytes)
                    | _ => .abort
                | _ => .abort
            | _ => .abort
        | _ => .abort
    | _ => .abort

/-- The broadcast of an array at one rank, for `CT` from 10 to 5. -/
def bcastCompressed (crc32 : BitVec 32 → BitVec 8 → BitVec 32) (eb : ErrorBound) (noise : Noise)
    (ranks : List R) (root rank : R) (buffer : List (BitVec 64)) :
    CT → Proc R (Tag R) Wire CrcReturn
  | .crcHamming => mpiBcastBitwiseCrcHamming crc32 eb noise.rand ranks root rank buffer 0
  | .maskCrc => mpiBcastBitwiseMaskCrc crc32 eb (noise.rand 0) ranks root rank buffer 0
  | .crc => mpiBcastBitwiseCrc crc32 eb id noise.injected ranks root rank buffer 0
  | .mask => bcastMask eb ranks root rank buffer
  | .np => bcastBits (myCompressBitwiseDoubleNp eb) (decompressedDoubleNp eb) ranks root rank buffer
  | .bitwise =>
    bcastBits (myCompressBitwiseDouble (FloatArith.ieee double eb)) (decompressedDouble eb) ranks
      root rank buffer
  | .bytewise | .plain => .abort

/-- The doubles of a buffer; what nothing was stored in comes from the heap. -/
def filled (heap : Nat → Double) (buffer : List (Option (BitVec 64))) : List Double :=
  buffer.mapIdx fun i x => ⟨x.getD (heap i).bits⟩

end Code

@[simp] theorem filled_map_some (heap : Nat → Double) (ws : List (BitVec 64)) :
    filled heap (ws.map some) = ofWords ws := by
  induction ws generalizing heap with
  | nil => rfl
  | cons w ws ih =>
      rw [List.map_cons, filled, List.mapIdx_cons]
      exact congrArg (⟨w⟩ :: ·) (ih fun i => heap (i + 1))

@[simp] theorem filled_length (heap : Nat → Double) (buffer : List (Option (BitVec 64))) :
    (filled heap buffer).length = buffer.length := List.length_mapIdx

section Calls

variable [NanRule] {n : Nat} {α : Type}

/-- The `i`-th broadcast of a program under `CT`. -/
def compBroadcast (crc32 : BitVec 32 → BitVec 8 → BitVec 32) (eb : ErrorBound) (ct : CT)
    (noise : Nat → Fin n → Noise) (heap : Nat → Fin n → Nat → Double) :
    Broadcast (Fin n) (Tag (Fin n)) (Buffer Double) CompMessage α := fun i root rank m k =>
  match m with
  | .doubles xs =>
    if ct = .plain then
      bcast (List.finRange n) root rank .bcast (.own (.doubles xs)) fun w =>
        Proc.expect CompMessage.asOwn w k
    else if ct = .bytewise then
      (bcastBytewise eb (noise i rank).past (List.finRange n) root rank (toWords xs)).call
        .bytewise CompMessage.asByteWire fun ys => k (.doubles (ofWords ys))
    else
      (bcastCompressed crc32 eb (noise i rank) (List.finRange n) root rank (toWords xs) ct).call
        .wire CompMessage.asWire fun ret => k (.doubles (filled (heap i rank) ret.buffer))
  | .ints ks =>
    bcast (List.finRange n) root rank .bcast (.own (.ints ks)) fun w =>
      Proc.expect CompMessage.asOwn w k

/-- A program with its broadcasts under `CT` at a rank. -/
def withComp (crc32 : BitVec 32 → BitVec 8 → BitVec 32) (eb : ErrorBound) (ct : CT)
    (noise : Nat → Fin n → Noise) (heap : Nat → Fin n → Nat → Double)
    (P : Fin n → Prog (Fin n) (Buffer Double) α) (rank : Fin n) :
    Proc (Fin n) (Tag (Fin n)) CompMessage α :=
  (P rank).proc .own CompMessage.asOwn (List.finRange n) .bcast
    (compBroadcast crc32 eb ct noise heap) rank 0

end Calls

/-! ## What is delivered -/

section Delivered

variable [NanRule] (eb : ErrorBound)

/-- What the payload of the root is decompressed to. -/
def decompressedAs (buffer : List (BitVec 64)) : CT → Except Fault (List (BitVec 64))
  | .crcHamming | .crc | .bitwise => decompressedDouble eb (sentBits eb buffer) buffer.length
  | .maskCrc | .mask => maskDecompressed eb buffer (maskSentBits eb buffer)
  | .np =>
    decompressedDoubleNp eb (myCompressBitwiseDoubleNp eb (toSmallDatasetDouble buffer).2).dataBits
      buffer.length
  | .bytewise => mergedAs eb buffer
  | .plain => .ok buffer

/-- What a rank that is not the root has after a broadcast of `xs`. -/
def received (ct : CT) (heap : Nat → Double) (xs : List Double) : List Double :=
  if ct = .plain then xs
  else
    match decompressedAs eb (toWords xs) ct with
    | .ok d =>
      if ct = .bytewise then ofWords d
      else filled heap (addMin (toSmallDatasetDouble (toWords xs)).1 xs.length d)
    | .error _ => xs

/-- What a rank has after a broadcast. -/
def deliveredAs {R : Type} [DecidableEq R] (ct : CT) (heap : Nat → R → Nat → Double) (i : Nat)
    (root r : R) : Buffer Double → Buffer Double
  | .doubles xs => .doubles (if r = root then xs else received eb ct (heap i r) xs)
  | .ints ks => .ints ks

/-- Arrays that can be broadcast under `CT`: the payload can be decompressed, under CRC and
    Hamming protection it is not too long, and the bytewise codec merges its arrays inside. -/
structure Sendable (ct : CT) (xs : List Double) : Prop where
  nonempty : 1 ≤ xs.length
  decompresses : ∃ d, decompressedAs eb (toWords xs) ct = .ok d
  short : ct = .crcHamming → (sentBits eb (toWords xs)).length * 8 < 3000000
  inside : ct = .bytewise → MergesInside eb (toWords xs)

/-- A broadcast of integers, or of doubles that can be sent and as many as every rank has
    room for. -/
def CompCallable {R : Type} (ct : CT) (root : R) (m : R → Buffer Double) : Prop :=
  (∃ ks : R → List Nat, m = fun r => .ints (ks r)) ∨
    ∃ xs : R → List Double, m = (fun r => .doubles (xs r)) ∧ Sendable eb ct (xs root) ∧
      ∀ r, (xs r).length = (xs root).length

theorem sentBits_length_le (buffer : List (BitVec 64)) :
    (sentBits eb buffer).length ≤ 8 * buffer.length := by
  let s := myCompressBitwiseDouble (FloatArith.ieee double eb) (toSmallDatasetDouble buffer).2
  have hle : s.bytes ≤ 8 * (toSmallDatasetDouble buffer).2.length :=
    (compressWith_bytes_le_all (FloatArith.ieee double eb) rfl _).1
  have hs : s.bytes = (sentBits eb buffer).length := (compressWith_packed _ _ _).bytes_eq
  rw [← hs]
  exact hle.trans (Nat.mul_le_mul_left 8 (toSmallDatasetDouble_length buffer).le)

/-- The modes that can broadcast every array, up to the size that the Hamming code is for. -/
def CT.Total (ct : CT) (most : Nat) : Prop :=
  (ct = .crcHamming ∧ most * 64 < 3000000) ∨ ct = .crc ∨ ct = .bitwise ∨ ct = .plain

/-- With prediction every payload can be decompressed, if no literal has its sign bit set. -/
theorem sendable_of_total {ct : CT} {most : Nat} (hct : ct.Total most) {xs : List Double}
    (hne : 1 ≤ xs.length) (hmost : xs.length ≤ most) (hclear : SignsClear double eb (toWords xs)) :
    Sendable eb ct xs where
  nonempty := hne
  decompresses := by
    obtain ⟨d, hd, -⟩ := decompressedDouble_sentBits hclear
    rcases hct with ⟨rfl, -⟩ | rfl | rfl | rfl
    · exact ⟨d, hd⟩
    · exact ⟨d, hd⟩
    · exact ⟨d, hd⟩
    · exact ⟨_, rfl⟩
  short h := by
    rcases hct with ⟨-, hsize⟩ | hct | hct | hct
    · have hle := sentBits_length_le eb (toWords xs)
      rw [toWords_length] at hle
      omega
    all_goals rw [h] at hct; cases hct
  inside h := by
    rcases hct with ⟨hct, -⟩ | hct | hct | hct
    all_goals rw [h] at hct; cases hct

/-- The bytewise codec can broadcast what it can merge. -/
theorem sendable_bytewise {xs : List Double} (hne : 1 ≤ xs.length)
    (hinside : MergesInside eb (toWords xs)) : Sendable eb .bytewise xs where
  nonempty := hne
  decompresses := by
    obtain ⟨d, hd, -⟩ := (decompressedArrays_eq hinside 0).2
    exact ⟨d, hd⟩
  short h := by cases h
  inside _ := hinside

/-- The array keeps its length. -/
theorem received_length (ct : CT) (heap : Nat → Double) (xs : List Double) :
    (received eb ct heap xs).length = xs.length := by
  rw [received]
  split
  · rfl
  · split
    · next d hd =>
        split
        · next hct =>
            rw [hct] at hd
            rw [ofWords_length, mergedAs_length hd, toWords_length]
        · simp [addMin]
    · rfl

end Delivered

/-! ## Delivery -/

section Delivery

variable [NanRule] {n : Nat} {α : Type} {crc32 : BitVec 32 → BitVec 8 → BitVec 32} {eb : ErrorBound}
  {root : Fin n} {buffers : Fin n → List (BitVec 64)}

/-- What a rank returns with when all ranks decompress `d`. -/
def returned (root : Fin n) (buffers : Fin n → List (BitVec 64)) (d : List (BitVec 64))
    (r : Fin n) : List (Option (BitVec 64)) :=
  if r = root then (buffers root).map some
  else addMin (toSmallDatasetDouble (buffers root)).1 (buffers root).length d

theorem reaches_decompressHere {decompressed : Fin n → List (BitVec 8) → Except Fault _}
    (hbuffers : ∀ r, (buffers r).length = (buffers root).length) {sent : List (BitVec 8)}
    {d : List (BitVec 64)} (hd : ∀ r, decompressed r sent = .ok d) :
    (fun r => decompressHere (decompressed r) root r (buffers r)
        (toSmallDatasetDouble (buffers root)).1 sent :
      Fin n → Proc (Fin n) (Tag (Fin n)) Wire CrcReturn) =
    fun r => .ret ⟨returned root buffers d r, 0⟩ := by
  funext r
  rw [decompressHere, hd, returned]
  by_cases hr : r = root
  · subst hr
    simp
  · simp [hr, hbuffers r]

theorem bcastBits_outcome {compress : List (BitVec 64) → ByteBuffer}
    {words : List (BitVec 64) → List Bool} (hpacked : ∀ xs, Packed (compress xs) (words xs))
    {decompressed : List (BitVec 8) → Nat → Except Fault (List (BitVec 64))}
    (hbuffers : ∀ r, (buffers r).length = (buffers root).length) {d : List (BitVec 64)}
    (hd : decompressed (compress (toSmallDatasetDouble (buffers root)).2).dataBits
      (buffers root).length = .ok d) :
    ∃ t, Outcome (Sys.start fun r => bcastBits compress decompressed (List.finRange n) root r
      (buffers r)) t fun r => ⟨returned root buffers d r, 0⟩ := by
  have hbytes := (hpacked (toSmallDatasetDouble (buffers root)).2).bytes_eq
  refine Reaches.outcome ?_ rfl fun _ _ _ => rfl
  refine (reaches_bcast (List.nodup_finRange n) List.mem_finRange root _ _ _).trans ?_
  refine (reaches_bcast (List.nodup_finRange n) List.mem_finRange root _ _ _).trans ?_
  refine (reaches_bcast (List.nodup_finRange n) List.mem_finRange root _ _ _).trans ?_
  simp only [if_true, hbytes, List.take_length]
  rw [reaches_decompressHere hbuffers fun r => by rw [hbuffers r]; exact hd]
  exact .refl _

theorem bcastMask_outcome (hbuffers : ∀ r, (buffers r).length = (buffers root).length)
    {d : List (BitVec 64)}
    (hd : maskDecompressed eb (buffers root) (maskSentBits eb (buffers root)) = .ok d) :
    ∃ t, Outcome (Sys.start fun r => bcastMask eb (List.finRange n) root r (buffers r)) t
      fun r => ⟨returned root buffers d r, 0⟩ := by
  obtain ⟨hbytes, htake⟩ := maskBuffer_take eb (buffers root)
  refine Reaches.outcome ?_ rfl fun _ _ _ => rfl
  refine (reaches_bcast (List.nodup_finRange n) List.mem_finRange root _ _ _).trans ?_
  refine (reaches_bcast (List.nodup_finRange n) List.mem_finRange root _ _ _).trans ?_
  refine (reaches_bcast (List.nodup_finRange n) List.mem_finRange root _ _ _).trans ?_
  refine (reaches_bcast (List.nodup_finRange n) List.mem_finRange root _ _ _).trans ?_
  refine (reaches_bcast (List.nodup_finRange n) List.mem_finRange root _ _ _).trans ?_
  simp only [if_true]
  rw [← sentMed, ← maskBuffer, ← maskSentBits, htake, hbytes, List.take_length,
    reaches_decompressHere hbuffers fun r => by rw [hbuffers r]; exact hd]
  exact .refl _

/-- Under every `CT` the broadcast comes to an end with what is decompressed. -/
theorem bcastCompressed_outcome (hzlib : crc32 = zlibCrc32) {ct : CT} (hct : ct ≠ .plain)
    (hct' : ct ≠ .bytewise) (noise : Fin n → Noise) (hcount : 1 ≤ (buffers root).length)
    (hbuffers : ∀ r, (buffers r).length = (buffers root).length)
    (hshort : ct = .crcHamming → (sentBits eb (buffers root)).length * 8 < 3000000)
    {d : List (BitVec 64)} (hd : decompressedAs eb (buffers root) ct = .ok d) :
    ∃ t a, Outcome (Sys.start fun r => bcastCompressed crc32 eb (noise r) (List.finRange n) root r
        (buffers r) ct) t a ∧ ∀ r, (a r).buffer = returned root buffers d r := by
  have hdelivered : ∀ (resend : Fin n → Nat) (S : Finset (Fin n)) r,
      (deliveredTo root (buffers root) (toSmallDatasetDouble (buffers root)).1 d resend S
        r).buffer = returned root buffers d r := by
    intro resend S r
    rw [deliveredTo, returned]
    split <;> rfl
  subst hzlib
  cases ct with
  | crcHamming =>
      obtain ⟨t, ht, -⟩ := @crcHamming_redelivers _ n zlibCrc32 eb (fun r => (noise r).rand) root
        buffers (fun _ => 0) hcount hbuffers
        (fun r _ => arrivedWith_withinRadius eb (noise r).rand hcount (hshort rfl)) d hd
      exact ⟨t, _, ht, hdelivered _ _⟩
  | maskCrc =>
      obtain ⟨t, ht, -⟩ := @maskCrc_redelivers _ n zlibCrc32 eb (fun r => (noise r).rand 0) root
        buffers (fun _ => 0) hbuffers d hd
      exact ⟨t, _, ht, hdelivered _ _⟩
  | crc =>
      obtain ⟨t, ht, -⟩ := @bcastCrc_outcome _ n zlibCrc32 eb (fun _ => id)
        (fun r => (noise r).injected) root buffers
        (Finset.univ.filter fun r => r ≠ root ∧ crcFails zlibCrc32 (sentBits eb (buffers root)) id
          (noise r).injected = true) (fun _ => 0) hbuffers (fun r => by simp)
        (fun _ _ _ => rfl) d hd
      refine ⟨t, _, ht, fun r => ?_⟩
      simp only [returned]
      split <;> rfl
  | mask =>
      obtain ⟨t, ht⟩ := bcastMask_outcome hbuffers hd
      exact ⟨t, _, ht, fun _ => rfl⟩
  | np =>
      have hpacked : ∀ xs : List (BitVec 64), Packed (myCompressBitwiseDoubleNp eb xs)
          (xs.map (literal double eb)).flatten := @compressNp_packed double eb
      obtain ⟨t, ht⟩ := @bcastBits_outcome _ n root buffers _ _ hpacked (decompressedDoubleNp eb)
        hbuffers d hd
      exact ⟨t, _, ht, fun _ => rfl⟩
  | bitwise =>
      have hpacked : ∀ xs : List (BitVec 64),
          Packed (myCompressBitwiseDouble (FloatArith.ieee double eb) xs)
            (codeWords (FloatArith.ieee double eb) (literal double eb)
              (History.init (FloatArith.ieee double eb)) xs).flatten :=
        @compressWith_packed double _ _ _
      obtain ⟨t, ht⟩ := @bcastBits_outcome _ n root buffers _ _ hpacked (decompressedDouble eb)
        hbuffers d hd
      exact ⟨t, _, ht, fun _ => rfl⟩
  | bytewise => exact absurd rfl hct'
  | plain => exact absurd rfl hct

/-- The broadcasts under `CT` deliver. -/
theorem delivers_comp (hzlib : crc32 = zlibCrc32) (ct : CT) (noise : Nat → Fin n → Noise)
    (heap : Nat → Fin n → Nat → Double) :
    Delivers (α := α) (CompCallable eb ct) (deliveredAs eb ct heap)
      (compBroadcast crc32 eb ct noise heap) := by
  have hown : ∀ (root : Fin n) (m : Fin n → Buffer Double)
      (k : Fin n → Buffer Double → Proc (Fin n) (Tag (Fin n)) CompMessage α),
      Reaches (fun r => bcast (List.finRange n) root r Tag.bcast (CompMessage.own (m r)) fun w =>
        Proc.expect CompMessage.asOwn w (k r)) fun r => k r (m root) := by
    intro root m k
    exact reaches_bcast (List.nodup_finRange n) (List.mem_finRange ·) root (Tag.bcast)
      (fun r => CompMessage.own (m r)) fun r w => Proc.expect CompMessage.asOwn w (k r)
  intro i root m k hm
  rcases hm with ⟨ks, rfl⟩ | ⟨xs, rfl, hsend, hlen⟩
  · exact hown root (fun r => .ints (ks r)) k
  · by_cases hct : ct = .plain
    · have hgot : ∀ r, deliveredAs eb ct heap i root r (.doubles (xs root)) =
          .doubles (xs root) := by
        intro r
        simp [deliveredAs, received, hct]
      simp only [compBroadcast, if_pos hct, hgot]
      exact hown root (fun r => .doubles (xs r)) k
    · let buffers (r : Fin n) : List (BitVec 64) := toWords (xs r)
      have hroot : (buffers root).length = (xs root).length := toWords_length _
      have hbuffers : ∀ r, (buffers r).length = (buffers root).length := fun r => by
        simp only [buffers, toWords_length, hlen]
      obtain ⟨d, hd⟩ := hsend.decompresses
      by_cases hbytes : ct = .bytewise
      · subst hbytes
        obtain ⟨t, ht⟩ := bcastBytewise_outcome (fun r => (noise i r).past) hbuffers
          (hsend.inside rfl) hd
        have hproj : ∀ w, CompMessage.asByteWire (.bytewise w) = some w := fun _ => rfl
        have h := reaches_call hproj ht fun r ys => k r (.doubles (ofWords ys))
        have hgot : ∀ r, deliveredAs eb .bytewise heap i root r (.doubles (xs root)) =
            .doubles (ofWords (if r = root then buffers root else d)) := by
          intro r
          rw [deliveredAs]
          by_cases hr : r = root
          · simp only [if_pos hr, buffers, ofWords_toWords]
          · simp only [if_neg hr, received, if_neg hct, hd, if_true]
        simp only [compBroadcast, if_neg hct, if_true, hgot]
        exact h
      · obtain ⟨t, a, ht, ha⟩ := @bcastCompressed_outcome _ n crc32 eb root buffers hzlib ct hct
          hbytes (noise i) (hroot ▸ hsend.nonempty) hbuffers hsend.short d hd
        have hproj : ∀ w, CompMessage.asWire (.wire w) = some w := fun _ => rfl
        have h := reaches_call hproj ht fun r ret =>
          k r (.doubles (filled (heap i r) ret.buffer))
        have hgot : ∀ r, deliveredAs eb ct heap i root r (.doubles (xs root)) =
            .doubles (filled (heap i r) (a r).buffer) := by
          intro r
          rw [deliveredAs, ha, returned]
          by_cases hr : r = root
          · simp only [if_pos hr, buffers, filled_map_some, ofWords_toWords]
          · simp only [if_neg hr, received, if_neg hct, if_neg hbytes, hd, buffers,
              toWords_length]
        simp only [compBroadcast, if_neg hct, if_neg hbytes, hgot]
        exact h

/-- What a program computes from what is delivered, it computes in every interleaving. -/
theorem yields_withComp (hzlib : crc32 = zlibCrc32) {ct : CT}
    {heap : Nat → Fin n → Nat → Double} {P : Fin n → Prog (Fin n) (Buffer Double) α}
    {a : Fin n → α}
    (h : Runs (List.finRange n) (CompCallable eb ct) (deliveredAs eb ct heap) 0 P a)
    (noise : Nat → Fin n → Noise) : Yields (withComp crc32 eb ct noise heap P) a := by
  have hproj : ∀ m, CompMessage.asOwn (.own m) = some m := fun _ => rfl
  exact (h.reaches (List.nodup_finRange n) List.mem_finRange hproj Tag.bcast
    (delivers_comp hzlib ct noise heap)).determined

end Delivery

end MpiApps.Transfer
