/-
  MpiApps.Transfer.BcastCrc

  `MPI_Bcast_bitwise_crc`: a compressed broadcast of doubles under a CRC.

  The root broadcasts the number of bytes, the minimum, the compressed payload and its
  CRC.  Every other rank compares the CRC of what has arrived, reports its verdict, and
  receives the payload once more if the comparison has failed; then all ranks decompress.

  The protocol itself works for every root and every set of failing ranks, in any order
  of the steps.  What the ranks end up with depends on the codec alone: as long as no literal
  has its sign bit set, which only that of a NaN can have, they agree exactly when the
  compressed stream does not end with a bare word at a byte boundary (`bcastCrc_agrees_iff`),
  since otherwise the last element is decompressed by no rank.
-/

import MpiApps.Lib.Retransmission
import MpiApps.Transfer.SmallDataset

namespace MpiApps.Transfer

open MpiApps.BinaryFormat MpiApps.Codec MpiApps.Fault MpiApps.MessagePassing

/-! ## The code -/

/-- What a call leaves behind at a rank: `buffer`, where an element is `none` if it was
    computed from memory that nothing has written, and `*resend`. -/
structure CrcReturn where
  buffer : List (Option (BitVec 64))
  resend : Nat

section Code

variable {R : Type} [DecidableEq R]

/-- `crc_ok`.  An injected error sets `crc_check` to 0. -/
def crcOk (crc32 : BitVec 32 → BitVec 8 → BitVec 32) (crc : BitVec 32)
    (dataBits : List (BitVec 8)) (injected : Bool) : Char :=
  let crcCheck := if injected then 0 else doCrc32 crc32 dataBits
  if crc = crcCheck then 'y' else 'n'

/-- The loop of the root over `crc_ok_recv`, which counts in `*resend`. -/
def resendLoop (root : R) (dataBits : List (BitVec 8)) :
    List (R × Wire) → Nat → (Nat → Proc R (Tag R) Wire CrcReturn) →
      Proc R (Tag R) Wire CrcReturn
  | [], resend, k => k resend
  | (i, ok) :: rest, resend, k =>
    if i ≠ root ∧ ok = .chars ['n'] then
      .send i (.user i) (.bytes dataBits) (resendLoop root dataBits rest (resend + 1) k)
    else resendLoop root dataBits rest resend k

/-- The last part of the code at a rank other than the root. -/
def storeDecompressed [NanRule] (eb : ErrorBound) (count : Nat) (min : BitVec 64) (resend : Nat)
    (dataBits : List (BitVec 8)) : Proc R (Tag R) Wire CrcReturn :=
  match decompressedDouble eb dataBits count with
  | .ok decompressedData => .ret ⟨addMin min count decompressedData, resend⟩
  | .error _ => .abort

/-- `MPI_Bcast_bitwise_crc` at one rank.  What a rank other than the root receives in the
    broadcast of the payload goes through `corrupt`. -/
def mpiBcastBitwiseCrc [NanRule] (crc32 : BitVec 32 → BitVec 8 → BitVec 32) (eb : ErrorBound)
    (corrupt : List (BitVec 8) → List (BitVec 8)) (injected : Bool) (ranks : List R)
    (root rank : R) (buffer : List (BitVec 64)) (resend : Nat) :
    Proc R (Tag R) Wire CrcReturn :=
  let small := toSmallDatasetDouble buffer
  let s := myCompressBitwiseDouble (FloatArith.ieee double eb) small.2
  -- only the root computes these, the others start from 0 and an array to receive into
  let ownBytes := if rank = root then s.bytes else 0
  let ownMin := if rank = root then small.1 else 0
  let ownBits := if rank = root then s.dataBits.take s.bytes else []
  let ownCrc := if rank = root then doCrc32 crc32 (s.dataBits.take s.bytes) else 0
  bcast ranks root rank .bcast (.ints [ownBytes]) fun
    | .ints [dataBytes] =>
      bcast ranks root rank .bcast (.real ownMin) fun
        | .real min =>
          bcast ranks root rank .bcast (.bytes ownBits) fun
            | .bytes dataBits =>
              bcast ranks root rank .bcast (.word ownCrc) fun
                | .word crc =>
                  if rank = root then
                    gather ranks root rank .gather (.chars ['y']) fun crcOkRecv =>
                      resendLoop root dataBits (ranks.zip crcOkRecv) resend fun resend =>
                        -- the root decompresses for the statistics only
                        match decompressedDouble eb dataBits buffer.length with
                        | .ok _ => .ret ⟨buffer.map some, resend⟩
                        | .error _ => .abort
                  else
                    let received := corrupt (dataBits.take dataBytes)
                    gather ranks root rank .gather
                      (.chars [crcOk crc32 crc received injected]) fun _ =>
                        if crcOk crc32 crc received injected = 'n' then
                          .recv root (.user rank) fun
                            | .bytes dataBits =>
                              storeDecompressed eb buffer.length min resend
                                (dataBits.take dataBytes)
                            | _ => .abort
                        else storeDecompressed eb buffer.length min resend received
                | _ => .abort
            | _ => .abort
        | _ => .abort
    | _ => .abort

end Code

/-! ## What is decompressed -/

section Sent

variable [NanRule] (eb : ErrorBound) (buffer : List (BitVec 64))

/-- The bits of the words that the root compresses its elements to. -/
def sentLengths : List Nat :=
  codeLengths (FloatArith.ieee double eb) (literalBits double eb)
    (History.init (FloatArith.ieee double eb)) (toSmallDatasetDouble buffer).2

/-- The payload of the root. -/
def sentBits : List (BitVec 8) :=
  (myCompressBitwiseDouble (FloatArith.ieee double eb) (toSmallDatasetDouble buffer).2).dataBits

variable {eb buffer}

/-- With clear signs the payload is decompressed, and fills the array exactly if the stream does
    not end with a bare word at a byte boundary. -/
theorem decompressedDouble_sentBits (hclear : SignsClear double eb buffer) :
    ∃ d, decompressedDouble eb (sentBits eb buffer) buffer.length = .ok d ∧
      (d.length = buffer.length ↔ ¬ EndsBare double (sentLengths eb buffer)) := by
  obtain ⟨o, ho, hlen⟩ := decompressWith_returns (FloatArith.ieee double eb) hclear
  have hcount : (toSmallDataset double buffer).2.length = buffer.length :=
    toSmallDatasetDouble_length buffer
  rw [hcount] at ho hlen
  refine ⟨o.decompressed, ?_, hlen⟩
  exact congrArg (Except.map fun o => o.decompressed) ho

end Sent

/-- `decompressed_data[i] + min`. -/
def plusMin [NanRule] (min x : BitVec 64) : BitVec 64 := plus double x min

/-- Where every slot was written, every element is determined. -/
theorem addMin_of_length [NanRule] (min : BitVec 64) {count : Nat} {d : List (BitVec 64)}
    (h : d.length = count) : addMin min count d = d.map fun x => some (plusMin min x) := by
  subst h
  apply List.ext_getElem
  · exact (List.length_map _).trans (List.length_range.trans (List.length_map _).symm)
  · intro i hi hi'
    have hid : i < d.length := by simpa using hi'
    simp only [addMin, List.getElem_map, List.getElem_range]
    exact congrArg (Option.map (plusMin min)) (List.getElem?_eq_getElem hid)

/-! ## The ranks -/

theorem localRun_resendLoop {R : Type} [DecidableEq R] (root : R) (dataBits : List (BitVec 8))
    (l : List (R × Wire)) (resend : Nat) (k : Nat → Proc R (Tag R) Wire CrcReturn) :
    LocalRun (resendLoop root dataBits l resend k)
      ((l.filter fun x => decide (x.1 ≠ root) && decide (x.2 = .chars ['n'])).map fun x =>
        .sent x.1 (.user x.1) (.bytes dataBits))
      (k (resend +
        (l.filter fun x => decide (x.1 ≠ root) && decide (x.2 = .chars ['n'])).length)) := by
  induction l generalizing resend with
  | nil => exact .refl _
  | cons x l ih =>
      obtain ⟨i, ok⟩ := x
      rw [resendLoop]
      by_cases h : i ≠ root ∧ ok = .chars ['n']
      · rw [if_pos h, List.filter_cons_of_pos (by simpa using h), List.length_cons,
          List.map_cons, ← Nat.add_assoc, Nat.add_right_comm]
        exact .head .send (ih (resend + 1))
      · rw [if_neg h, List.filter_cons_of_neg (by simpa using h)]
        exact ih resend

/-- Whether the comparison of the CRCs fails at a rank, given the payload of the root. -/
def crcFails (crc32 : BitVec 32 → BitVec 8 → BitVec 32) (sent : List (BitVec 8))
    (corrupt : List (BitVec 8) → List (BitVec 8)) (injected : Bool) : Bool :=
  decide (crcOk crc32 (doCrc32 crc32 sent) (corrupt sent) injected = 'n')

section Ranks

variable [NanRule] {R : Type} [DecidableEq R] (crc32 : BitVec 32 → BitVec 8 → BitVec 32)
  (eb : ErrorBound) (ranks : List R) {root rank : R} {buffer : List (BitVec 64)}

/-- What the root broadcasts. -/
def crcWires (buffer : List (BitVec 64)) : List Wire :=
  [.ints [(sentBits eb buffer).length], .real (toSmallDatasetDouble buffer).1,
    .bytes (sentBits eb buffer), .word (doCrc32 crc32 (sentBits eb buffer))]

/-- The root after the gather. -/
def crcResend (root : R) (buffer : List (BitVec 64)) (resend : Nat) (crcOkRecv : List Wire) :
    Proc R (Tag R) Wire CrcReturn :=
  resendLoop root (sentBits eb buffer) (ranks.zip crcOkRecv) resend fun resend =>
    match decompressedDouble eb (sentBits eb buffer) buffer.length with
    | .ok _ => .ret ⟨buffer.map some, resend⟩
    | .error _ => .abort

theorem compressed_take (eb : ErrorBound) (buffer : List (BitVec 64)) :
    (myCompressBitwiseDouble (FloatArith.ieee double eb) (toSmallDatasetDouble buffer).2).bytes =
        (sentBits eb buffer).length ∧
      (sentBits eb buffer).take (myCompressBitwiseDouble (FloatArith.ieee double eb)
        (toSmallDatasetDouble buffer).2).bytes = sentBits eb buffer := by
  have hbytes : (myCompressBitwiseDouble (FloatArith.ieee double eb)
      (toSmallDatasetDouble buffer).2).bytes = (sentBits eb buffer).length :=
    (compressWith_packed _ _ _).bytes_eq
  exact ⟨hbytes, List.take_of_length_le hbytes.ge⟩

theorem localRun_crc_root (root : R) (buffer : List (BitVec 64)) (resend : Nat)
    (corrupt : List (BitVec 8) → List (BitVec 8)) (injected : Bool) :
    LocalRun (mpiBcastBitwiseCrc crc32 eb corrupt injected ranks root root buffer resend)
      (announcements ranks root (crcWires crc32 eb buffer))
      (gather ranks root root .gather (.chars ['y'])
        (crcResend eb ranks root buffer resend)) := by
  obtain ⟨hbytes, htake⟩ := compressed_take eb buffer
  simp only [mpiBcastBitwiseCrc, if_true, crcWires, announcements_cons]
  rw [← sentBits, htake, hbytes]
  refine (localRun_bcast_root ranks root _ _ _).trans ?_
  refine (localRun_bcast_root ranks root _ _ _).trans ?_
  refine (localRun_bcast_root ranks root _ _ _).trans ?_
  exact (localRun_bcast_root ranks root _ _ _).trans (.refl _)

/-- The other ranks after the gather. -/
def crcFinish (root rank : R) (count : Nat) (min : BitVec 64) (resend : Nat)
    (sent : List (BitVec 8)) (corrupt : List (BitVec 8) → List (BitVec 8)) (injected : Bool) :
    Proc R (Tag R) Wire CrcReturn :=
  if crcOk crc32 (doCrc32 crc32 sent) (corrupt sent) injected = 'n' then
    .recv root (.user rank) fun
      | .bytes dataBits =>
        storeDecompressed eb count min resend (dataBits.take sent.length)
      | _ => .abort
  else storeDecompressed eb count min resend (corrupt sent)

theorem localRun_crc (hrank : rank ≠ root) (own buffer : List (BitVec 64)) (resend : Nat)
    (corrupt : List (BitVec 8) → List (BitVec 8)) (injected : Bool) :
    LocalRun (mpiBcastBitwiseCrc crc32 eb corrupt injected ranks root rank own resend)
      (reported root (crcWires crc32 eb buffer)
        (.chars [crcOk crc32 (doCrc32 crc32 (sentBits eb buffer)) (corrupt (sentBits eb buffer))
          injected]))
      (crcFinish crc32 eb root rank own.length (toSmallDatasetDouble buffer).1 resend
        (sentBits eb buffer) corrupt injected) := by
  have htake : (sentBits eb buffer).take (sentBits eb buffer).length = sentBits eb buffer :=
    List.take_length
  have hg := localRun_gather (α := CrcReturn) hrank ranks Tag.gather
    (Wire.chars [crcOk crc32 (doCrc32 crc32 (sentBits eb buffer)) (corrupt (sentBits eb buffer))
      injected]) fun _ => crcFinish crc32 eb root rank own.length (toSmallDatasetDouble buffer).1
        resend (sentBits eb buffer) corrupt injected
  -- the four broadcasts come in, then the verdict goes out
  simp only [mpiBcastBitwiseCrc, if_neg hrank, reported, crcWires, List.map_cons, List.cons_append]
  refine (localRun_bcast hrank ranks _ _ (Wire.ints [(sentBits eb buffer).length]) _).trans ?_
  refine (localRun_bcast hrank ranks _ _ (Wire.real (toSmallDatasetDouble buffer).1) _).trans ?_
  refine (localRun_bcast hrank ranks _ _ (Wire.bytes (sentBits eb buffer)) _).trans ?_
  refine (localRun_bcast hrank ranks _ _
    (Wire.word (doCrc32 crc32 (sentBits eb buffer))) _).trans ?_
  simp only [htake]
  exact hg

end Ranks

/-! ## The broadcast -/

section Verdicts

variable {n : Nat} {root : Fin n} {S : Finset (Fin n)}

theorem length_filter_mem (S : Finset (Fin n)) :
    ((List.finRange n).filter (· ∈ S)).length = S.card := by
  have hset : S = ((List.finRange n).filter (· ∈ S)).toFinset := by
    ext i
    simp
  rw [← List.toFinset_card_of_nodup ((List.nodup_finRange n).filter _), ← hset]

/-- The root is not among the ranks that wait for a retransmission. -/
theorem filter_needs (hroot : root ∉ S) :
    ((List.finRange n).filter fun i => decide (i ≠ root) && decide (i ∈ S)) =
      (List.finRange n).filter (· ∈ S) := by
  apply List.filter_congr
  intro i _
  by_cases hi : i ∈ S
  · have hne : i ≠ root := fun h => hroot (h ▸ hi)
    simp [hi, hne]
  · simp [hi]

/-- What the ranks report. -/
def crcVerdict (crc32 : BitVec 32 → BitVec 8 → BitVec 32)
    (corrupt : Fin n → List (BitVec 8) → List (BitVec 8)) (injected : Fin n → Bool) (root : Fin n)
    (sent : List (BitVec 8)) (r : Fin n) : Wire :=
  if r = root then .chars ['y']
  else .chars [crcOk crc32 (doCrc32 crc32 sent) (corrupt r sent) (injected r)]

end Verdicts

section Broadcast

variable [NanRule] {n : Nat} {crc32 : BitVec 32 → BitVec 8 → BitVec 32} {eb : ErrorBound}
  {corrupt : Fin n → List (BitVec 8) → List (BitVec 8)} {injected : Fin n → Bool} {root : Fin n}
  {buffers : Fin n → List (BitVec 64)} {resend : Fin n → Nat} {S : Finset (Fin n)}

/-- All ranks at the call of `MPI_Bcast_bitwise_crc`. -/
def crcSys (crc32 : BitVec 32 → BitVec 8 → BitVec 32) (eb : ErrorBound)
    (corrupt : Fin n → List (BitVec 8) → List (BitVec 8)) (injected : Fin n → Bool)
    (root : Fin n) (buffers : Fin n → List (BitVec 64)) (resend : Fin n → Nat) :
    Sys (Fin n) (Tag (Fin n)) Wire CrcReturn where
  proc rank := mpiBcastBitwiseCrc crc32 eb (corrupt rank) (injected rank) (List.finRange n) root
    rank (buffers rank) (resend rank)
  chan _ _ _ := []
  log _ := []

/-- The purpose of the broadcast, with `S` the ranks whose comparison fails.  There is one
    outcome, which every run reaches.  The root sends the payload once to each rank of `S`
    and counts that, and these are all messages between two ranks.  The root's buffer is
    unchanged, and the other ranks have what the root's stream is decompressed to, plus the
    minimum, with no element left over. -/
def BcastCrcAgrees (crc32 : BitVec 32 → BitVec 8 → BitVec 32) (eb : ErrorBound)
    (corrupt : Fin n → List (BitVec 8) → List (BitVec 8)) (injected : Fin n → Bool)
    (root : Fin n) (buffers : Fin n → List (BitVec 64)) (resend : Fin n → Nat)
    (S : Finset (Fin n)) : Prop :=
  ∃ t a, Outcome (crcSys crc32 eb corrupt injected root buffers resend) t a ∧
    (∀ u m, Run (crcSys crc32 eb corrupt injected root buffers resend) u m →
      (∃ k, Run u t k) ∧ (u.Terminal → u = t)) ∧
    (t.log root).filter Event.isUser = ((List.finRange n).filter (· ∈ S)).map (fun i =>
      .sent i (.user i) (.bytes (sentBits eb (buffers root)))) ∧
    (∀ r, r ≠ root → (t.log r).filter Event.isUser =
      if r ∈ S then [.received root (.user r) (.bytes (sentBits eb (buffers root)))] else []) ∧
    (a root).resend = resend root + S.card ∧ (∀ r, r ≠ root → (a r).resend = resend r) ∧
    (a root).buffer = (buffers root).map some ∧
    ∃ d, decompressedDouble eb (sentBits eb (buffers root)) (buffers root).length = .ok d ∧
      ∀ r, r ≠ root → d.length = (buffers root).length ∧
        (a r).buffer = d.map fun x => some (plusMin (toSmallDatasetDouble (buffers root)).1 x)

/-- The end of the root: it resends to the ranks of `S` and counts them. -/
theorem localRun_crcResend (resend : Fin n → Nat)
    (hS : ∀ r, r ∈ S ↔ r ≠ root ∧
      crcFails crc32 (sentBits eb (buffers root)) (corrupt r) (injected r) = true)
    {d : List (BitVec 64)}
    (hd : decompressedDouble eb (sentBits eb (buffers root)) (buffers root).length = .ok d) :
    LocalRun (crcResend eb (List.finRange n) root (buffers root) (resend root)
        ((List.finRange n).map (crcVerdict crc32 corrupt injected root
          (sentBits eb (buffers root)))))
      (resends (List.finRange n) root (fun r => decide (r ∈ S))
        (.bytes (sentBits eb (buffers root))))
      (.ret ⟨(buffers root).map some, resend root + S.card⟩) := by
  have hverdict : ∀ r, r ≠ root →
      (crcVerdict crc32 corrupt injected root (sentBits eb (buffers root)) r = .chars ['n'] ↔
        decide (r ∈ S) = true) := by
    intro r hr
    rw [decide_eq_true_iff, hS r]
    simp [crcVerdict, hr, crcFails]
  have hpick := @filter_needs n root S fun h => ((hS root).mp h).1 rfl
  have hzip := @filter_zip_verdicts n root (List.finRange n) _ _ hverdict
    (Wire.bytes (sentBits eb (buffers root)))
  rw [hpick] at hzip
  have hloop := localRun_resendLoop root (sentBits eb (buffers root))
    ((List.finRange n).zip ((List.finRange n).map (crcVerdict crc32 corrupt injected root
      (sentBits eb (buffers root))))) (resend root) fun resend =>
      match decompressedDouble eb (sentBits eb (buffers root)) (buffers root).length with
      | .ok _ => .ret ⟨(buffers root).map some, resend⟩
      | .error _ => .abort
  have hevents := congrArg (List.map fun x => Event.sent x.1 x.2.1 x.2.2) hzip
  have hcount := congrArg List.length hzip
  rw [List.map_map, List.map_map] at hevents
  rw [List.length_map, List.length_map, length_filter_mem] at hcount
  -- the root's own stream is decompressed, so it does not abort
  have hret : (match decompressedDouble eb (sentBits eb (buffers root)) (buffers root).length with
      | .ok _ => .ret ⟨(buffers root).map some, resend root + S.card⟩
      | .error _ => .abort : Proc (Fin n) (Tag (Fin n)) Wire CrcReturn) =
      .ret ⟨(buffers root).map some, resend root + S.card⟩ := by
    rw [hd]
  rw [hcount] at hloop
  replace hloop := hret ▸ hloop
  rw [resends, hpick]
  exact hevents ▸ hloop

/-- The end of another rank: it receives again if its comparison has failed. -/
theorem localRun_crcFinish (resend : Fin n → Nat)
    (hbuffers : ∀ r, (buffers r).length = (buffers root).length)
    (hS : ∀ r, r ∈ S ↔ r ≠ root ∧
      crcFails crc32 (sentBits eb (buffers root)) (corrupt r) (injected r) = true)
    (hintact : ∀ r, r ≠ root → r ∉ S →
      corrupt r (sentBits eb (buffers root)) = sentBits eb (buffers root))
    {d : List (BitVec 64)}
    (hd : decompressedDouble eb (sentBits eb (buffers root)) (buffers root).length = .ok d)
    {r : Fin n} (hr : r ≠ root) :
    LocalRun (crcFinish crc32 eb root r (buffers r).length
        (toSmallDatasetDouble (buffers root)).1 (resend r) (sentBits eb (buffers root))
        (corrupt r) (injected r))
      (repaired root (fun r => decide (r ∈ S)) (Wire.bytes (sentBits eb (buffers root))) r)
      (.ret ⟨addMin (toSmallDatasetDouble (buffers root)).1 (buffers root).length d,
        resend r⟩) := by
  have hstore : (storeDecompressed eb (buffers r).length (toSmallDatasetDouble (buffers root)).1
      (resend r) (sentBits eb (buffers root)) : Proc (Fin n) (Tag (Fin n)) Wire CrcReturn) =
      .ret ⟨addMin (toSmallDatasetDouble (buffers root)).1 (buffers root).length d,
        resend r⟩ := by
    rw [storeDecompressed, hbuffers r, hd]
  rw [repaired, crcFinish]
  by_cases hn : r ∈ S
  · -- the comparison has failed: what is decompressed comes with the second message
    have hfail := of_decide_eq_true ((hS r).mp hn).2
    rw [if_pos hfail, if_pos (decide_eq_true hn)]
    refine .head (.recv (m := Wire.bytes (sentBits eb (buffers root)))) ?_
    simp only [List.take_length, hstore]
    exact .refl _
  · -- it has not: the bytes at hand are those that were sent
    have hpass : ¬ crcOk crc32 (doCrc32 crc32 (sentBits eb (buffers root)))
        (corrupt r (sentBits eb (buffers root))) (injected r) = 'n' :=
      fun h => hn ((hS r).mpr ⟨hr, decide_eq_true h⟩)
    rw [if_neg hpass, if_neg (by simpa using hn), hintact r hr hn, hstore]
    exact .refl _

/-- The outcome of the protocol, whatever is decompressed. -/
theorem bcastCrc_outcome (resend : Fin n → Nat)
    (hbuffers : ∀ r, (buffers r).length = (buffers root).length)
    (hS : ∀ r, r ∈ S ↔ r ≠ root ∧
      crcFails crc32 (sentBits eb (buffers root)) (corrupt r) (injected r) = true)
    (hintact : ∀ r, r ≠ root → r ∉ S →
      corrupt r (sentBits eb (buffers root)) = sentBits eb (buffers root))
    {d : List (BitVec 64)}
    (hd : decompressedDouble eb (sentBits eb (buffers root)) (buffers root).length = .ok d) :
    ∃ t, Outcome (crcSys crc32 eb corrupt injected root buffers resend) t (fun r =>
        if r = root then ⟨(buffers root).map some, resend root + S.card⟩
        else ⟨addMin (toSmallDatasetDouble (buffers root)).1 (buffers root).length d, resend r⟩) ∧
      (t.log root).filter Event.isUser = ((List.finRange n).filter (· ∈ S)).map (fun i =>
        .sent i (.user i) (.bytes (sentBits eb (buffers root)))) ∧
      ∀ r, r ≠ root → (t.log r).filter Event.isUser =
        if r ∈ S then [.received root (.user r) (.bytes (sentBits eb (buffers root)))] else [] := by
  let ok := crcVerdict crc32 corrupt injected root (sentBits eb (buffers root))
  have hroot := localRun_crc_root crc32 eb (List.finRange n) root (buffers root) (resend root)
    (corrupt root) (injected root)
  have hown : ok root = .chars ['y'] := if_pos rfl
  rw [← hown] at hroot
  -- every other rank reports what its comparison says
  have hothers : ∀ r, r ≠ root →
      LocalRun ((crcSys crc32 eb corrupt injected root buffers resend).proc r)
        (reported root (crcWires crc32 eb (buffers root)) (ok r))
        (crcFinish crc32 eb root r (buffers r).length (toSmallDatasetDouble (buffers root)).1
          (resend r) (sentBits eb (buffers root)) (corrupt r) (injected r)) := by
    intro r hr
    have hown : ok r = .chars [crcOk crc32 (doCrc32 crc32 (sentBits eb (buffers root)))
        (corrupt r (sentBits eb (buffers root))) (injected r)] := if_neg hr
    rw [hown]
    exact localRun_crc crc32 eb (List.finRange n) hr (buffers r) (buffers root) (resend r)
      (corrupt r) (injected r)
  obtain ⟨t, hout, ht⟩ := @retransmission_outcome (Fin n) Wire CrcReturn _ (List.finRange n) root
    (crcWires crc32 eb (buffers root)) ok (fun r => decide (r ∈ S))
    (Wire.bytes (sentBits eb (buffers root)))
    (fun r => if r = root then ⟨(buffers root).map some, resend root + S.card⟩
      else ⟨addMin (toSmallDatasetDouble (buffers root)).1 (buffers root).length d, resend r⟩)
    (crcSys crc32 eb corrupt injected root buffers resend)
    (crcResend eb (List.finRange n) root (buffers root) (resend root))
    (fun r _ => crcFinish crc32 eb root r (buffers r).length
      (toSmallDatasetDouble (buffers root)).1 (resend r) (sentBits eb (buffers root)) (corrupt r)
      (injected r))
    _ (List.nodup_finRange n) List.mem_finRange (fun _ _ _ => rfl) (fun _ => rfl) hroot hothers
    (by
      rw [if_pos rfl]
      exact localRun_crcResend resend hS hd)
    (fun r hr => by
      rw [if_neg hr]
      exact localRun_crcFinish resend hbuffers hS hintact hd hr)
  refine ⟨t, hout, ?_, ?_⟩
  · rw [ht root, if_pos rfl, filter_isUser_root, resends,
      @filter_needs n root S fun h => ((hS root).mp h).1 rfl]
  · intro r hr
    rw [ht r, if_neg hr, filter_isUser_other, repaired]
    by_cases hn : r ∈ S
    · rw [if_pos (decide_eq_true hn), if_pos hn]
    · rw [if_neg (by simpa using hn), if_neg hn]

/-- Without a sign bit in a literal, the ranks agree exactly if the stream of the root does not
    end with a bare word at a byte boundary, or there is no other rank. -/
theorem bcastCrc_agrees_iff
    (hbuffers : ∀ r, (buffers r).length = (buffers root).length)
    (hS : ∀ r, r ∈ S ↔ r ≠ root ∧
      crcFails crc32 (sentBits eb (buffers root)) (corrupt r) (injected r) = true)
    (hintact : ∀ r, r ≠ root → r ∉ S →
      corrupt r (sentBits eb (buffers root)) = sentBits eb (buffers root)) :
    (SignsClear double eb (buffers root) ∧
        ((∃ r, r ≠ root) → ¬ EndsBare double (sentLengths eb (buffers root))) →
      BcastCrcAgrees crc32 eb corrupt injected root buffers resend S) ∧
    (BcastCrcAgrees crc32 eb corrupt injected root buffers resend S →
      SignsClear double eb (buffers root) →
        (∃ r, r ≠ root) → ¬ EndsBare double (sentLengths eb (buffers root))) := by
  constructor
  · rintro ⟨hclear, hbare⟩
    obtain ⟨d, hd, hfull⟩ := decompressedDouble_sentBits hclear
    obtain ⟨t, hout, hroot, hothers⟩ := bcastCrc_outcome resend hbuffers hS hintact hd
    refine ⟨t, _, hout, fun u m hu => ⟨hout.reachable hu, hout.unique hu⟩, hroot, hothers, ?_, ?_,
      ?_, d, hd, ?_⟩
    · simp
    · intro r hr
      simp [hr]
    · simp
    · intro r hr
      have hlen := hfull.mpr (hbare ⟨r, hr⟩)
      refine ⟨hlen, ?_⟩
      simp only [if_neg hr]
      exact addMin_of_length _ hlen
  · rintro ⟨_, _, _, _, _, _, _, _, _, d', hd', hall⟩ hclear ⟨r, hr⟩
    obtain ⟨d, hd, hfull⟩ := decompressedDouble_sentBits hclear
    obtain rfl : d = d' := Except.ok.inj (hd.symm.trans hd')
    exact hfull.mp (hall r hr).1

end Broadcast

section Examples

attribute [local instance] NanRule.sse

/-- The first byte is lost on the way to rank 0. -/
def loseAtZero (r : Fin 3) (dataBits : List (BitVec 8)) : List (BitVec 8) :=
  if r.val = 0 then dataBits.tail else dataBits

/-- Rank 1 has `1.5, -2, 0.1, 0.1, 0.1`, the others wait for five doubles. -/
def fiveDoubles (r : Fin 3) : List (BitVec 64) :=
  if r.val = 1 then [0x3FF8000000000000, 0xC000000000000000, 0x3FB999999999999A,
    0x3FB999999999999A, 0x3FB999999999999A]
  else [0, 0, 0, 0, 0]

/-- The payload of rank 1: two literals and three codes. -/
theorem sentBits_fiveDoubles : sentBits absErrorBound (fiveDoubles 1) =
    [0x40, 0x0C, 0x00, 0x00, 0x44, 0x00, 0x0C, 0xCC, 0xCD, 0xA0] := by decide +kernel

/-- Three ranks with five doubles, sent by rank 1 and once more to rank 0. -/
theorem bcastCrc_agrees_iff_three :
    BcastCrcAgrees zlibCrc32 absErrorBound loseAtZero (fun _ => false) 1 fiveDoubles (fun _ => 0)
      {0} :=
  (@bcastCrc_agrees_iff .sse 3 zlibCrc32 absErrorBound loseAtZero (fun _ => false) 1 fiveDoubles
    (fun _ => 0) {0} (by decide)
    (by rw [sentBits_fiveDoubles]; decide +kernel)
    (by rw [sentBits_fiveDoubles]; decide +kernel)).1
    ⟨@signsClear_of_finite .sse double (fiveDoubles 1) (.inl rfl) absErrorBound
      (finite_of_all (by decide +kernel)), fun _ => by decide +kernel⟩

/-- A NaN with sign bit 1 behind a zero and in front of five zeros: its word is cut into five
    codes and a literal that takes the words of the zeros, and so seven values come out again. -/
def nanAmongZeros : List (BitVec 64) := [0, 0xFFF8876000000000, 0, 0, 0, 0, 0]

-- signs that are not clear need not be noticed
example : ¬ SignsClear double absErrorBound nanAmongZeros ∧
    (decompressedDouble absErrorBound (sentBits absErrorBound nanAmongZeros) 7).toOption.map
      List.length = some 7 :=
  ⟨fun h => absurd (h 0xFFF8876000000000 (by decide +kernel) (by decide +kernel)) (by decide),
    by decide +kernel⟩

/-- The root's buffer `0, 0, 0, 0, 1.5e-6`; the other rank waits for five doubles. -/
def zerosThenSmall (r : Fin 2) : List (BitVec 64) :=
  if r.val = 0 then [0, 0, 0, 0, 0x3EB92A737110E454] else [0, 0, 0, 0, 0]

/-- Four codes and twelve bits for the last number fill three bytes, and the other rank adds
    the minimum to memory that nothing has written. -/
theorem bcastCrc_last_element_lost :
    ¬ ∀ (n : Nat) (crc32 : BitVec 32 → BitVec 8 → BitVec 32) (eb : ErrorBound)
      (corrupt : Fin n → List (BitVec 8) → List (BitVec 8)) (injected : Fin n → Bool)
      (root : Fin n) (buffers : Fin n → List (BitVec 64)) (resend : Fin n → Nat)
      (S : Finset (Fin n)), 1 ≤ (buffers root).length →
      (∀ r, (buffers r).length = (buffers root).length) →
      (∀ r, r ∈ S ↔ r ≠ root ∧
        crcFails crc32 (sentBits eb (buffers root)) (corrupt r) (injected r) = true) →
      (∀ r, r ≠ root → r ∉ S → corrupt r (sentBits eb (buffers root)) =
        sentBits eb (buffers root)) →
      BcastCrcAgrees crc32 eb corrupt injected root buffers resend S := by
  intro hall
  have hS : ∀ r : Fin 2, r ∈ (∅ : Finset (Fin 2)) ↔ r ≠ 0 ∧
      crcFails zlibCrc32 (sentBits absErrorBound (zerosThenSmall 0)) id false = true := by
    intro r
    simp [crcFails, crcOk]
  obtain ⟨t, a, _, _, _, _, _, _, _, d, hd, hfull⟩ := hall 2 zlibCrc32 absErrorBound
    (fun _ => id) (fun _ => false) 0 zerosThenSmall (fun _ => 0) ∅ (by decide) (by decide) hS
    (fun _ _ _ => rfl)
  have hfinite : ∀ x ∈ zerosThenSmall 0, double.Finite (bitsOf x) :=
    finite_of_all (by decide +kernel)
  obtain ⟨d', hd', hbare⟩ := decompressedDouble_sentBits
    (signsClear_of_finite (.inl rfl) absErrorBound hfinite)
  obtain rfl : d = d' := Except.ok.inj (hd.symm.trans hd')
  have hends : EndsBare double (sentLengths absErrorBound (zerosThenSmall 0)) := by
    decide +kernel
  exact hbare.mp (hfull 1 (by decide)).1 hends

end Examples

end MpiApps.Transfer
