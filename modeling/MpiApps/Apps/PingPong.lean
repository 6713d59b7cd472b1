/-
  MpiApps.Apps.PingPong

  Ping-pong with retransmission between two ranks.

  In each round the rank whose turn it is by `ping_pong_count` sends the count, the compressed
  data and what protects it.  The other rank checks the data and answers with `crc_ok`.
  Both count the round if the data was accepted, and take the count back if it was not;
  then the same rank sends again.  The receiver of the last round that counts decompresses the
  data before it leaves the loop, and may not get out of this (`endRound`).

  What the random bit errors do at a check is arbitrary, so every sequence of answers is
  covered.  The rounds of the two ranks are put together in `rounds`; the
  results hold of every run, in which one rank may be a round ahead of the other.  A rank that
  has stopped in the loop is a loop state of its own, from which nothing goes on.
-/

import MpiApps.Lib.Collectives
import MpiApps.Lib.Rounds
import MpiApps.Transfer.BcastMaskCrc

namespace MpiApps.PingPong

open MpiApps.BinaryFormat MpiApps.Codec MpiApps.MessagePassing MpiApps.Windows MpiApps.Fault
  MpiApps.Transfer

/-! ## The code -/

/-- `CT`: 8, 9 and 10. -/
inductive Mode
  | crc
  | maskCrc
  | crcHamming
  deriving DecidableEq, Repr

/-- The tag of the compressed data. -/
def Mode.dataTag : Mode → Nat
  | .crc => 4
  | .maskCrc => 9
  | .crcHamming => 10

/-- The variables of a rank that outlive a round.  `dataBits` is the stream that the mode
    sends, and `checks` counts the checks that the random errors have been drawn for. -/
structure Local where
  pingPongCount : Nat
  dataBits : List (BitVec 8)
  resent : Nat
  checks : Nat
  deriving DecidableEq, Repr

/-- The random errors at the checks of a rank: the bit flips in the data, or whether
    `crc_check` is set to zero. -/
structure Errors where
  flip : Nat → List (BitVec 8) → List (BitVec 8)
  zero : Nat → Bool

/-- What the decompression reads besides the stream. -/
structure Decoding where
  eb : ErrorBound
  dataNum : Nat
  type : Nat
  medium : BitVec 64

/-- The end of a round: the variables, or a fault that has stopped the rank. -/
abbrev State := Except Codec.Fault Local

/-- `partner_rank`. -/
def partnerRank (worldRank : Fin 2) : Fin 2 := ⟨(worldRank + 1) % 2, Nat.mod_lt _ Nat.two_pos⟩

section Code

variable (mode : Mode) (limit : Nat) (crc32 : BitVec 32 → BitVec 8 → BitVec 32)
  (plan : BlockPlan) (dec : Decoding)

/-- The stream that the mode sends, and what decompresses it. -/
def prepared [NanRule] (eb : ErrorBound) (data : List (BitVec 64)) : List (BitVec 8) × Decoding :=
  let dataSmall := (toSmallDatasetDouble data).2
  let med := medDatasetDouble dataSmall
  let A := FloatArith.ieee double eb
  let s :=
    match mode with
    | .maskCrc => myCompressBitwiseDoubleMask A dataSmall med.2 (maskOf double med.1)
    | .crc | .crcHamming => myCompressBitwiseDouble A dataSmall
  (s.dataBits.take s.bytes, ⟨eb, data.length, med.2, med.1⟩)

/-- `decompressed_data`. -/
def decompress (dataBits : List (BitVec 8)) : Except Codec.Fault (List (BitVec 64)) :=
  match mode with
  | .maskCrc => decompressedDoubleMask dec.eb dec.dataNum dec.type dec.medium dataBits
  | .crc | .crcHamming => decompressedDouble dec.eb dataBits dec.dataNum

/-- A rejected round. -/
def Local.reject (s : Local) : Local :=
  { s with pingPongCount := s.pingPongCount - 1, resent := s.resent + 1 }

/-- The loop over the blocks: `crc_ok` and the variables afterwards. -/
def decodeLoop (r : List Nat) (c : List (List Char)) : List Nat → Local → Char × Local
  | [], s => ('y', s)
  | i :: is, s =>
    let out := hammingDecode (plan.received c i s.dataBits) (r.getD i 0)
    let s := { s with dataBits := setWindow (i * plan.bs) out.2.bits s.dataBits }
    if out.1 = 1 then ('n', s.reject) else decodeLoop r c is s

/-- The receiver's check of what has arrived, with the count it has received. -/
def check (errors : Errors) (s : Local) (count : Nat) (arrived : Payload) : Char × Local :=
  let s := { s with pingPongCount := count, checks := s.checks + 1 }
  match mode with
  | .crc =>
    let s := { s with dataBits := errors.flip s.checks arrived.dataBits }
    if arrived.crc = doCrc32 crc32 s.dataBits then ('y', s) else ('n', s.reject)
  | .maskCrc =>
    let s := { s with dataBits := arrived.dataBits }
    let crcCheck := if errors.zero s.checks then 0 else doCrc32 crc32 s.dataBits
    if arrived.crc = crcCheck then ('y', s) else ('n', s.reject)
  | .crcHamming =>
    let s := { s with dataBits := errors.flip s.checks arrived.dataBits }
    if arrived.crc = doCrc32 crc32 s.dataBits then ('y', s)
    else decodeLoop plan arrived.r arrived.c (List.range plan.bsNum) s

/-- The loop that sends `c[i]`, from block `i` on. -/
def sendChecks (partner : Fin 2) :
    Nat → List (List Char) → Proc (Fin 2) Nat Wire State → Proc (Fin 2) Nat Wire State
  | _, [], k => k
  | i, c :: cs, k => .send partner (1001 + i) (.chars c) (sendChecks partner (i + 1) cs k)

/-- The loop that receives `c[i]` for the remaining blocks, from block `i` on. -/
def recvChecks (partner : Fin 2) : Nat → Nat → (List (List Char) → Proc (Fin 2) Nat Wire State) →
    Proc (Fin 2) Nat Wire State
  | _, 0, k => k []
  | i, n + 1, k =>
    .recv partner (1001 + i) fun
      | .chars c => recvChecks partner (i + 1) n fun cs => k (c :: cs)
      | _ => .abort

/-- The check characters of the blocks, which are sent if `CT` is 10. -/
def sendCode (partner : Fin 2) (p : Payload) (k : Proc (Fin 2) Nat Wire State) :
    Proc (Fin 2) Nat Wire State :=
  match mode with
  | .crcHamming => .send partner 1000 (.ints p.r) (sendChecks partner 0 p.c k)
  | _ => k

def recvCode (partner : Fin 2)
    (k : List Nat → List (List Char) → Proc (Fin 2) Nat Wire State) :
    Proc (Fin 2) Nat Wire State :=
  match mode with
  | .crcHamming =>
    .recv partner 1000 fun
      | .ints r => recvChecks partner 0 plan.bsNum fun c => k r c
      | _ => .abort
  | _ => k [] []

/-- The sender waits for `crc_ok`. -/
def awaitAnswer (partner : Fin 2) (s : Local) : Proc (Fin 2) Nat Wire State :=
  .recv partner 100 fun
    | .chars [crcOk] =>
      .ret (.ok (if crcOk = 'n' then { s with pingPongCount := s.pingPongCount - 1 } else s))
    | _ => .abort

/-- The end of the receiver's round: when the count is at the limit it decompresses. -/
def endRound (s : Local) : State :=
  if s.pingPongCount = limit then (decompress mode dec s.dataBits).map fun _ => s
  else .ok s

/-- The receiver sends `crc_ok`, and ends its round. -/
def giveAnswer (partner : Fin 2) (out : Char × Local) : Proc (Fin 2) Nat Wire State :=
  .send partner 100 (.chars [out.1]) (.ret (endRound mode limit dec out.2))

/-- A round of the sender. -/
def sendRound (worldRank : Fin 2) (s : Local) : Proc (Fin 2) Nat Wire State :=
  let partner := partnerRank worldRank
  -- the count is incremented before it is sent
  let s := { s with pingPongCount := s.pingPongCount + 1 }
  let p := protect crc32 plan s.dataBits
  .send partner 0 (.ints [s.pingPongCount])
    (.send partner mode.dataTag (.bytes p.dataBits)
      (.send partner 32 (.word p.crc)
        (sendCode mode partner p (awaitAnswer partner s))))

/-- A round of the receiver. -/
def recvRound (errors : Errors) (worldRank : Fin 2) (s : Local) : Proc (Fin 2) Nat Wire State :=
  let partner := partnerRank worldRank
  .recv partner 0 fun
    | .ints [count] =>
      .recv partner mode.dataTag fun
        | .bytes dataBits =>
          .recv partner 32 fun
            | .word crc =>
              recvCode mode plan partner fun r c =>
                giveAnswer mode limit dec partner
                  (check mode crc32 plan errors s count ⟨dataBits, crc, r, c⟩)
            | _ => .abort
        | _ => .abort
    | _ => .abort

/-- The main loop. -/
def body (errors : Fin 2 → Errors) (worldRank : Fin 2) :
    State → Option (Proc (Fin 2) Nat Wire State)
  | .error _ => none
  | .ok s =>
    if s.pingPongCount < limit then
      if (worldRank : Nat) = s.pingPongCount % 2 then
        some (sendRound mode crc32 plan worldRank s)
      else some (recvRound mode limit crc32 plan dec (errors worldRank) worldRank s)
    else none

end Code

/-! ## One round -/

section Round

variable (mode : Mode) (limit : Nat) (crc32 : BitVec 32 → BitVec 8 → BitVec 32)
  (plan : BlockPlan) (dec : Decoding)

/-- The messages that carry the check characters, from block `i` on. -/
def checkMessages : Nat → List (List Char) → List (Nat × Wire)
  | _, [] => []
  | i, c :: cs => (1001 + i, .chars c) :: checkMessages (i + 1) cs

def codeMessages (p : Payload) : List (Nat × Wire) :=
  match mode with
  | .crcHamming => (1000, .ints p.r) :: checkMessages 0 p.c
  | _ => []

/-- What the sender sends, with the tags. -/
def messages (s : Local) : List (Nat × Wire) :=
  let p := protect crc32 plan s.dataBits
  (0, .ints [s.pingPongCount + 1]) :: (mode.dataTag, .bytes p.dataBits) :: (32, .word p.crc) ::
    codeMessages mode p

/-- What arrives of the payload. -/
def arrived (s : Local) : Payload :=
  let p := protect crc32 plan s.dataBits
  match mode with
  | .crcHamming => p
  | _ => ⟨p.dataBits, p.crc, [], []⟩

theorem decodeLoop_count (r : List Nat) (c : List (List Char)) (is : List Nat) (s : Local) :
    (decodeLoop plan r c is s).2.pingPongCount =
      if (decodeLoop plan r c is s).1 = 'n' then s.pingPongCount - 1 else s.pingPongCount := by
  induction is generalizing s with
  | nil => rfl
  | cons i is ih =>
      rw [decodeLoop]
      by_cases h : (hammingDecode (plan.received c i s.dataBits) (r.getD i 0)).1 = 1
      · simp only [h, if_true]
        rfl
      · simp only [h, if_false]
        exact ih _

theorem answer_count (s : Local) (c : Prop) [Decidable c] :
    (if c then ('y', s) else ('n', s.reject)).2.pingPongCount =
      if (if c then ('y', s) else ('n', s.reject)).1 = 'n' then s.pingPongCount - 1
      else s.pingPongCount := by
  by_cases h : c
  · simp [h]
  · simp [h, Local.reject]

/-- The receiver takes the count back exactly when it answers `n`. -/
theorem check_count (errors : Errors) (s : Local) (count : Nat) (p : Payload) :
    (check mode crc32 plan errors s count p).2.pingPongCount =
      if (check mode crc32 plan errors s count p).1 = 'n' then count - 1 else count := by
  cases mode with
  | crc => exact answer_count _ _
  | maskCrc => exact answer_count _ _
  | crcHamming =>
      simp only [check]
      split
      · rfl
      · exact decodeLoop_count plan p.r p.c _ _

variable {mode limit crc32 plan dec}

theorem localRun_sendChecks (partner : Fin 2) (cs : List (List Char)) (i : Nat)
    (k : Proc (Fin 2) Nat Wire State) :
    LocalRun (sendChecks partner i cs k)
      ((checkMessages i cs).map fun x => .sent partner x.1 x.2) k := by
  induction cs generalizing i with
  | nil => exact .refl k
  | cons c cs ih => exact .head .send (ih (i + 1))

theorem localRun_recvChecks (partner : Fin 2) (cs : List (List Char)) (i : Nat)
    (k : List (List Char) → Proc (Fin 2) Nat Wire State) :
    LocalRun (recvChecks partner i cs.length k)
      ((checkMessages i cs).map fun x => .received partner x.1 x.2) (k cs) := by
  induction cs generalizing i k with
  | nil => exact .refl _
  | cons c cs ih => exact .head .recv (ih (i + 1) fun cs => k (c :: cs))

/-- The sender up to the answer. -/
theorem localRun_sendRound (worldRank : Fin 2) (s : Local) :
    LocalRun (sendRound mode crc32 plan worldRank s)
      ((messages mode crc32 plan s).map fun x => .sent (partnerRank worldRank) x.1 x.2)
      (awaitAnswer (partnerRank worldRank) { s with pingPongCount := s.pingPongCount + 1 }) := by
  refine .head .send (.head .send (.head .send ?_))
  cases mode with
  | crcHamming => exact .head .send (localRun_sendChecks _ _ 0 _)
  | _ => exact .refl _

/-- The receiver up to the answer, when the messages of a sender arrive. -/
theorem localRun_recvRound (errors : Errors) (worldRank : Fin 2) (s s' : Local) :
    LocalRun (recvRound mode limit crc32 plan dec errors worldRank s)
      ((messages mode crc32 plan s').map fun x => .received (partnerRank worldRank) x.1 x.2)
      (giveAnswer mode limit dec (partnerRank worldRank)
        (check mode crc32 plan errors s (s'.pingPongCount + 1) (arrived mode crc32 plan s'))) := by
  refine .head .recv (.head .recv (.head .recv ?_))
  cases mode with
  | crcHamming =>
      have hlen : (protect crc32 plan s'.dataBits).c.length = plan.bsNum := by simp [protect]
      have h := localRun_recvChecks (partnerRank worldRank) (protect crc32 plan s'.dataBits).c 0
        fun c => giveAnswer .crcHamming limit dec (partnerRank worldRank)
          (check .crcHamming crc32 plan errors s (s'.pingPongCount + 1)
            ⟨s'.dataBits, doCrc32 crc32 s'.dataBits, (protect crc32 plan s'.dataBits).r, c⟩)
      rw [hlen] at h
      exact .head .recv h
  | _ => exact .refl _

end Round

/-! ## Both ranks in a round -/

section Both

variable (mode : Mode) (limit : Nat) (crc32 : BitVec 32 → BitVec 8 → BitVec 32)
  (plan : BlockPlan) (dec : Decoding) (errors : Fin 2 → Errors) (x : Fin 2 → Local)

def rankZero : Fin 2 := ⟨0, Nat.two_pos⟩

/-- Both ranks hold the same count. -/
def Synced : Prop := ∀ r, (x r).pingPongCount = (x rankZero).pingPongCount

/-- The rank whose turn it is. -/
def sender : Fin 2 := ⟨(x rankZero).pingPongCount % 2, Nat.mod_lt _ (by decide)⟩

/-- `crc_ok`, and the variables of the receiver after the check. -/
def answer : Char × Local :=
  let s := x (sender x)
  let receiver := partnerRank (sender x)
  check mode crc32 plan (errors receiver) (x receiver) (s.pingPongCount + 1)
    (arrived mode crc32 plan s)

/-- The variables of both ranks after the round. -/
def nextStates (r : Fin 2) : Local :=
  let out := answer mode crc32 plan errors x
  if r = sender x then
    if out.1 = 'n' then x r else { x r with pingPongCount := (x r).pingPongCount + 1 }
  else out.2

/-- Where both ranks are after the round: the receiver has decompressed if it was the last. -/
def outcome (r : Fin 2) : State :=
  if r = sender x then .ok (nextStates mode crc32 plan errors x r)
  else endRound mode limit dec (nextStates mode crc32 plan errors x r)

/-- The messages of the round, and the answer. -/
def roundEvents (r : Fin 2) : List (Event (Fin 2) Nat Wire) :=
  let msgs := messages mode crc32 plan (x (sender x))
  let crcOk := (answer mode crc32 plan errors x).1
  if r = sender x then
    msgs.map (fun m => .sent (partnerRank r) m.1 m.2) ++
      [.received (partnerRank r) 100 (.chars [crcOk])]
  else
    msgs.map (fun m => .received (partnerRank r) m.1 m.2) ++
      [.sent (partnerRank r) 100 (.chars [crcOk])]

variable {mode limit crc32 plan dec errors x}

theorem eq_sender_iff (hs : Synced x) (r : Fin 2) :
    (r : Nat) = (x r).pingPongCount % 2 ↔ r = sender x := by
  rw [hs r, Fin.ext_iff]
  rfl

theorem partnerRank_partnerRank (r : Fin 2) : partnerRank (partnerRank r) = r := by
  revert r
  decide

theorem eq_partnerRank {r q : Fin 2} (h : r ≠ q) : r = partnerRank q := by
  revert r q
  decide

theorem partnerRank_ne (r : Fin 2) : partnerRank r ≠ r := by
  revert r
  decide

/-- One rank sends, the other one receives. -/
theorem body_eq (hs : Synced x) (h : (x rankZero).pingPongCount < limit) (r : Fin 2) :
    body mode limit crc32 plan dec errors r (.ok (x r)) =
      some (if r = sender x then sendRound mode crc32 plan r (x r)
        else recvRound mode limit crc32 plan dec (errors r) r (x r)) := by
  have hlt : (x r).pingPongCount < limit := by rwa [hs r]
  rw [body, if_pos hlt]
  by_cases hr : r = sender x
  · rw [if_pos ((eq_sender_iff hs r).mpr hr), if_pos hr]
  · rw [if_neg fun h => hr ((eq_sender_iff hs r).mp h), if_neg hr]

theorem body_eq_none_iff (hs : Synced x) (r : Fin 2) :
    body mode limit crc32 plan dec errors r (.ok (x r)) = none ↔
      limit ≤ (x rankZero).pingPongCount := by
  by_cases h : (x rankZero).pingPongCount < limit
  · rw [body_eq hs h]
    simp [h]
  · have hlt : ¬ (x r).pingPongCount < limit := by rwa [hs r]
    rw [body, if_neg hlt]
    simpa using h

/-- A round counts for both ranks or for none. -/
theorem nextStates_count (hs : Synced x) (r : Fin 2) :
    (nextStates mode crc32 plan errors x r).pingPongCount =
      if (answer mode crc32 plan errors x).1 = 'n' then (x rankZero).pingPongCount
      else (x rankZero).pingPongCount + 1 := by
  by_cases hr : r = sender x
  · simp only [nextStates, if_pos hr]
    split
    · exact hs r
    · exact congrArg (· + 1) (hs r)
  · simp only [nextStates, if_neg hr]
    rw [answer, check_count, hs (sender x)]
    rfl

theorem synced_nextStates (hs : Synced x) : Synced (nextStates mode crc32 plan errors x) := by
  intro r
  rw [nextStates_count hs, nextStates_count hs]

/-- The sender after the answer. -/
theorem localRun_awaitAnswer (partner : Fin 2) (s : Local) (crcOk : Char) :
    LocalRun (awaitAnswer partner { s with pingPongCount := s.pingPongCount + 1 })
      [.received partner 100 (.chars [crcOk])]
      (.ret (.ok (if crcOk = 'n' then s
        else { s with pingPongCount := s.pingPongCount + 1 }))) := by
  refine .head .recv ?_
  by_cases h : crcOk = 'n'
  · simp only [if_pos h]
    exact .refl _
  · simp only [if_neg h]
    exact .refl _

section Roles

variable (mode limit crc32 plan dec errors x)

/-- What a rank does in a round. -/
def role (r : Fin 2) : Proc (Fin 2) Nat Wire State :=
  if r = sender x then sendRound mode crc32 plan r (x r)
  else recvRound mode limit crc32 plan dec (errors r) r (x r)

/-- Where a rank waits for the answer, or gives it. -/
def answering (r : Fin 2) : Proc (Fin 2) Nat Wire State :=
  if r = sender x then
    awaitAnswer (partnerRank r) { x r with pingPongCount := (x r).pingPongCount + 1 }
  else giveAnswer mode limit dec (partnerRank r) (answer mode crc32 plan errors x)

def dataSent (r : Fin 2) : List (Event (Fin 2) Nat Wire) :=
  if r = sender x then
    (messages mode crc32 plan (x (sender x))).map fun m => .sent (partnerRank r) m.1 m.2
  else []

def dataReceived (r : Fin 2) : List (Event (Fin 2) Nat Wire) :=
  if r = sender x then []
  else (messages mode crc32 plan (x (sender x))).map fun m => .received (partnerRank r) m.1 m.2

def answerSent (r : Fin 2) : List (Event (Fin 2) Nat Wire) :=
  if r = sender x then []
  else [.sent (partnerRank r) 100 (.chars [(answer mode crc32 plan errors x).1])]

def answerReceived (r : Fin 2) : List (Event (Fin 2) Nat Wire) :=
  if r = sender x then
    [.received (partnerRank r) 100 (.chars [(answer mode crc32 plan errors x).1])]
  else []

variable {mode limit crc32 plan dec errors x}

theorem roundEvents_eq (r : Fin 2) :
    roundEvents mode crc32 plan errors x r =
      (dataSent mode crc32 plan x r ++ dataReceived mode crc32 plan x r) ++
        (answerSent mode crc32 plan errors x r ++ answerReceived mode crc32 plan errors x r) := by
  by_cases hr : r = sender x
  · simp [roundEvents, dataSent, dataReceived, answerSent, answerReceived, hr]
  · simp [roundEvents, dataSent, dataReceived, answerSent, answerReceived, hr]

theorem localRun_data (r : Fin 2) :
    ∃ mid, LocalRun (role mode limit crc32 plan dec errors x r) (dataSent mode crc32 plan x r) mid ∧
      LocalRun mid (dataReceived mode crc32 plan x r)
        (answering mode limit crc32 plan dec errors x r) := by
  by_cases hr : r = sender x
  · simp only [role, dataSent, dataReceived, answering, if_pos hr]
    rw [← hr]
    exact ⟨_, localRun_sendRound r (x r), .refl _⟩
  · simp only [role, dataSent, dataReceived, answering, if_neg hr]
    refine ⟨_, .refl _, ?_⟩
    have h := @localRun_recvRound mode limit crc32 plan dec (errors r) r (x r) (x (sender x))
    rw [answer, ← eq_partnerRank hr]
    exact h

theorem localRun_answer (r : Fin 2) :
    ∃ mid, LocalRun (answering mode limit crc32 plan dec errors x r)
        (answerSent mode crc32 plan errors x r) mid ∧
      LocalRun mid (answerReceived mode crc32 plan errors x r)
        (.ret (outcome mode limit crc32 plan dec errors x r)) := by
  by_cases hr : r = sender x
  · simp only [answering, answerSent, answerReceived, outcome, nextStates, if_pos hr]
    exact ⟨_, .refl _, localRun_awaitAnswer (partnerRank r) (x r) _⟩
  · simp only [answering, answerSent, answerReceived, outcome, nextStates, if_neg hr]
    exact ⟨_, .head .send (.refl _), .refl _⟩

theorem data_matched (a b : Fin 2) (tag : Nat) :
    sendsTo (dataSent mode crc32 plan x a) b tag =
      recvsFrom (dataReceived mode crc32 plan x b) a tag := by
  by_cases ha : a = sender x <;> by_cases hb : b = sender x
  · -- a rank sends nothing to itself
    rw [dataSent, if_pos ha, dataReceived, if_pos hb, sendsTo_map_sent_to, ha, hb,
      if_neg (partnerRank_ne _)]
    rfl
  · rw [dataSent, if_pos ha, dataReceived, if_neg hb, sendsTo_map_sent_to,
      recvsFrom_map_received_from, eq_partnerRank hb, ha, if_pos rfl,
      if_pos (partnerRank_partnerRank _)]
  · simp [dataSent, dataReceived, ha, hb]
  · rw [dataSent, if_neg ha, dataReceived, if_neg hb, recvsFrom_map_received_from,
      eq_partnerRank hb, eq_partnerRank ha, partnerRank_partnerRank,
      if_neg fun h => partnerRank_ne _ h.symm]
    rfl

theorem answer_matched (a b : Fin 2) (tag : Nat) :
    sendsTo (answerSent mode crc32 plan errors x a) b tag =
      recvsFrom (answerReceived mode crc32 plan errors x b) a tag := by
  by_cases ha : a = sender x <;> by_cases hb : b = sender x
  · rw [answerSent, if_pos ha, answerReceived, if_pos hb, recvsFrom_cons_received, ha, hb,
      if_neg fun h => partnerRank_ne _ h.1]
    rfl
  · simp [answerSent, answerReceived, ha, hb]
  · rw [answerSent, if_neg ha, answerReceived, if_pos hb, sendsTo_cons_sent,
      recvsFrom_cons_received, eq_partnerRank ha, hb, partnerRank_partnerRank]
    simp
  · have hab : partnerRank a ≠ b := by
      rw [eq_partnerRank ha, eq_partnerRank hb, partnerRank_partnerRank]
      exact fun h => partnerRank_ne _ h.symm
    simp [answerSent, answerReceived, ha, hb, sendsTo_cons_sent, hab]

/-- Step lemma: both ranks perform the round. -/
theorem run_round {s : Sys (Fin 2) Nat Wire State} (hs : Synced x)
    (hlt : (x rankZero).pingPongCount < limit) (hproc : ∀ r, s.proc r = .ret (.ok (x r)))
    (hempty : ∀ a b tag, s.chan a b tag = []) :
    ∃ t n, LoopRun (body mode limit crc32 plan dec errors) s t n ∧
      (∀ r, t.proc r = .ret (outcome mode limit crc32 plan dec errors x r)) ∧
      (∀ a b tag, t.chan a b tag = []) ∧
      ∀ r, t.log r = s.log r ++ roundEvents mode crc32 plan errors x r := by
  let s' : Sys (Fin 2) Nat Wire State :=
    { s with proc := role mode limit crc32 plan dec errors x }
  choose mid hmid hmid' using @localRun_data mode limit crc32 plan dec errors x
  choose mid₂ hmid₂ hmid₂' using @localRun_answer mode limit crc32 plan dec errors x
  -- the data go one way, then the answer comes back
  obtain ⟨u, n, hrun, hu, huempty, hulog⟩ := run_exchange (s := s') hmid hmid'
    (fun r src tag => by rw [dataSent]; split <;> simp)
    (fun r dst tag => by rw [dataReceived]; split <;> simp) data_matched hempty
  obtain ⟨t, m, hrun', ht, htempty, htlog⟩ := run_exchange (s := u)
    (fun r => by rw [hu]; exact hmid₂ r) hmid₂'
    (fun r src tag => by rw [answerSent]; split <;> rfl)
    (fun r dst tag => by rw [answerReceived]; split <;> rfl) answer_matched huempty
  have hlog : ∀ r, t.log r = s.log r ++ roundEvents mode crc32 plan errors x r := by
    intro r
    rw [htlog, hulog, roundEvents_eq, List.append_assoc]
  refine ⟨t, n + m, (hrun.trans hrun').loop_of_unroll rfl rfl fun r => .inr ⟨?_, ?_⟩, ?_,
    htempty, hlog⟩
  · rw [hproc, unroll, body_eq hs hlt]
    rfl
  · rw [hlog]
    simp only [ne_eq, List.append_right_eq_self]
    rw [roundEvents]
    split <;> simp
  · intro r
    rw [ht]

end Roles

end Both

/-! ## All rounds -/

section Rounds

variable (mode : Mode) (limit : Nat) (crc32 : BitVec 32 → BitVec 8 → BitVec 32)
  (plan : BlockPlan) (dec : Decoding) (errors : Fin 2 → Errors) (dataBits : List (BitVec 8))

/-- The variables of both ranks before round `k`; both have compressed the same data. -/
def states (k : Nat) : Fin 2 → Local :=
  (nextStates mode crc32 plan errors)^[k] fun _ => ⟨0, dataBits, 0, 0⟩

theorem states_succ (k : Nat) :
    states mode crc32 plan errors dataBits (k + 1) =
      nextStates mode crc32 plan errors (states mode crc32 plan errors dataBits k) :=
  Function.iterate_succ_apply' _ _ _

theorem synced_states (k : Nat) : Synced (states mode crc32 plan errors dataBits k) := by
  induction k with
  | zero => exact fun r => rfl
  | succ k ih =>
      rw [states_succ]
      exact synced_nextStates ih

variable {mode crc32 plan errors} in
theorem roundEvents_matched (x : Fin 2 → Local) (a b : Fin 2) (tag : Nat) :
    sendsTo (roundEvents mode crc32 plan errors x a) b tag =
      recvsFrom (roundEvents mode crc32 plan errors x b) a tag := by
  have hdata : sendsTo (dataReceived mode crc32 plan x a) b tag = [] ∧
      recvsFrom (dataSent mode crc32 plan x b) a tag = [] := by
    refine ⟨?_, ?_⟩
    · rw [dataReceived]; split <;> simp
    · rw [dataSent]; split <;> simp
  have hanswer : sendsTo (answerReceived mode crc32 plan errors x a) b tag = [] ∧
      recvsFrom (answerSent mode crc32 plan errors x b) a tag = [] := by
    refine ⟨?_, ?_⟩
    · rw [answerReceived]; split <;> rfl
    · rw [answerSent]; split <;> rfl
  simp only [roundEvents_eq, sendsTo_append, recvsFrom_append, hdata, hanswer, data_matched,
    answer_matched, List.append_nil, List.nil_append]

variable {mode crc32 plan errors} in
/-- The receiver hears from the sender, and the sender gets an answer. -/
theorem roundEvents_linked (x : Fin 2 → Local) (a b : Fin 2) (hab : a ≠ b) :
    ∃ tag, recvsFrom (roundEvents mode crc32 plan errors x b) a tag ≠ [] := by
  have ha : a = partnerRank b := eq_partnerRank hab
  by_cases hb : b = sender x
  · refine ⟨100, ?_⟩
    rw [roundEvents, if_pos hb, recvsFrom_append, recvsFrom_cons_received, if_pos ⟨ha.symm, rfl⟩]
    simp
  · refine ⟨0, ?_⟩
    rw [roundEvents, if_neg hb, recvsFrom_append, recvsFrom_map_received_from, if_pos ha.symm,
      messages, withTag, List.filterMap_cons_some (by rfl)]
    simp

/-- Where both ranks are before round `k`. -/
def loopStates : Nat → Fin 2 → State
  | 0, _ => .ok ⟨0, dataBits, 0, 0⟩
  | k + 1, r =>
    outcome mode limit crc32 plan dec errors (states mode crc32 plan errors dataBits k) r

variable {mode limit crc32 plan dec errors dataBits}

/-- The receiver of the round goes on with what it has, or stops. -/
theorem endRound_cases (s : Local) :
    endRound mode limit dec s = .ok s ∨
      s.pingPongCount = limit ∧ ∃ f, endRound mode limit dec s = .error f := by
  rw [endRound]
  split
  · next h =>
      cases decompress mode dec s.dataBits with
      | ok d => exact .inl rfl
      | error f => exact .inr ⟨h, f, rfl⟩
  · exact .inl rfl

theorem loopStates_cases (k : Nat) (r : Fin 2) :
    loopStates mode limit crc32 plan dec errors dataBits k r =
        .ok (states mode crc32 plan errors dataBits k r) ∨
      (states mode crc32 plan errors dataBits k rankZero).pingPongCount = limit ∧
        ∃ f, loopStates mode limit crc32 plan dec errors dataBits k r = .error f := by
  cases k with
  | zero => exact .inl rfl
  | succ k =>
      rw [loopStates, outcome, ← states_succ]
      split
      · exact .inl rfl
      · rw [← synced_states mode crc32 plan errors dataBits (k + 1) r]
        exact endRound_cases _

theorem eq_states_of_ok {k : Nat} {r : Fin 2} {x : Local}
    (h : .ok x = loopStates mode limit crc32 plan dec errors dataBits k r) :
    x = states mode crc32 plan errors dataBits k r := by
  rcases @loopStates_cases mode limit crc32 plan dec errors dataBits k r with hok | ⟨-, f, hf⟩
  · exact Except.ok.inj (h.trans hok)
  · cases h.trans hf

/-- Below the limit no rank has stopped. -/
theorem loopStates_of_lt {k : Nat}
    (hlt : (states mode crc32 plan errors dataBits k rankZero).pingPongCount < limit) (r : Fin 2) :
    loopStates mode limit crc32 plan dec errors dataBits k r =
      .ok (states mode crc32 plan errors dataBits k r) := by
  rcases @loopStates_cases mode limit crc32 plan dec errors dataBits k r with h | ⟨heq, -⟩
  · exact h
  · exact absurd heq (Nat.ne_of_lt hlt)

theorem body_loopStates_eq_none_iff (k : Nat) (r : Fin 2) :
    body mode limit crc32 plan dec errors r
        (loopStates mode limit crc32 plan dec errors dataBits k r) = none ↔
      limit ≤ (states mode crc32 plan errors dataBits k rankZero).pingPongCount := by
  have hs := synced_states mode crc32 plan errors dataBits k
  rcases @loopStates_cases mode limit crc32 plan dec errors dataBits k r with h | ⟨heq, f, h⟩
  · rw [h]
    exact body_eq_none_iff hs r
  · rw [h]
    exact ⟨fun _ => heq.ge, fun _ => rfl⟩

variable (mode limit crc32 plan dec errors dataBits)

/-- The rounds of the main loop. -/
def rounds : Rounds (body mode limit crc32 plan dec errors) where
  state := loopStates mode limit crc32 plan dec errors dataBits
  events k := roundEvents mode crc32 plan errors (states mode crc32 plan errors dataBits k)
  together k r q h := by
    rwa [body_loopStates_eq_none_iff] at h ⊢
  round k r p h := by
    have hs := synced_states mode crc32 plan errors dataBits k
    -- a rank that takes the round is below the limit
    have hlt : (states mode crc32 plan errors dataBits k rankZero).pingPongCount < limit := by
      by_contra hle
      rw [(body_loopStates_eq_none_iff k r).mpr (Nat.le_of_not_lt hle)] at h
      cases h
    rw [loopStates_of_lt hlt, body_eq hs hlt] at h
    cases h
    obtain ⟨mid, hmid, hmid'⟩ := @localRun_data mode limit crc32 plan dec errors
      (states mode crc32 plan errors dataBits k) r
    obtain ⟨mid₂, hmid₂, hmid₂'⟩ := @localRun_answer mode limit crc32 plan dec errors
      (states mode crc32 plan errors dataBits k) r
    rw [roundEvents_eq, loopStates]
    exact (hmid.trans hmid').trans (hmid₂.trans hmid₂')
  matched k _ := roundEvents_matched _
  linked k _ := roundEvents_linked _
  performed k h s hproc hempty := by
    have hs := synced_states mode crc32 plan errors dataBits k
    have hlt : (states mode crc32 plan errors dataBits k rankZero).pingPongCount < limit := by
      by_contra hle
      exact h 0 ((body_loopStates_eq_none_iff k 0).mpr (Nat.le_of_not_lt hle))
    exact run_round hs hlt (fun r => (hproc r).trans (by rw [loopStates_of_lt hlt])) hempty

/-- The senders of the accepted ones of the first `k` rounds. -/
def acceptedSenders (k : Nat) : List Nat :=
  ((List.range k).filter fun j =>
    (answer mode crc32 plan errors (states mode crc32 plan errors dataBits j)).1 ≠ 'n').map
      fun j => (sender (states mode crc32 plan errors dataBits j) : Nat)

/-- The senders of the accepted rounds alternate, and the count is their number. -/
theorem acceptedSenders_eq (k : Nat) :
    acceptedSenders mode crc32 plan errors dataBits k =
      (List.range (states mode crc32 plan errors dataBits k rankZero).pingPongCount).map
        (· % 2) := by
  induction k with
  | zero => rfl
  | succ k ih =>
      rw [acceptedSenders, List.range_succ, List.filter_append, List.map_append,
        ← acceptedSenders, ih, states_succ,
        nextStates_count (synced_states mode crc32 plan errors dataBits k)]
      by_cases h : (answer mode crc32 plan errors
          (states mode crc32 plan errors dataBits k)).1 = 'n'
      · simp [h]
      · simp only [h, if_false, List.range_succ, List.map_append]
        simp [h, sender]

variable {mode limit crc32 plan dec errors dataBits}

theorem count_le_limit {k : Nat}
    (hk : (rounds mode limit crc32 plan dec errors dataBits).Taken k) :
    (states mode crc32 plan errors dataBits k rankZero).pingPongCount ≤ limit := by
  cases k with
  | zero => exact Nat.zero_le limit
  | succ k =>
      have hs := synced_states mode crc32 plan errors dataBits k
      have hround := hk k (Nat.lt_succ_self k) 0
      have hlt : (states mode crc32 plan errors dataBits k rankZero).pingPongCount < limit := by
        by_contra hle
        exact hround ((body_loopStates_eq_none_iff k 0).mpr (Nat.le_of_not_lt hle))
      rw [states_succ, nextStates_count hs]
      split <;> omega

/-- The rank that receives the last round that counts. -/
def lastReceiver (limit : Nat) : Fin 2 := ⟨limit % 2, Nat.mod_lt _ Nat.two_pos⟩

/-- After the last round its sender has left the loop, and so has its receiver if the
    decompression returns. -/
theorem loopStates_last {k : Nat}
    (hk : (rounds mode limit crc32 plan dec errors dataBits).Taken k)
    (hcount : (states mode crc32 plan errors dataBits k rankZero).pingPongCount = limit)
    (r : Fin 2) :
    loopStates mode limit crc32 plan dec errors dataBits k r =
      if r = lastReceiver limit ∧ limit ≠ 0 then
        (decompress mode dec (states mode crc32 plan errors dataBits k r).dataBits).map
          fun _ => states mode crc32 plan errors dataBits k r
      else .ok (states mode crc32 plan errors dataBits k r) := by
  cases k with
  | zero =>
      have hzero : limit = 0 := hcount.symm
      rw [if_neg fun h => h.2 hzero]
      rfl
  | succ k =>
      have hs := synced_states mode crc32 plan errors dataBits k
      have hs' := synced_states mode crc32 plan errors dataBits (k + 1)
      have hlt : (states mode crc32 plan errors dataBits k rankZero).pingPongCount < limit := by
        by_contra hle
        exact hk k (Nat.lt_succ_self k) 0
          ((body_loopStates_eq_none_iff k 0).mpr (Nat.le_of_not_lt hle))
      -- the last round counts, so the turn goes to its receiver
      have hlast : (states mode crc32 plan errors dataBits k rankZero).pingPongCount + 1 =
          limit := by
        have hnext := hcount
        rw [states_succ, nextStates_count hs] at hnext
        split at hnext <;> omega
      have hsender : r = sender (states mode crc32 plan errors dataBits k) ↔
          r ≠ lastReceiver limit := by
        rw [← hlast, ne_eq, Fin.ext_iff, Fin.ext_iff]
        show (r : Nat) = (states mode crc32 plan errors dataBits k rankZero).pingPongCount % 2 ↔
          ¬ (r : Nat) =
            ((states mode crc32 plan errors dataBits k rankZero).pingPongCount + 1) % 2
        omega
      have hpos : limit ≠ 0 := by omega
      rw [loopStates, outcome, ← states_succ]
      by_cases hr : r = lastReceiver limit
      · rw [if_neg fun h => hsender.mp h hr, if_pos ⟨hr, hpos⟩, endRound,
          if_pos ((hs' r).trans hcount)]
      · rw [if_pos (hsender.mpr hr), if_neg fun h => hr h.1]

/-- Both have left if the decompression returns, or if there is no round. -/
theorem loopStates_ok_iff {k : Nat}
    (hk : (rounds mode limit crc32 plan dec errors dataBits).Taken k)
    (hcount : (states mode crc32 plan errors dataBits k rankZero).pingPongCount = limit) :
    (∀ r, ∃ s, loopStates mode limit crc32 plan dec errors dataBits k r = .ok s) ↔
      limit = 0 ∨ ∃ d, decompress mode dec
        (states mode crc32 plan errors dataBits k (lastReceiver limit)).dataBits = .ok d := by
  constructor
  · intro h
    by_cases hzero : limit = 0
    · exact .inl hzero
    · obtain ⟨s, hok⟩ := h (lastReceiver limit)
      rw [loopStates_last hk hcount, if_pos ⟨rfl, hzero⟩] at hok
      cases hd : decompress mode dec
          (states mode crc32 plan errors dataBits k (lastReceiver limit)).dataBits with
      | ok d => exact .inr ⟨d, rfl⟩
      | error f =>
          rw [hd] at hok
          cases hok
  · intro h r
    rw [loopStates_last hk hcount]
    split
    · next hr =>
        obtain ⟨rfl, hpos⟩ := hr
        obtain ⟨d, hd⟩ := h.resolve_left hpos
        exact ⟨_, by rw [hd]; rfl⟩
    · exact ⟨_, rfl⟩

end Rounds

/-! ## Results -/

/-- The two ranks take the rounds together. -/
structure InLockstep (mode : Mode) (limit : Nat) (crc32 : BitVec 32 → BitVec 8 → BitVec 32)
    (plan : BlockPlan) (dec : Decoding) (errors : Fin 2 → Errors) (dataBits : List (BitVec 8))
    (rs : Rounds (body mode limit crc32 plan dec errors)) : Prop where
  /-- at the head of the loop both hold the same count, have the same rounds behind them, and
      nothing is in flight -/
  heads : ∀ u n x, LoopRun (body mode limit crc32 plan dec errors) rs.start u n →
    (∀ r, u.proc r = .ret (.ok (x r))) → (x 0).pingPongCount = (x 1).pingPongCount ∧
      (∀ a b tag, u.chan a b tag = []) ∧
      ∃ k, rs.Taken k ∧ x = states mode crc32 plan errors dataBits k ∧
        ∀ r, u.log r = rs.history k r
  /-- with the same count one of them sends and the other one receives -/
  roles : ∀ r x, (x 0).pingPongCount = (x 1).pingPongCount → (x 0).pingPongCount < limit →
    body mode limit crc32 plan dec errors r (.ok (x r)) =
      some (if r = sender x then sendRound mode crc32 plan r (x r)
        else recvRound mode limit crc32 plan dec (errors r) r (x r))
  /-- what is sent in a round is received in it -/
  received : ∀ k a b tag, sendsTo (rs.events k a) b tag = recvsFrom (rs.events k b) a tag
  /-- a rejected round leaves both counts as they were -/
  rejected : ∀ k r,
    (answer mode crc32 plan errors (states mode crc32 plan errors dataBits k)).1 = 'n' →
    (states mode crc32 plan errors dataBits (k + 1) r).pingPongCount =
      (states mode crc32 plan errors dataBits k r).pingPongCount
  /-- an accepted one counts for both -/
  accepted : ∀ k r,
    (answer mode crc32 plan errors (states mode crc32 plan errors dataBits k)).1 ≠ 'n' →
    (states mode crc32 plan errors dataBits (k + 1) r).pingPongCount =
      (states mode crc32 plan errors dataBits k r).pingPongCount + 1
  /-- every run stays within the rounds and can complete those that have begun -/
  completes : ∀ u n, LoopRun (body mode limit crc32 plan dec errors) rs.start u n →
    ∃ k, rs.Taken k ∧ (∀ r, u.log r <+: rs.history k r) ∧
      ∃ t m, LoopRun (body mode limit crc32 plan dec errors) u t m ∧
        (∀ r, t.proc r = .ret (rs.state k r)) ∧ ∀ a b tag, t.chan a b tag = []
  /-- a rank is out of the loop after `limit` accepted rounds, whose senders alternate; the
      other one is not ahead, and can go on until it is out after the same round.  The sender
      of this round has left the loop then, and its receiver too exactly if the decompression
      returns -/
  leaves : ∀ u n r y, LoopRun (body mode limit crc32 plan dec errors) rs.start u n →
    u.proc r = .ret y → body mode limit crc32 plan dec errors r y = none →
    ∃ k, rs.Taken k ∧ y = rs.state k r ∧
      (∀ q, (states mode crc32 plan errors dataBits k q).pingPongCount = limit) ∧
      acceptedSenders mode crc32 plan errors dataBits k = (List.range limit).map (· % 2) ∧
      u.log r = rs.history k r ∧ (∀ q, u.log q <+: rs.history k q) ∧
      (∀ q z, u.proc q = .ret z → body mode limit crc32 plan dec errors q z = none →
        u.log q = rs.history k q) ∧
      (∃ t m, LoopRun (body mode limit crc32 plan dec errors) u t m ∧
        ∀ q, t.proc q = .ret (rs.state k q) ∧
          body mode limit crc32 plan dec errors q (rs.state k q) = none) ∧
      (∀ q, q ≠ lastReceiver limit →
        rs.state k q = .ok (states mode crc32 plan errors dataBits k q)) ∧
      ((∀ q, ∃ s, rs.state k q = .ok s) ↔ limit = 0 ∨ ∃ d, decompress mode dec
        (states mode crc32 plan errors dataBits k (lastReceiver limit)).dataBits = .ok d)

/-- For every sequence of bit errors, in every run: the two ranks stay in lockstep. -/
theorem pingPong_inLockstep (mode : Mode) (limit : Nat)
    (crc32 : BitVec 32 → BitVec 8 → BitVec 32) (dec : Decoding) (errors : Fin 2 → Errors)
    (dataBits : List (BitVec 8)) :
    InLockstep mode limit crc32 (planBitwiseCrcHamming dataBits.length) dec errors dataBits
      (rounds mode limit crc32 (planBitwiseCrcHamming dataBits.length) dec errors dataBits) where
  heads u n x hrun hx := by
    obtain ⟨k, hk, hstate, hlog, hchan⟩ := (Rounds.follows hrun).heads_together hx
    obtain rfl : x = states mode crc32 _ errors dataBits k :=
      funext fun r => eq_states_of_ok (congrFun hstate r)
    exact ⟨(synced_states mode crc32 _ errors dataBits k 1).symm, hchan, k, hk, rfl, hlog⟩
  roles r x hx hlt := by
    have hs : Synced x := Fin.forall_fin_two.mpr ⟨rfl, hx.symm⟩
    exact body_eq hs hlt r
  received k := roundEvents_matched _
  rejected k r h := by
    have hs := synced_states mode crc32 (planBitwiseCrcHamming dataBits.length) errors dataBits k
    rw [states_succ, nextStates_count hs]
    exact (if_pos h).trans (hs r).symm
  accepted k r h := by
    have hs := synced_states mode crc32 (planBitwiseCrcHamming dataBits.length) errors dataBits k
    rw [states_succ, nextStates_count hs]
    exact (if_neg h).trans (congrArg (· + 1) (hs r).symm)
  completes u n hrun := by
    obtain ⟨k, hk, hlog⟩ := (Rounds.follows hrun).exists_bound
    exact ⟨k, hk, hlog, Rounds.completes hrun hk hlog⟩
  leaves u n r y hrun hy hleft := by
    obtain ⟨k, hk, hstate, hnone, hlog, hlogs⟩ := (Rounds.follows hrun).left hy hleft
    have hs := synced_states mode crc32 (planBitwiseCrcHamming dataBits.length) errors dataBits k
    have hcount := Nat.le_antisymm (count_le_limit hk)
      ((body_loopStates_eq_none_iff k r).mp (hnone r))
    obtain ⟨t, m, hrun', ht, -⟩ := Rounds.completes hrun hk hlogs
    refine ⟨k, hk, hstate, fun q => (hs q).trans hcount, ?_, hlog, hlogs, fun q z hz hleftz => ?_,
      ⟨t, m, hrun', fun q => ⟨ht q, hnone q⟩⟩, fun q hq => ?_, loopStates_ok_iff hk hcount⟩
    · rw [acceptedSenders_eq, hcount]
    · -- two numbers of rounds after which a rank is out are the same
      obtain ⟨l, hl, -, hnone', hlogq, -⟩ := (Rounds.follows hrun).left hz hleftz
      have h1 : l ≤ k := by
        by_contra hlt
        exact hl k (by omega) r (hnone r)
      have h2 : k ≤ l := by
        by_contra hlt
        exact hk l (by omega) r (hnone' r)
      rw [hlogq, Nat.le_antisymm h1 h2]
    · exact (loopStates_last hk hcount q).trans (if_neg fun h => hq h.1)

section Examples

attribute [local instance] NanRule.sse

/-- What `CT` 9 sends for the data 0 and 0.5: the mean is 0.25, and the decoder reads more than
    two numbers out of it. -/
def half : List (BitVec 8) × Decoding :=
  prepared .maskCrc absErrorBound [0, 0x3fe0000000000000]

/-- A single round without errors: the sender leaves, and the receiver does not. -/
theorem pingPong_receiver_stops :
    let errors : Fin 2 → Errors := fun _ => ⟨fun _ dataBits => dataBits, fun _ => false⟩
    let plan := planBitwiseCrcHamming half.1.length
    let rs := rounds .maskCrc 1 zlibCrc32 plan half.2 errors half.1
    ∃ t n, LoopRun (body .maskCrc 1 zlibCrc32 plan half.2 errors) rs.start t n ∧
      (∃ s, t.proc 0 = .ret (.ok s) ∧ s.pingPongCount = 1) ∧ ∃ f, t.proc 1 = .ret (.error f) := by
  intro errors plan rs
  let x := states .maskCrc zlibCrc32 plan errors half.1 1
  have htaken : rs.Taken 1 := by
    intro j hj r
    obtain rfl := Nat.lt_one_iff.mp hj
    exact mt (body_loopStates_eq_none_iff 0 r).mp (Nat.not_succ_le_zero 0)
  have hcount : (x rankZero).pingPongCount = 1 := by decide +kernel
  have hfails : (decompress .maskCrc half.2 (x 1).dataBits).toOption = none := by decide +kernel
  obtain ⟨t, n, hrun, hproc, -⟩ := Rounds.run_history htaken
  refine ⟨t, n, hrun, ⟨x 0, ?_, hcount⟩, ?_⟩
  · exact (hproc 0).trans (congrArg _ (loopStates_last htaken hcount 0))
  · have hlast := loopStates_last htaken hcount 1
    cases hd : decompress .maskCrc half.2 (x 1).dataBits with
    | ok d =>
        rw [hd] at hfails
        cases hfails
    | error f =>
        rw [hd] at hlast
        exact ⟨f, (hproc 1).trans (congrArg _ hlast)⟩

end Examples

end MpiApps.PingPong
