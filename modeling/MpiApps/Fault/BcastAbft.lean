/-
  MpiApps.Fault.BcastAbft

  `MPI_Bcast_abft`: a broadcast of doubles under CRC and Hamming protection.

  The root broadcasts the payload, its CRC and the check characters of its blocks.
  Every other rank checks and repairs what arrived (`crcHammingStage`), reports its
  verdict, and receives the payload once more if it has given up.

  `abft_run` is about all interleavings of the ranks: with at most two flips in each block,
  all of them return with the first `data_bytes` bytes of the root's buffer.  These are all
  bytes as long as their number fits an `int`.
-/

import MpiApps.Fault.Repair
import MpiApps.Lib.Retransmission

namespace MpiApps.Fault

open MpiApps.Secded MpiApps.Windows MpiApps.MessagePassing

/-! ## The code -/

/-- The MPI buffers that are sent: `MPI_UNSIGNED_CHAR`, `MPI_UNSIGNED`, `MPI_INT`,
    `MPI_CHAR` and `MPI_DOUBLE`. -/
inductive Wire
  | bytes (dataBits : List (BitVec 8))
  | word (crc : BitVec 32)
  | ints (r : List Nat)
  | chars (c : List Char)
  | real (x : BitVec 64)
  deriving DecidableEq

/-- The bytes of a double in memory, the least significant one first. -/
def doubleBytes (x : BitVec 64) : List (BitVec 8) :=
  (List.range 8).map fun i => BitVec.ofNat 8 (x.toNat / 256 ^ i)

/-- The bytes of an array of doubles. -/
def toBytes (buffer : List (BitVec 64)) : List (BitVec 8) := buffer.flatMap doubleBytes

/-- The double with these bytes. -/
def ofDoubleBytes (bytes : List (BitVec 8)) : BitVec 64 :=
  BitVec.ofNat 64 (bytes.foldr (fun b x => b.toNat + 256 * x) 0)

/-- The doubles of an array of bytes. -/
def ofBytes (count : Nat) (dataBits : List (BitVec 8)) : List (BitVec 64) :=
  (List.range count).map fun i => ofDoubleBytes (window (8 * i) 8 dataBits)

/-- The value that an `int` gets: it wraps. -/
@[irreducible]
def asInt (x : Int) : Int := Int.bmod x 4294967296

/-- `int data_bytes = count*sizeof(double)`. -/
def dataBytesOf (count : Nat) : Int := asInt (count * 8 : Nat)

/-- `memcpy(buffer, data_bits, data_bytes)`; what is behind these bytes stays. -/
def copyBack (buffer : List (BitVec 64)) (dataBytes : Nat) (dataBits : List (BitVec 8)) :
    List (BitVec 64) :=
  ofBytes buffer.length (dataBits.take dataBytes ++ (toBytes buffer).drop dataBytes)

section Code

variable {R : Type} [DecidableEq R]

/-- The loop that broadcasts `c[i]` for the remaining blocks. -/
def bcastChecks (ranks : List R) (root rank : R) :
    Nat → List (List Char) → (List (List Char) → Proc R (Tag R) Wire (List (BitVec 64))) →
      Proc R (Tag R) Wire (List (BitVec 64))
  | 0, _, k => k []
  | n + 1, c, k =>
    bcast ranks root rank .bcast (.chars (c.headD [])) fun
      | .chars ci => bcastChecks ranks root rank n c.tail fun cs => k (ci :: cs)
      | _ => .abort

/-- `MPI_Bcast_abft` at one rank, up to the buffer on return.  What a rank other than the
    root receives goes through `corrupt` before it is checked.  `block_size(0)` is a divisor,
    and there is no memory for a negative number of bytes. -/
def mpiBcastAbft (crc32 : BitVec 32 → BitVec 8 → BitVec 32) (corrupt : Payload → Payload)
    (ranks : List R) (root rank : R) (buffer : List (BitVec 64)) :
    Proc R (Tag R) Wire (List (BitVec 64)) :=
  if dataBytesOf buffer.length ≤ 0 then .abort
  else
    let dataBytes := (dataBytesOf buffer.length).toNat
    let plan := planAbft dataBytes
    -- allocated everywhere, filled by the root only
    let own : Payload :=
      if rank = root then protect crc32 plan ((toBytes buffer).take dataBytes)
      else ⟨[], 0, [], []⟩
    bcast ranks root rank .bcast (.bytes own.dataBits) fun
      | .bytes dataBits =>
        bcast ranks root rank .bcast (.word own.crc) fun
          | .word crc =>
            bcast ranks root rank .bcast (.ints own.r) fun
              | .ints r =>
                bcastChecks ranks root rank plan.bsNum own.c fun c =>
                  if rank = root then
                    gather ranks root rank .gather (.chars ['y']) fun crcOkRecv =>
                      sendList (((ranks.zip crcOkRecv).filter fun x =>
                          decide (x.1 ≠ root) && decide (x.2 = .chars ['n'])).map fun x =>
                        (x.1, .user x.1, .bytes dataBits)) (.ret buffer)
                  else
                    let out := crcHammingStage crc32 plan (corrupt ⟨dataBits, crc, r, c⟩)
                    gather ranks root rank .gather (.chars [out.1]) fun _ =>
                      if out.1 = 'n' then
                        .recv root (.user rank) fun
                          | .bytes dataBits => .ret (copyBack buffer dataBytes dataBits)
                          | _ => .abort
                      else .ret (copyBack buffer dataBytes out.2)
              | _ => .abort
          | _ => .abort
      | _ => .abort

end Code

/-! ## Copies -/

@[simp] theorem doubleBytes_length (x : BitVec 64) : (doubleBytes x).length = 8 := by
  simp [doubleBytes]

@[simp] theorem toBytes_length (buffer : List (BitVec 64)) :
    (toBytes buffer).length = buffer.length * 8 := by
  induction buffer with
  | nil => rfl
  | cons x buffer ih =>
      rw [toBytes, List.flatMap_cons, List.length_append, doubleBytes_length, ← toBytes, ih,
        List.length_cons]
      omega

theorem toBytes_append (xs ys : List (BitVec 64)) :
    toBytes (xs ++ ys) = toBytes xs ++ toBytes ys := List.flatMap_append

theorem ofDoubleBytes_doubleBytes (x : BitVec 64) : ofDoubleBytes (doubleBytes x) = x := by
  apply BitVec.eq_of_toNat_eq
  have hx := x.isLt
  simp only [ofDoubleBytes, doubleBytes, List.range, List.range.loop, List.map_cons, List.map_nil,
    List.foldr_cons, List.foldr_nil, BitVec.toNat_ofNat]
  omega

theorem window_toBytes {buffer : List (BitVec 64)} {i : Nat} (hi : i < buffer.length) :
    window (8 * i) 8 (toBytes buffer) = doubleBytes buffer[i] := by
  induction buffer generalizing i with
  | nil => exact absurd hi (Nat.not_lt_zero i)
  | cons x buffer ih =>
      have hcons : toBytes (x :: buffer) = doubleBytes x ++ toBytes buffer := List.flatMap_cons
      rw [hcons, window]
      cases i with
      | zero =>
          rw [Nat.mul_zero, List.drop_zero, List.take_append_of_le_length (by simp),
            List.take_of_length_le (by simp)]
          rfl
      | succ i =>
          have hlen : i < buffer.length := Nat.lt_of_succ_lt_succ hi
          rw [List.drop_append, List.drop_eq_nil_of_le (by simp), doubleBytes_length,
            List.nil_append, show 8 * (i + 1) - 8 = 8 * i by omega]
          exact ih hlen

theorem ofBytes_toBytes (buffer : List (BitVec 64)) :
    ofBytes buffer.length (toBytes buffer) = buffer := by
  apply List.ext_getElem (by simp [ofBytes])
  intro i hi hi'
  simp only [ofBytes, List.getElem_map, List.getElem_range]
  rw [window_toBytes hi', ofDoubleBytes_doubleBytes]

theorem take_toBytes {buffer : List (BitVec 64)} {d : Nat} (hd : d ≤ buffer.length) :
    (toBytes buffer).take (d * 8) = toBytes (buffer.take d) := by
  have hsplit : toBytes buffer = toBytes (buffer.take d) ++ toBytes (buffer.drop d) := by
    rw [← toBytes_append, List.take_append_drop]
  rw [hsplit]
  exact List.take_left' (by rw [toBytes_length, List.length_take, Nat.min_eq_left hd])

theorem drop_toBytes {buffer : List (BitVec 64)} {d : Nat} (hd : d ≤ buffer.length) :
    (toBytes buffer).drop (d * 8) = toBytes (buffer.drop d) := by
  have hsplit : toBytes buffer = toBytes (buffer.take d) ++ toBytes (buffer.drop d) := by
    rw [← toBytes_append, List.take_append_drop]
  rw [hsplit]
  exact List.drop_left' (by rw [toBytes_length, List.length_take, Nat.min_eq_left hd])

/-- The first `d` doubles are replaced. -/
theorem copyBack_toBytes {buffer sent : List (BitVec 64)} {d : Nat} (hd : d ≤ buffer.length)
    (hsent : sent.length = d) :
    copyBack buffer (d * 8) (toBytes sent) = sent ++ buffer.drop d := by
  have hlen : (sent ++ buffer.drop d).length = buffer.length := by
    rw [List.length_append, List.length_drop, hsent]
    omega
  rw [copyBack, List.take_of_length_le (by rw [toBytes_length, hsent]), drop_toBytes hd,
    ← toBytes_append, ← hlen]
  exact ofBytes_toBytes _

theorem asInt_eq {x : Int} (hlow : -2147483648 ≤ x) (hhigh : x < 2147483648) : asInt x = x := by
  have hdef := Int.bmod_def x 4294967296
  unfold asInt
  omega

/-- Below `2 ^ 28` doubles nothing wraps. -/
theorem dataBytesOf_of_lt {count : Nat} (h : count < 268435456) :
    dataBytesOf count = (count * 8 : Nat) := asInt_eq (by omega) (by omega)

/-! ## Within two flips a block -/

section Radius

variable {crc32 : BitVec 32 → BitVec 8 → BitVec 32} {bs : Nat} {sent : List (BitVec 8)}
  {received : Payload}

/-- What may happen to a payload on its way: at most two flips in each block, and the CRC
    tells the payload from the one that was sent. -/
structure WithinRadius (crc32 : BitVec 32 → BitVec 8 → BitVec 32) (plan : BlockPlan)
    (sent : List (BitVec 8)) (received : Payload) : Prop where
  arrives : received.Arrives crc32 plan sent
  radius : ∀ i < plan.bsNum, (flipsAt plan sent received i).card ≤ 2
  detects : received.dataBits ≠ sent → doCrc32 crc32 received.dataBits ≠ doCrc32 crc32 sent

/-- The payload was altered and some block has two flips. -/
def NeedsResend (plan : BlockPlan) (sent : List (BitVec 8)) (received : Payload) : Prop :=
  received.dataBits ≠ sent ∧ ∃ i < plan.bsNum, (flipsAt plan sent received i).card = 2

instance (plan : BlockPlan) : Decidable (NeedsResend plan sent received) :=
  inferInstanceAs (Decidable (_ ∧ _))

/-- Within the radius a rank gives up exactly if it needs a retransmission, and otherwise
    has the payload. -/
theorem crcHammingStage_of_withinRadius (hbs : 0 < bs)
    (h : WithinRadius crc32 (blockPlan bs sent.length) sent received) :
    (NeedsResend (blockPlan bs sent.length) sent received →
      (crcHammingStage crc32 (blockPlan bs sent.length) received).1 = 'n') ∧
    (¬ NeedsResend (blockPlan bs sent.length) sent received →
      crcHammingStage crc32 (blockPlan bs sent.length) received = ('y', sent)) := by
  have hcrc : doCrc32 crc32 received.dataBits = doCrc32 crc32 sent → received.dataBits = sent :=
    fun he => by
      by_contra hne
      exact h.detects hne he
  obtain ⟨_, hintact, hrest⟩ := crcHammingStage_spec hbs h.arrives hcrc
  constructor
  · rintro ⟨hne, i, hi, htwo⟩
    have hblock := h.arrives.block hbs hi
    exact (hrest hne).1
      ⟨i, hi, hblock.rejects_iff.mp ((hblock.repaired (h.radius i hi)).1.mpr htwo)⟩
  · intro hneed
    by_cases heq : received.dataBits = sent
    · exact hintact heq
    · apply crcHammingStage_of_card_le_one hbs h.arrives hcrc
      intro i hi
      have hne : (flipsAt (blockPlan bs sent.length) sent received i).card ≠ 2 :=
        fun htwo => hneed ⟨heq, i, hi, htwo⟩
      have := h.radius i hi
      omega

end Radius

/-! ## The ranks -/

section Ranks

variable {R : Type} [DecidableEq R] (crc32 : BitVec 32 → BitVec 8 → BitVec 32)
  (ranks : List R) {root rank : R} {buffer : List (BitVec 64)}

/-- What the root broadcasts. -/
def Payload.wires (payload : Payload) : List Wire :=
  [.bytes payload.dataBits, .word payload.crc, .ints payload.r] ++ payload.c.map .chars

theorem announcements_cons (m : Wire) (ms : List Wire) :
    announcements ranks root (m :: ms) =
      (ranks.filter (· ≠ root)).map (fun d => .sent d .bcast m) ++ announcements ranks root ms :=
  List.flatMap_cons

theorem localRun_bcastChecks_root (root : R) (c : List (List Char))
    (k : List (List Char) → Proc R (Tag R) Wire (List (BitVec 64))) :
    LocalRun (bcastChecks ranks root root c.length c k) (announcements ranks root (c.map .chars))
      (k c) := by
  induction c generalizing k with
  | nil => exact .refl _
  | cons ci c ih =>
      rw [List.length_cons, bcastChecks, List.map_cons, announcements_cons]
      exact (localRun_bcast_root ranks root _ _ _).trans (ih fun cs => k (ci :: cs))

theorem localRun_bcastChecks (hrank : rank ≠ root) (c own : List (List Char))
    (k : List (List Char) → Proc R (Tag R) Wire (List (BitVec 64))) :
    LocalRun (bcastChecks ranks root rank c.length own k)
      ((c.map Wire.chars).map fun m => .received root .bcast m) (k c) := by
  induction c generalizing own k with
  | nil => exact .refl _
  | cons ci c ih =>
      rw [List.length_cons, bcastChecks, List.map_cons, List.map_cons]
      exact (localRun_bcast hrank ranks _ _ (Wire.chars ci) _).trans
        (ih own.tail fun cs => k (ci :: cs))

@[simp] theorem protect_c_length (plan : BlockPlan) (dataBits : List (BitVec 8)) :
    (protect crc32 plan dataBits).c.length = plan.bsNum := by
  simp [protect]

/-- The root up to its last send. -/
def abftResend (ranks : List R) (root : R) (buffer : List (BitVec 64)) (dataBits : List (BitVec 8))
    (crcOkRecv : List Wire) : Proc R (Tag R) Wire (List (BitVec 64)) :=
  sendList (((ranks.zip crcOkRecv).filter fun x =>
      decide (x.1 ≠ root) && decide (x.2 = .chars ['n'])).map fun x =>
    (x.1, .user x.1, .bytes dataBits)) (.ret buffer)

/-- The call where the number of bytes is positive. -/
theorem dataBytesOf_cases {dataBytes : Nat} (hsize : dataBytesOf buffer.length = dataBytes)
    (hpos : 0 < dataBytes) :
    ¬ dataBytesOf buffer.length ≤ 0 ∧ (dataBytesOf buffer.length).toNat = dataBytes := by
  omega

theorem localRun_abft_root (root : R) {buffer : List (BitVec 64)} {dataBytes : Nat}
    (hsize : dataBytesOf buffer.length = dataBytes) (hpos : 0 < dataBytes)
    (corrupt : Payload → Payload) :
    LocalRun (mpiBcastAbft crc32 corrupt ranks root root buffer)
      (announcements ranks root
        (protect crc32 (planAbft dataBytes) ((toBytes buffer).take dataBytes)).wires)
      (gather ranks root root .gather (.chars ['y'])
        (abftResend ranks root buffer ((toBytes buffer).take dataBytes))) := by
  have hc := localRun_bcastChecks_root ranks root
    (protect crc32 (planAbft dataBytes) ((toBytes buffer).take dataBytes)).c fun _ =>
      gather ranks root root .gather (.chars ['y'])
        (abftResend ranks root buffer ((toBytes buffer).take dataBytes))
  rw [protect_c_length] at hc
  obtain ⟨hnot, hnat⟩ := dataBytesOf_cases hsize hpos
  simp only [mpiBcastAbft, hnot, hnat, if_true, if_false, Payload.wires, List.cons_append,
    List.nil_append, announcements_cons]
  refine (localRun_bcast_root ranks root _ _ _).trans ?_
  refine (localRun_bcast_root ranks root _ _ _).trans ?_
  exact (localRun_bcast_root ranks root _ _ _).trans hc

/-- The other ranks after the gather. -/
def abftFinish (root rank : R) (buffer : List (BitVec 64)) (dataBytes : Nat)
    (out : Char × List (BitVec 8)) : Proc R (Tag R) Wire (List (BitVec 64)) :=
  if out.1 = 'n' then
    .recv root (.user rank) fun
      | .bytes dataBits => .ret (copyBack buffer dataBytes dataBits)
      | _ => .abort
  else .ret (copyBack buffer dataBytes out.2)

theorem localRun_abft (hrank : rank ≠ root) {buffer : List (BitVec 64)} {dataBytes : Nat}
    (hsize : dataBytesOf buffer.length = dataBytes) (hpos : 0 < dataBytes)
    (corrupt : Payload → Payload) (sent : List (BitVec 8)) :
    LocalRun (mpiBcastAbft crc32 corrupt ranks root rank buffer)
      (reported root (protect crc32 (planAbft dataBytes) sent).wires
        (.chars [(crcHammingStage crc32 (planAbft dataBytes)
          (corrupt (protect crc32 (planAbft dataBytes) sent))).1]))
      (abftFinish root rank buffer dataBytes (crcHammingStage crc32 (planAbft dataBytes)
        (corrupt (protect crc32 (planAbft dataBytes) sent)))) := by
  have hc := localRun_bcastChecks ranks hrank
    (protect crc32 (planAbft dataBytes) sent).c [] fun c =>
      let out := crcHammingStage crc32 (planAbft dataBytes) (corrupt
        ⟨sent, doCrc32 crc32 sent, (protect crc32 (planAbft dataBytes) sent).r, c⟩)
      gather ranks root rank .gather (.chars [out.1]) fun _ =>
        abftFinish root rank buffer dataBytes out
  rw [protect_c_length] at hc
  have hg := localRun_gather (α := List (BitVec 64)) hrank ranks Tag.gather
    (Wire.chars [(crcHammingStage crc32 (planAbft dataBytes)
      (corrupt (protect crc32 (planAbft dataBytes) sent))).1]) fun _ =>
    abftFinish root rank buffer dataBytes (crcHammingStage crc32 (planAbft dataBytes)
      (corrupt (protect crc32 (planAbft dataBytes) sent)))
  obtain ⟨hnot, hnat⟩ := dataBytesOf_cases hsize hpos
  simp only [mpiBcastAbft, hnot, hnat, if_neg hrank, if_false, reported, Payload.wires,
    List.cons_append, List.nil_append, List.map_cons]
  refine (localRun_bcast hrank ranks _ _ (Wire.bytes sent) _).trans ?_
  refine (localRun_bcast hrank ranks _ _ (Wire.word (doCrc32 crc32 sent)) _).trans ?_
  refine (localRun_bcast hrank ranks _ _
    (Wire.ints (protect crc32 (planAbft dataBytes) sent).r) _).trans ?_
  exact hc.trans hg

end Ranks

/-! ## The broadcast -/

section Broadcast

variable {n : Nat} {crc32 : BitVec 32 → BitVec 8 → BitVec 32}
  {corrupt : Fin n → Payload → Payload} {root : Fin n} {buffers : Fin n → List (BitVec 64)}

/-- All ranks at the call of `MPI_Bcast_abft`. -/
def abftSys (crc32 : BitVec 32 → BitVec 8 → BitVec 32) (corrupt : Fin n → Payload → Payload)
    (root : Fin n) (buffers : Fin n → List (BitVec 64)) :
    Sys (Fin n) (Tag (Fin n)) Wire (List (BitVec 64)) where
  proc rank := mpiBcastAbft crc32 (corrupt rank) (List.finRange n) root rank (buffers rank)
  chan _ _ _ := []
  log _ := []

/-- The payload of the root. -/
def abftSent (root : Fin n) (buffers : Fin n → List (BitVec 64)) : List (BitVec 8) :=
  (toBytes (buffers root)).take (dataBytesOf (buffers root).length).toNat

/-- The blocks of the payload. -/
def abftPlan (root : Fin n) (buffers : Fin n → List (BitVec 64)) : BlockPlan :=
  planAbft (abftSent root buffers).length

/-- What rank `rank` has before its check. -/
def abftReceived (crc32 : BitVec 32 → BitVec 8 → BitVec 32)
    (corrupt : Fin n → Payload → Payload) (root : Fin n) (buffers : Fin n → List (BitVec 64))
    (rank : Fin n) : Payload :=
  corrupt rank (protect crc32 (abftPlan root buffers) (abftSent root buffers))

/-- Whether a rank has to get the payload again. -/
def abftNeeds (crc32 : BitVec 32 → BitVec 8 → BitVec 32) (corrupt : Fin n → Payload → Payload)
    (root : Fin n) (buffers : Fin n → List (BitVec 64)) (rank : Fin n) : Bool :=
  decide (NeedsResend (abftPlan root buffers) (abftSent root buffers)
    (abftReceived crc32 corrupt root buffers rank))

/-- The verdict that a rank reports. -/
def abftVerdict (crc32 : BitVec 32 → BitVec 8 → BitVec 32) (corrupt : Fin n → Payload → Payload)
    (root : Fin n) (buffers : Fin n → List (BitVec 64)) (rank : Fin n) : Wire :=
  if rank = root then .chars ['y']
  else .chars [(crcHammingStage crc32 (abftPlan root buffers)
    (abftReceived crc32 corrupt root buffers rank)).1]

/-- The ranks that the root picks from the verdicts. -/
theorem filter_zip_verdicts {ranks : List (Fin n)} {ok : Fin n → Wire} {needs : Fin n → Bool}
    (h : ∀ r, r ≠ root → (ok r = .chars ['n'] ↔ needs r = true)) (data : Wire) :
    ((ranks.zip (ranks.map ok)).filter fun x =>
        decide (x.1 ≠ root) && decide (x.2 = .chars ['n'])).map
      (fun x => (x.1, Tag.user x.1, data)) =
    (ranks.filter fun i => decide (i ≠ root) && needs i).map fun i => (i, Tag.user i, data) := by
  induction ranks with
  | nil => rfl
  | cons i ranks ih =>
      rw [List.map_cons, List.zip_cons_cons, List.filter_cons, List.filter_cons]
      -- the root's own verdict is skipped
      have hcond : (decide (i ≠ root) && decide (ok i = .chars ['n'])) =
          (decide (i ≠ root) && needs i) := by
        by_cases hi : i = root
        · simp [hi]
        · have := h i hi
          cases hn : needs i <;> simp_all
      simp only [hcond]
      split
      · rw [List.map_cons, List.map_cons, ih]
      · exact ih

/-- The verdict of a rank and what it holds. -/
theorem abftNeeds_cases (hpos : 0 < (abftSent root buffers).length) {r : Fin n}
    (hradius : WithinRadius crc32 (abftPlan root buffers) (abftSent root buffers)
      (abftReceived crc32 corrupt root buffers r)) :
    (abftNeeds crc32 corrupt root buffers r = true →
      (crcHammingStage crc32 (abftPlan root buffers)
        (abftReceived crc32 corrupt root buffers r)).1 = 'n') ∧
    (abftNeeds crc32 corrupt root buffers r = false →
      crcHammingStage crc32 (abftPlan root buffers)
        (abftReceived crc32 corrupt root buffers r) = ('y', abftSent root buffers)) := by
  have hbs : 0 < blockSizeAbft (abftSent root buffers).length :=
    blockSizeOf_pos (by decide) hpos
  have h := crcHammingStage_of_withinRadius hbs hradius
  exact ⟨fun hn => h.1 (of_decide_eq_true hn), fun hn => h.2 (of_decide_eq_false hn)⟩

theorem abftVerdict_eq_iff (hpos : 0 < (abftSent root buffers).length) {r : Fin n} (hr : r ≠ root)
    (hradius : WithinRadius crc32 (abftPlan root buffers) (abftSent root buffers)
      (abftReceived crc32 corrupt root buffers r)) :
    abftVerdict crc32 corrupt root buffers r = .chars ['n'] ↔
      abftNeeds crc32 corrupt root buffers r = true := by
  have hstage := abftNeeds_cases hpos hradius
  rw [abftVerdict, if_neg hr]
  cases hn : abftNeeds crc32 corrupt root buffers r with
  | false => simp [hstage.2 hn]
  | true => simp [hstage.1 hn]

/-- The end of the root: it sends the payload again to the ranks that need it. -/
theorem localRun_abftResend {ranks : List (Fin n)}
    (hverdict : ∀ r, r ≠ root → (abftVerdict crc32 corrupt root buffers r = .chars ['n'] ↔
      abftNeeds crc32 corrupt root buffers r = true)) :
    LocalRun (abftResend ranks root (buffers root) (abftSent root buffers)
        (ranks.map (abftVerdict crc32 corrupt root buffers)))
      (resends ranks root (abftNeeds crc32 corrupt root buffers)
        (.bytes (abftSent root buffers)))
      (.ret (buffers root)) := by
  have h := localRun_sendList ((ranks.filter fun i => decide (i ≠ root) &&
    abftNeeds crc32 corrupt root buffers i).map fun i =>
      (i, Tag.user i, Wire.bytes (abftSent root buffers))) (.ret (buffers root))
  rw [List.map_map, ← filter_zip_verdicts hverdict] at h
  exact h

/-- The end of another rank: it receives again if it has given up. -/
theorem localRun_abftFinish (hpos : 0 < (abftSent root buffers).length) {r : Fin n}
    (hradius : WithinRadius crc32 (abftPlan root buffers) (abftSent root buffers)
      (abftReceived crc32 corrupt root buffers r)) (buffer : List (BitVec 64)) (dataBytes : Nat) :
    LocalRun (abftFinish root r buffer dataBytes
        (crcHammingStage crc32 (abftPlan root buffers)
          (abftReceived crc32 corrupt root buffers r)))
      (repaired root (abftNeeds crc32 corrupt root buffers) (.bytes (abftSent root buffers)) r)
      (.ret (copyBack buffer dataBytes (abftSent root buffers))) := by
  have hstage := abftNeeds_cases hpos hradius
  rw [abftFinish, repaired]
  -- within the radius the stage either leaves the payload or gives up
  cases hn : abftNeeds crc32 corrupt root buffers r with
  | false =>
      rw [hstage.2 hn]
      simp only [Bool.false_eq_true, if_false, show ('y' = 'n') = False by decide]
      exact .refl _
  | true =>
      rw [if_pos (hstage.1 hn), if_pos rfl]
      exact .head (.recv (m := Wire.bytes (abftSent root buffers))) (.refl _)

/-- What a rank has on return when the first `d` doubles are sent. -/
def abftDelivered (d : Nat) (root : Fin n) (buffers : Fin n → List (BitVec 64)) (r : Fin n) :
    List (BitVec 64) :=
  (buffers root).take d ++ (buffers r).drop d

variable {d : Nat}

theorem abftSent_eq (hsize : dataBytesOf (buffers root).length = (d * 8 : Nat))
    (hd : d ≤ (buffers root).length) :
    abftSent root buffers = toBytes ((buffers root).take d) ∧
      (abftSent root buffers).length = d * 8 := by
  have hsent : abftSent root buffers = toBytes ((buffers root).take d) := by
    rw [abftSent, hsize, Int.toNat_natCast, take_toBytes hd]
  refine ⟨hsent, ?_⟩
  rw [hsent, toBytes_length, List.length_take, Nat.min_eq_left hd]

/-- Every rank but the root receives the broadcasts and reports its verdict. -/
theorem localRun_abft_reports (hsize : dataBytesOf (buffers root).length = (d * 8 : Nat))
    (hpos : 1 ≤ d) (hd : d ≤ (buffers root).length)
    (hbuffers : ∀ r, (buffers r).length = (buffers root).length) {r : Fin n} (hr : r ≠ root) :
    LocalRun ((abftSys crc32 corrupt root buffers).proc r)
      (reported root (protect crc32 (abftPlan root buffers) (abftSent root buffers)).wires
        (abftVerdict crc32 corrupt root buffers r))
      (abftFinish root r (buffers r) (d * 8) (crcHammingStage crc32 (abftPlan root buffers)
        (abftReceived crc32 corrupt root buffers r))) := by
  have hplan : abftPlan root buffers = planAbft (d * 8) :=
    congrArg planAbft (abftSent_eq hsize hd).2
  have hverdict : abftVerdict crc32 corrupt root buffers r = .chars
      [(crcHammingStage crc32 (abftPlan root buffers)
        (abftReceived crc32 corrupt root buffers r)).1] := if_neg hr
  have h := localRun_abft crc32 (List.finRange n) hr ((congrArg _ (hbuffers r)).trans hsize)
    (by omega) (corrupt r) (abftSent root buffers)
  rw [← hplan] at h
  rw [hverdict]
  exact h

/-- With at most two flips in each block at each rank, all ranks return with as much of the
    root's buffer as fits an `int`, whatever the order of their steps, and there is one
    retransmission for each rank that has to get the payload again. -/
theorem abft_run (hsize : dataBytesOf (buffers root).length = (d * 8 : Nat)) (hpos : 1 ≤ d)
    (hd : d ≤ (buffers root).length)
    (hbuffers : ∀ r, (buffers r).length = (buffers root).length)
    (hradius : ∀ r, r ≠ root → WithinRadius crc32 (abftPlan root buffers) (abftSent root buffers)
      (abftReceived crc32 corrupt root buffers r)) :
    ∃ t, Outcome (abftSys crc32 corrupt root buffers) t (abftDelivered d root buffers) ∧
      (t.log root).filter Event.isUser =
        ((List.finRange n).filter fun i => decide (i ≠ root) &&
          abftNeeds crc32 corrupt root buffers i).map (fun i =>
            .sent i (.user i) (.bytes (abftSent root buffers))) ∧
      ∀ r, r ≠ root → (t.log r).filter Event.isUser =
        if abftNeeds crc32 corrupt root buffers r then
          [.received root (.user r) (.bytes (abftSent root buffers))] else [] := by
  obtain ⟨hsent, hlen⟩ := abftSent_eq hsize hd
  have hbytes : 0 < d * 8 := by omega
  have hnonempty : 0 < (abftSent root buffers).length := by rwa [hlen]
  have hplan : abftPlan root buffers = planAbft (d * 8) := congrArg planAbft hlen
  have htake : (toBytes (buffers root)).take (d * 8) = abftSent root buffers := by
    rw [hsent, take_toBytes hd]
  have hroot := localRun_abft_root crc32 (List.finRange n) root hsize hbytes (corrupt root)
  rw [htake, ← hplan] at hroot
  have hown : abftVerdict crc32 corrupt root buffers root = .chars ['y'] := if_pos rfl
  rw [← hown] at hroot
  have hcopy : ∀ r, copyBack (buffers r) (d * 8) (abftSent root buffers) =
      abftDelivered d root buffers r := by
    intro r
    rw [hsent, copyBack_toBytes (by rw [hbuffers]; exact hd) (by
      rw [List.length_take, Nat.min_eq_left hd])]
    rfl
  have hkeep : abftDelivered d root buffers root = buffers root := List.take_append_drop ..
  have hresend := @localRun_abftResend n crc32 corrupt root buffers (List.finRange n) fun r hr =>
    abftVerdict_eq_iff hnonempty hr (hradius r hr)
  rw [show (Proc.ret (buffers root) : Proc (Fin n) (Tag (Fin n)) Wire (List (BitVec 64))) =
    .ret (abftDelivered d root buffers root) by rw [hkeep]] at hresend
  obtain ⟨t, hout, ht⟩ := retransmission_outcome (R := Fin n) (a := abftDelivered d root buffers)
    (s := abftSys crc32 corrupt root buffers)
    (k := fun r _ => abftFinish root r (buffers r) (d * 8)
      (crcHammingStage crc32 (abftPlan root buffers) (abftReceived crc32 corrupt root buffers r)))
    (List.nodup_finRange n) List.mem_finRange (fun _ _ _ => rfl) (fun _ => rfl) hroot
    (fun r hr => localRun_abft_reports hsize hpos hd hbuffers hr) hresend fun r hr => by
      have h := localRun_abftFinish hnonempty (hradius r hr) (buffers r) (d * 8)
      rwa [hcopy] at h
  refine ⟨t, hout, ?_, fun r hr => ?_⟩
  · rw [ht root, if_pos rfl, filter_isUser_root]
    rfl
  · rw [ht r, if_neg hr, filter_isUser_other]
    rfl

/-- All doubles are sent if their bytes fit an `int`. -/
theorem abftDelivered_all (hbuffers : ∀ r, (buffers r).length = (buffers root).length) :
    abftDelivered (buffers root).length root buffers = fun _ => buffers root := by
  funext r
  rw [abftDelivered, List.take_length, List.drop_eq_nil_of_le (hbuffers r).le, List.append_nil]

end Broadcast

end MpiApps.Fault
