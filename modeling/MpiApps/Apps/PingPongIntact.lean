/-
  MpiApps.Apps.PingPongIntact

  What the two ranks of ping-pong hold.

  A receiver that rejects a round keeps the flipped bytes in `data_bits`, the array that it
  sends from when its turn comes, with a CRC computed anew.  It never comes to that: its turn
  comes after a round that it has accepted, and an accepted round leaves it with the bytes of
  the sender, as long as the flips of one check are few enough to be seen.  So the rank whose
  turn it is holds what both compressed, in every run, and so does the rank that decompresses
  (`pingPong_intact`).
-/

import MpiApps.Apps.PingPong
import MpiApps.Transfer.BcastCrcHamming

namespace MpiApps.PingPong

open MpiApps.Codec MpiApps.MessagePassing MpiApps.Fault MpiApps.Transfer

/-! ## The check -/

section Check

variable (mode : Mode) (crc32 : BitVec 32 → BitVec 8 → BitVec 32) (plan : BlockPlan)

/-- When the errors of check `n` make the receiver reject `dataBits`. -/
def Rejects (errors : Errors) (n : Nat) (dataBits : List (BitVec 8)) : Prop :=
  match mode with
  | .crc => errors.flip n dataBits ≠ dataBits
  | .maskCrc => errors.zero n = true ∧ doCrc32 crc32 dataBits ≠ 0
  | .crcHamming =>
    NeedsResend plan dataBits (withFlips crc32 plan dataBits (errors.flip n dataBits))

/-- The flips of every check are few enough to be seen. -/
def FewErrors (errors : Errors) (dataBits : List (BitVec 8)) : Prop :=
  ∀ n, WithinRadius crc32 plan dataBits
    (withFlips crc32 plan dataBits (errors.flip n dataBits))

variable {mode crc32 plan}

/-- A comparison decides the answer, and what has been received stays. -/
theorem compare_spec (s : Local) (c : Prop) [Decidable c] :
    let out := if c then ('y', s) else ('n', s.reject)
    (out.1 = 'n' ↔ ¬ c) ∧ out.2.dataBits = s.dataBits := by
  by_cases h : c
  · simp [h]
  · simp [h, Local.reject]

theorem compare_resent (s : Local) (c : Prop) [Decidable c] :
    let out := if c then ('y', s) else ('n', s.reject)
    out.2.resent = s.resent + if out.1 = 'n' then 1 else 0 := by
  by_cases h : c
  · simp [h]
  · simp [h, Local.reject]

/-- The loop of the receiver is the one of the broadcasts, with the variables around it. -/
theorem decodeLoop_eq (r : List Nat) (c : List (List Char)) (is : List Nat) (s : Local) :
    (decodeLoop plan r c is s).1 = (repairLoop plan r c is s.dataBits).1 ∧
      (decodeLoop plan r c is s).2.dataBits = (repairLoop plan r c is s.dataBits).2 := by
  induction is generalizing s with
  | nil => exact ⟨rfl, rfl⟩
  | cons i is ih =>
      rw [decodeLoop, repairLoop]
      by_cases h : (hammingDecode (plan.received c i s.dataBits) (r.getD i 0)).1 = 1
      · rw [if_pos h, if_pos h]
        exact ⟨rfl, rfl⟩
      · rw [if_neg h, if_neg h]
        exact ih _

theorem decodeLoop_resent (r : List Nat) (c : List (List Char)) (is : List Nat) (s : Local) :
    (decodeLoop plan r c is s).2.resent =
      s.resent + if (decodeLoop plan r c is s).1 = 'n' then 1 else 0 := by
  induction is generalizing s with
  | nil => rfl
  | cons i is ih =>
      rw [decodeLoop]
      by_cases h : (hammingDecode (plan.received c i s.dataBits) (r.getD i 0)).1 = 1
      · simp only [h, if_true]
        rfl
      · simp only [h, if_false]
        exact ih _

/-- `resent` counts the rounds that the receiver rejects. -/
theorem check_resent (errors : Errors) (s : Local) (count : Nat) (p : Payload) :
    (check mode crc32 plan errors s count p).2.resent =
      s.resent + if (check mode crc32 plan errors s count p).1 = 'n' then 1 else 0 := by
  cases mode with
  | crc => exact compare_resent _ _
  | maskCrc => exact compare_resent _ _
  | crcHamming =>
      simp only [check]
      split
      · rfl
      · exact decodeLoop_resent _ _ _ _

/-- Under CRC and Hamming protection the check is the stage of the broadcasts. -/
theorem check_crcHamming (errors : Errors) (s : Local) (count : Nat) (p : Payload) :
    let out := crcHammingStage crc32 plan
      { p with dataBits := errors.flip (s.checks + 1) p.dataBits }
    (check .crcHamming crc32 plan errors s count p).1 = out.1 ∧
      (check .crcHamming crc32 plan errors s count p).2.dataBits = out.2 := by
  simp only [check, crcHammingStage]
  split
  · exact ⟨rfl, rfl⟩
  · exact decodeLoop_eq _ _ _ _

/-- The receiver rejects exactly the errors that it must, and otherwise has the bytes of the
    sender. -/
theorem check_spec {bs : Nat} (hbs : 0 < bs) (errors : Errors) (s s' : Local) (count : Nat)
    (hfew : FewErrors crc32 (blockPlan bs s'.dataBits.length) errors s'.dataBits) :
    let plan := blockPlan bs s'.dataBits.length
    let out := check mode crc32 plan errors s count (arrived mode crc32 plan s')
    (out.1 = 'n' ↔ Rejects mode crc32 plan errors (s.checks + 1) s'.dataBits) ∧
      (out.1 ≠ 'n' → out.2.dataBits = s'.dataBits) := by
  intro plan out
  have h := hfew (s.checks + 1)
  cases mode with
  | crc =>
      obtain ⟨hok, hbits⟩ := compare_spec
        { s with
          pingPongCount := count, checks := s.checks + 1,
          dataBits := errors.flip (s.checks + 1) s'.dataBits }
        (doCrc32 crc32 s'.dataBits = doCrc32 crc32 (errors.flip (s.checks + 1) s'.dataBits))
      have hiff : out.1 = 'n' ↔ errors.flip (s.checks + 1) s'.dataBits ≠ s'.dataBits :=
        hok.trans ⟨fun hne heq => hne (congrArg _ heq.symm), fun hne heq => h.detects hne heq.symm⟩
      exact ⟨hiff, fun hy => hbits.trans (not_not.mp fun hne => hy (hiff.mpr hne))⟩
  | maskCrc =>
      obtain ⟨hok, hbits⟩ := compare_spec
        { s with pingPongCount := count, checks := s.checks + 1, dataBits := s'.dataBits }
        (doCrc32 crc32 s'.dataBits =
          if errors.zero (s.checks + 1) then 0 else doCrc32 crc32 s'.dataBits)
      refine ⟨hok.trans ?_, fun _ => hbits⟩
      by_cases hz : errors.zero (s.checks + 1) = true <;> simp [Rejects, hz]
  | crcHamming =>
      obtain ⟨hok, hbits⟩ := check_crcHamming errors s count (arrived .crcHamming crc32 plan s')
      obtain ⟨hn, hy⟩ := crcHammingStage_of_withinRadius hbs h
      by_cases hneed : NeedsResend plan s'.dataBits
          (withFlips crc32 plan s'.dataBits (errors.flip (s.checks + 1) s'.dataBits))
      · have hrej : out.1 = 'n' := hok.trans (hn hneed)
        exact ⟨⟨fun _ => hneed, fun _ => hrej⟩, fun hne => absurd hrej hne⟩
      · have hacc : out.1 = 'y' := hok.trans (congrArg Prod.fst (hy hneed))
        refine ⟨⟨fun hrej => ?_, fun hr => absurd hr hneed⟩, fun _ => ?_⟩
        · rw [hacc] at hrej
          exact absurd hrej (by decide)
        · exact hbits.trans (congrArg Prod.snd (hy hneed))

end Check

/-! ## The rounds -/

section Run

variable {mode : Mode} {limit : Nat} {crc32 : BitVec 32 → BitVec 8 → BitVec 32} {bs : Nat}
  {dec : Decoding} {errors : Fin 2 → Errors} {dataBits : List (BitVec 8)}

/-- The rank whose turn it is holds what was compressed. -/
def HoldsTurn (dataBits : List (BitVec 8)) (x : Fin 2 → Local) : Prop :=
  (x (sender x)).dataBits = dataBits

/-- What the answer of a round says about the bytes of the receiver. -/
theorem answer_spec (hbs : 0 < bs)
    (hfew : ∀ r, FewErrors crc32 (blockPlan bs dataBits.length) (errors r) dataBits)
    {x : Fin 2 → Local} (hx : HoldsTurn dataBits x) :
    let plan := blockPlan bs dataBits.length
    let receiver := partnerRank (sender x)
    ((answer mode crc32 plan errors x).1 = 'n' ↔
        Rejects mode crc32 plan (errors receiver) ((x receiver).checks + 1) dataBits) ∧
      ((answer mode crc32 plan errors x).1 ≠ 'n' →
        (answer mode crc32 plan errors x).2.dataBits = dataBits) := by
  subst hx
  exact check_spec hbs (errors _) (x _) (x (sender x)) _ (hfew _)

/-- After a round that counts both ranks hold the bytes of the sender. -/
theorem accepted_dataBits (hbs : 0 < bs)
    (hfew : ∀ r, FewErrors crc32 (blockPlan bs dataBits.length) (errors r) dataBits)
    {x : Fin 2 → Local} (hx : HoldsTurn dataBits x)
    (hacc : (answer mode crc32 (blockPlan bs dataBits.length) errors x).1 ≠ 'n') (r : Fin 2) :
    (nextStates mode crc32 (blockPlan bs dataBits.length) errors x r).dataBits = dataBits := by
  by_cases hr : r = sender x
  · rw [nextStates, if_pos hr, if_neg hacc, hr]
    exact hx
  · rw [nextStates, if_neg hr]
    exact (answer_spec hbs hfew hx).2 hacc

/-- A round that does not count leaves the turn with the sender, who keeps its bytes. -/
theorem holdsTurn_nextStates (hbs : 0 < bs)
    (hfew : ∀ r, FewErrors crc32 (blockPlan bs dataBits.length) (errors r) dataBits)
    {x : Fin 2 → Local} (hs : Synced x) (hx : HoldsTurn dataBits x) :
    HoldsTurn dataBits (nextStates mode crc32 (blockPlan bs dataBits.length) errors x) := by
  by_cases hacc : (answer mode crc32 (blockPlan bs dataBits.length) errors x).1 = 'n'
  · have hturn : sender (nextStates mode crc32 (blockPlan bs dataBits.length) errors x) =
        sender x := by
      rw [sender, sender, Fin.mk.injEq, nextStates_count hs, if_pos hacc]
    rw [HoldsTurn, hturn, nextStates, if_pos rfl, if_pos hacc]
    exact hx
  · exact accepted_dataBits hbs hfew hx hacc _

/-- Run lemma: whoever has the turn holds what was compressed. -/
theorem holdsTurn_states (hbs : 0 < bs)
    (hfew : ∀ r, FewErrors crc32 (blockPlan bs dataBits.length) (errors r) dataBits) (k : Nat) :
    HoldsTurn dataBits
      (states mode crc32 (blockPlan bs dataBits.length) errors dataBits k) := by
  induction k with
  | zero => rfl
  | succ k ih =>
      rw [states_succ]
      exact holdsTurn_nextStates hbs hfew (synced_states mode crc32 _ errors dataBits k) ih

/-- A round counts for both ranks or as one that is sent again. -/
theorem nextStates_resent {plan : BlockPlan} (x : Fin 2 → Local) :
    (nextStates mode crc32 plan errors x 0).resent +
        (nextStates mode crc32 plan errors x 1).resent =
      (x 0).resent + (x 1).resent +
        if (answer mode crc32 plan errors x).1 = 'n' then 1 else 0 := by
  have hsender : (nextStates mode crc32 plan errors x (sender x)).resent =
      (x (sender x)).resent := by
    rw [nextStates, if_pos rfl]
    split <;> rfl
  have hreceiver : (nextStates mode crc32 plan errors x (partnerRank (sender x))).resent =
      (x (partnerRank (sender x))).resent +
        if (answer mode crc32 plan errors x).1 = 'n' then 1 else 0 := by
    rw [nextStates, if_neg (partnerRank_ne _)]
    exact check_resent _ _ _ _
  have hboth : ∀ (q : Fin 2) (f : Fin 2 → Nat), f q + f (partnerRank q) = f 0 + f 1 := by
    exact Fin.forall_fin_two.mpr ⟨fun f => rfl, fun f => Nat.add_comm _ _⟩
  have hx := hboth (sender x) fun r => (x r).resent
  have hnext := hboth (sender x) fun r => (nextStates mode crc32 plan errors x r).resent
  simp only [hsender, hreceiver] at hx hnext
  omega

theorem rounds_eq_count_add_resent (plan : BlockPlan) (k : Nat) :
    k = (states mode crc32 plan errors dataBits k rankZero).pingPongCount +
      ((states mode crc32 plan errors dataBits k 0).resent +
        (states mode crc32 plan errors dataBits k 1).resent) := by
  induction k with
  | zero => rfl
  | succ k ih =>
      rw [states_succ, nextStates_resent,
        nextStates_count (synced_states mode crc32 plan errors dataBits k)]
      split <;> omega

/-- The last round before both leave counts, so both hold what was compressed. -/
theorem dataBits_of_left (hbs : 0 < bs)
    (hfew : ∀ r, FewErrors crc32 (blockPlan bs dataBits.length) (errors r) dataBits) {k : Nat}
    (hk : (rounds mode limit crc32 (blockPlan bs dataBits.length) dec errors dataBits).Taken k)
    (hcount : (states mode crc32 (blockPlan bs dataBits.length) errors dataBits k
      rankZero).pingPongCount = limit) (r : Fin 2) :
    (states mode crc32 (blockPlan bs dataBits.length) errors dataBits k r).dataBits =
      dataBits := by
  cases k with
  | zero => rfl
  | succ k =>
      have hs := synced_states mode crc32 (blockPlan bs dataBits.length) errors dataBits k
      rw [states_succ] at hcount ⊢
      refine accepted_dataBits hbs hfew (holdsTurn_states hbs hfew k) (fun hrej => ?_) r
      -- a round that does not count leaves the count below the limit
      rw [nextStates_count hs, if_pos hrej] at hcount
      exact hk k (Nat.lt_succ_self k) 0 ((body_loopStates_eq_none_iff k 0).mpr hcount.ge)

end Run

/-! ## Results -/

/-- No rank ever sends or decompresses anything but what both compressed. -/
structure Intact (mode : Mode) (limit : Nat) (crc32 : BitVec 32 → BitVec 8 → BitVec 32)
    (plan : BlockPlan) (dec : Decoding) (errors : Fin 2 → Errors) (dataBits : List (BitVec 8))
    (rs : Rounds (body mode limit crc32 plan dec errors)) : Prop where
  /-- a rank at the head of its loop whose turn it is holds it, whatever the other one does -/
  turn : ∀ u n r x, LoopRun (body mode limit crc32 plan dec errors) rs.start u n →
    u.proc r = .ret (.ok x) → (r : Nat) = x.pingPongCount % 2 → x.dataBits = dataBits
  /-- a round is rejected exactly if its errors ask for it -/
  rejected : ∀ k,
    let x := states mode crc32 plan errors dataBits k
    let receiver := partnerRank (sender x)
    (answer mode crc32 plan errors x).1 = 'n' ↔
      Rejects mode crc32 plan (errors receiver) ((x receiver).checks + 1) dataBits
  /-- a rank that leaves holds it, and the rounds behind it that do not count are those that the
      two ranks have counted as resent -/
  leaves : ∀ u n r x, LoopRun (body mode limit crc32 plan dec errors) rs.start u n →
    u.proc r = .ret (.ok x) → body mode limit crc32 plan dec errors r (.ok x) = none →
    x.dataBits = dataBits ∧ ∃ k, rs.Taken k ∧ u.log r = rs.history k r ∧
      k = limit + ((states mode crc32 plan errors dataBits k 0).resent +
        (states mode crc32 plan errors dataBits k 1).resent)
  /-- the only rank that can stop in the loop is the last receiver, on a stream that cannot be
      decompressed -/
  stops : ∀ u n r f, LoopRun (body mode limit crc32 plan dec errors) rs.start u n →
    u.proc r = .ret (.error f) → r = lastReceiver limit ∧ decompress mode dec dataBits = .error f

/-- A rank that is out of the loop has had the last round. -/
theorem exists_last {plan : BlockPlan} {mode : Mode} {limit : Nat}
    {crc32 : BitVec 32 → BitVec 8 → BitVec 32} {dec : Decoding} {errors : Fin 2 → Errors}
    {dataBits : List (BitVec 8)} {u : Sys (Fin 2) Nat Wire State} {n : Nat} {r : Fin 2} {y : State}
    (hrun : LoopRun (body mode limit crc32 plan dec errors)
      (rounds mode limit crc32 plan dec errors dataBits).start u n) (hy : u.proc r = .ret y)
    (hleft : body mode limit crc32 plan dec errors r y = none) :
    ∃ k, (rounds mode limit crc32 plan dec errors dataBits).Taken k ∧
      y = loopStates mode limit crc32 plan dec errors dataBits k r ∧
      u.log r = (rounds mode limit crc32 plan dec errors dataBits).history k r ∧
      (states mode crc32 plan errors dataBits k rankZero).pingPongCount = limit := by
  obtain ⟨k, hk, hstate, hnone, hlog, -⟩ := (Rounds.follows hrun).left hy hleft
  exact ⟨k, hk, hstate, hlog, Nat.le_antisymm (count_le_limit hk)
    ((body_loopStates_eq_none_iff k r).mp (hnone r))⟩

/-- With flips few enough to be seen the ranks hold what they must. -/
theorem intact_of_fewErrors {crc32 : BitVec 32 → BitVec 8 → BitVec 32} {bs : Nat}
    {errors : Fin 2 → Errors} {dataBits : List (BitVec 8)} (hbs : 0 < bs)
    (hfew : ∀ r, FewErrors crc32 (blockPlan bs dataBits.length) (errors r) dataBits)
    (mode : Mode) (limit : Nat) (dec : Decoding) :
    Intact mode limit crc32 (blockPlan bs dataBits.length) dec errors dataBits
      (rounds mode limit crc32 (blockPlan bs dataBits.length) dec errors dataBits) where
  turn u n r x hrun hx hr := by
    obtain ⟨k, hk, hpos⟩ := (Rounds.follows hrun).position r
    obtain ⟨hstate, -⟩ := hpos.head_of_ret hx
    obtain rfl := eq_states_of_ok hstate
    have hs := synced_states mode crc32 (blockPlan bs dataBits.length) errors dataBits k
    obtain rfl : r = _ := (eq_sender_iff hs r).mp hr
    exact holdsTurn_states hbs hfew k
  rejected k := (answer_spec hbs hfew (holdsTurn_states hbs hfew k)).1
  leaves u n r x hrun hx hleft := by
    obtain ⟨k, hk, hstate, hlog, hcount⟩ := exists_last hrun hx hleft
    obtain rfl := eq_states_of_ok hstate
    refine ⟨dataBits_of_left hbs hfew hk hcount r, k, hk, hlog, ?_⟩
    have h := @rounds_eq_count_add_resent mode crc32 errors dataBits
      (blockPlan bs dataBits.length) k
    rw [hcount] at h
    exact h
  stops u n r f hrun hf := by
    obtain ⟨k, hk, hstate, -, hcount⟩ := exists_last hrun hf rfl
    have hlast := loopStates_last hk hcount r
    rw [← hstate] at hlast
    split at hlast
    · next hr =>
        rw [dataBits_of_left hbs hfew hk hcount r] at hlast
        refine ⟨hr.1, ?_⟩
        cases hd : decompress mode dec dataBits with
        | ok d =>
            rw [hd] at hlast
            cases hlast
        | error f' =>
            rw [hd] at hlast
            have hfault : (Except.error f : State) = .error f' := hlast
            exact congrArg Except.error (Except.error.inj hfault).symm
    · cases hlast

/-- The errors of a rank: the calls of `bit_flip` for the values of `rand()`, or whether
    `crc_check` is set to zero. -/
def injected (rand : Nat → Nat → Nat) (zero : Nat → Bool) : Errors where
  flip n dataBits := injectErrors (rand n) dataBits.length dataBits
  zero := zero

/-- Below three million bits, whatever `rand()` returns at the checks: in every run the rank
    whose turn it is holds the bytes that both compressed, and so does every rank that leaves. -/
theorem pingPong_intact (mode : Mode) (limit : Nat) {crc32 : BitVec 32 → BitVec 8 → BitVec 32}
    (hzlib : crc32 = zlibCrc32) {dataBits : List (BitVec 8)} (hpos : 0 < dataBits.length)
    (hbits : dataBits.length * 8 < 3000000) (dec : Decoding) (rand : Fin 2 → Nat → Nat → Nat)
    (zero : Fin 2 → Nat → Bool) :
    let errors := fun r => injected (rand r) (zero r)
    Intact mode limit crc32 (planBitwiseCrcHamming dataBits.length) dec errors dataBits
      (rounds mode limit crc32 (planBitwiseCrcHamming dataBits.length) dec errors dataBits) := by
  subst hzlib
  have hbs : 0 < blockSize dataBits.length := blockSizeOf_pos (by decide) hpos
  refine intact_of_fewErrors hbs (fun r n => ?_) mode limit dec
  refine FewFlips.withinRadius (bitFlips_fewFlips hbs dataBits ?_) (by omega)
  rw [List.length_map, List.length_range]
  omega

/-- Seven bytes, each check under the same random numbers. -/
theorem pingPong_intact_seven :
    let dataBits : List (BitVec 8) := [1, 2, 3, 4, 5, 6, 7]
    let dec : Decoding := ⟨absErrorBound, 2, 0, 0⟩
    let errors := fun _ : Fin 2 => injected (fun _ _ => 41) fun n => n = 1
    0 < dataBits.length ∧ dataBits.length * 8 < 3000000 ∧
      Intact .maskCrc 3 zlibCrc32 (planBitwiseCrcHamming dataBits.length) dec errors dataBits
        (rounds .maskCrc 3 zlibCrc32 (planBitwiseCrcHamming dataBits.length) dec errors dataBits) :=
  ⟨by decide, by decide, pingPong_intact .maskCrc 3 rfl (by decide) (by decide)
    ⟨absErrorBound, 2, 0, 0⟩ (fun _ _ _ => 41) fun _ n => n = 1⟩

end MpiApps.PingPong
