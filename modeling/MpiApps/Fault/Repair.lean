/-
  MpiApps.Fault.Repair

  The CRC and Hamming stage of the fault-tolerant broadcasts at one rank.

  A payload is cut into blocks, each with its own check characters.  A rank whose
  CRC does not match repairs the blocks one after the other and stops at the first
  one with two errors.  The result of the repair is not compared with the CRC again:
  `hamming_acceptance` says exactly which flips go through unnoticed.
-/

import MpiApps.Fault.Hamming
import MpiApps.Lib.Windows

namespace MpiApps.Fault

open MpiApps.Secded MpiApps.Windows
open scoped symmDiff

/-! ## The code -/

/-- `block_size`, where `bytes` is the largest block. -/
def blockSizeOf (bytes dataBytes : Nat) : Nat := if dataBytes > bytes then bytes else dataBytes

/-- `block_size` of abft.c: `1/1e-5` is below `100000` in binary and truncates. -/
def blockSizeAbft (dataBytes : Nat) : Nat := blockSizeOf (99999 / 8) dataBytes

/-- `block_size` of dataCompression.c: `1/BER` is `1000000`. -/
def blockSize (dataBytes : Nat) : Nat := blockSizeOf (1000000 / 8) dataBytes

/-- `bs`, `bs_num` and `bs_last`. -/
structure BlockPlan where
  bs : Nat
  bsNum : Nat
  bsLast : Nat
  deriving DecidableEq, Repr

/-- The blocks of `data_bytes` bytes. -/
def blockPlan (bs dataBytes : Nat) : BlockPlan :=
  let bsNum := dataBytes / bs
  let bsLast := dataBytes % bs
  ⟨bs, if bsLast > 0 then bsNum + 1 else bsNum, bsLast⟩

/-- `bytes` in the loops over the blocks. -/
def BlockPlan.bytes (plan : BlockPlan) (i : Nat) : Nat :=
  if plan.bsLast > 0 ∧ i = plan.bsNum - 1 then plan.bsLast else plan.bs

/-- `&data_bits[i*bs]`, `bytes` long. -/
def BlockPlan.block (plan : BlockPlan) (i : Nat) (dataBits : List (BitVec 8)) : List (BitVec 8) :=
  window (i * plan.bs) (plan.bytes i) dataBits

/-- `do_crc32`: `crc32` of zlib byte by byte, from `crc32(0L, Z_NULL, 0)`, which is zero. -/
def doCrc32 (crc32 : BitVec 32 → BitVec 8 → BitVec 32) (dataBits : List (BitVec 8)) : BitVec 32 :=
  dataBits.foldl crc32 0

/-- `data_bits`, `crc`, `r` and `c`, as the root broadcasts them. -/
structure Payload where
  dataBits : List (BitVec 8)
  crc : BitVec 32
  r : List Nat
  c : List (List Char)
  deriving DecidableEq, Repr

/-- What the root computes before the broadcasts. -/
def protect (crc32 : BitVec 32 → BitVec 8 → BitVec 32) (plan : BlockPlan)
    (dataBits : List (BitVec 8)) : Payload where
  dataBits := dataBits
  crc := doCrc32 crc32 dataBits
  r := (List.range plan.bsNum).map fun i => (hammingEncode (plan.block i dataBits)).2
  c := (List.range plan.bsNum).map fun i => (hammingEncode (plan.block i dataBits)).1

/-- The block that a rank hands to `hamming_decode`. -/
def BlockPlan.received (plan : BlockPlan) (c : List (List Char)) (i : Nat)
    (dataBits : List (BitVec 8)) : Block :=
  ⟨plan.block i dataBits, c.getD i []⟩

/-- The loop over the blocks: `crc_ok` and `data_bits` afterwards.  The check characters
    that `hamming_decode` corrects are not read again. -/
def repairLoop (plan : BlockPlan) (r : List Nat) (c : List (List Char)) :
    List Nat → List (BitVec 8) → Char × List (BitVec 8)
  | [], dataBits => ('y', dataBits)
  | i :: is, dataBits =>
    let out := hammingDecode (plan.received c i dataBits) (r.getD i 0)
    let dataBits := setWindow (i * plan.bs) out.2.bits dataBits
    if out.1 = 1 then ('n', dataBits) else repairLoop plan r c is dataBits

/-- The stage at a rank that is not the root: `crc_ok` and `data_bits` afterwards. -/
def crcHammingStage (crc32 : BitVec 32 → BitVec 8 → BitVec 32) (plan : BlockPlan)
    (received : Payload) : Char × List (BitVec 8) :=
  let crcCheck := doCrc32 crc32 received.dataBits
  if received.crc = crcCheck then ('y', received.dataBits)
  else repairLoop plan received.r received.c (List.range plan.bsNum) received.dataBits

/-! ## The blocks -/

theorem blockSizeOf_pos {bytes dataBytes : Nat} (hb : 0 < bytes) (hd : 0 < dataBytes) :
    0 < blockSizeOf bytes dataBytes := by
  unfold blockSizeOf
  split <;> assumption

/-- The blocks cover the payload and do not overlap. -/
def blockTiling {bs : Nat} (hbs : 0 < bs) (n : Nat) : Tiling n where
  count := (blockPlan bs n).bsNum
  start i := i * bs
  len i := (blockPlan bs n).bytes i
  inside := by
    intro i hi
    have hdiv := Nat.div_add_mod n bs
    simp only [blockPlan, BlockPlan.bytes] at hi ⊢
    by_cases hlast : n % bs > 0
    · rw [if_pos hlast] at hi
      by_cases heq : i = n / bs
      · subst heq
        simp only [hlast, if_true, Nat.add_sub_cancel, and_self]
        rw [Nat.mul_comm]
        omega
      · have hmul : (i + 1) * bs ≤ n / bs * bs := Nat.mul_le_mul_right bs (by omega)
        rw [Nat.mul_comm (n / bs), Nat.succ_mul] at hmul
        simp only [hlast, if_true, Nat.add_sub_cancel, heq, and_false, if_false]
        omega
    · rw [if_neg hlast] at hi
      have hmul : (i + 1) * bs ≤ n / bs * bs := Nat.mul_le_mul_right bs (by omega)
      rw [Nat.mul_comm (n / bs), Nat.succ_mul] at hmul
      simp only [hlast, false_and, if_false]
      omega
  ordered := by
    intro i j hij hj
    have hmul : (i + 1) * bs ≤ j * bs := Nat.mul_le_mul_right bs hij
    rw [Nat.succ_mul] at hmul
    -- only the last block is shorter, and `i` is not the last one
    have hlen : (blockPlan bs n).bytes i = bs := by
      rw [BlockPlan.bytes, if_neg (by omega)]
      rfl
    rw [hlen]
    exact hmul
  covers := by
    intro k hk
    have hdiv := Nat.div_add_mod n bs
    have hkdiv := Nat.div_add_mod k bs
    have hkmod := Nat.mod_lt k hbs
    have hle : k / bs ≤ n / bs := Nat.div_le_div_right (Nat.le_of_lt hk)
    refine ⟨k / bs, ?_, ?_, ?_⟩
    · simp only [blockPlan]
      split
      · omega
      · next hlast =>
          by_contra hge
          have heq : k / bs = n / bs := by omega
          rw [heq] at hkdiv
          omega
    · rw [Nat.mul_comm]
      omega
    · rw [Nat.mul_comm]
      simp only [BlockPlan.bytes, blockPlan]
      by_cases hlast : n % bs > 0
      · simp only [hlast, if_true, true_and, Nat.add_sub_cancel]
        by_cases heq : k / bs = n / bs
        · rw [if_pos heq]
          rw [heq] at hkdiv ⊢
          omega
        · rw [if_neg heq]
          omega
      · simp only [hlast, false_and, if_false]
        omega

/-- One turn of the loop writes block `i` and leaves the other blocks. -/
theorem block_setWindow {bs n : Nat} (hbs : 0 < bs) {dataBits bits : List (BitVec 8)}
    (hlen : dataBits.length = n) {i : Nat} (hi : i < (blockPlan bs n).bsNum)
    (hbits : bits.length = (blockPlan bs n).bytes i) :
    (setWindow (i * bs) bits dataBits).length = n ∧
    ∀ j < (blockPlan bs n).bsNum, (blockPlan bs n).block j (setWindow (i * bs) bits dataBits) =
      if j = i then bits else (blockPlan bs n).block j dataBits := by
  have hin := (blockTiling hbs n).inside i hi
  constructor
  · rw [setWindow_length, hlen]
    rw [hbits, hlen]
    exact hin
  · exact fun j hj => (blockTiling hbs n).tile_setWindow hlen hi hj hbits

/-- The loop repairs every block it was given, or stops at one with two errors. -/
theorem repairLoop_spec {bs n : Nat} (hbs : 0 < bs) (r : List Nat) (c : List (List Char))
    (is : List Nat) {dataBits : List (BitVec 8)} (hnodup : is.Nodup)
    (hlt : ∀ i ∈ is, i < (blockPlan bs n).bsNum) (hlen : dataBits.length = n)
    (hdec : ∀ i ∈ is, (hammingDecode ((blockPlan bs n).received c i dataBits)
      (r.getD i 0)).2.bits.length = (blockPlan bs n).bytes i) :
    (repairLoop (blockPlan bs n) r c is dataBits).2.length = n ∧
    ((∃ i ∈ is, (hammingDecode ((blockPlan bs n).received c i dataBits) (r.getD i 0)).1 = 1) →
      (repairLoop (blockPlan bs n) r c is dataBits).1 = 'n') ∧
    ((∀ i ∈ is, (hammingDecode ((blockPlan bs n).received c i dataBits) (r.getD i 0)).1 ≠ 1) →
      (repairLoop (blockPlan bs n) r c is dataBits).1 = 'y' ∧
      ∀ j < (blockPlan bs n).bsNum,
        (blockPlan bs n).block j (repairLoop (blockPlan bs n) r c is dataBits).2 =
          if j ∈ is then
            (hammingDecode ((blockPlan bs n).received c j dataBits) (r.getD j 0)).2.bits
          else (blockPlan bs n).block j dataBits) := by
  induction is generalizing dataBits with
  | nil =>
      refine ⟨hlen, ?_, ?_⟩
      · rintro ⟨i, hi, _⟩
        cases hi
      · intro _
        refine ⟨rfl, fun j _ => ?_⟩
        rw [if_neg List.not_mem_nil]
        rfl
  | cons i is ih =>
      obtain ⟨hni, hnodup'⟩ := List.nodup_cons.mp hnodup
      have hi := hlt i List.mem_cons_self
      have hdi := hdec i List.mem_cons_self
      -- the other blocks do not see the repair of block `i`
      obtain ⟨hlen', hother⟩ := block_setWindow hbs hlen hi hdi
      have hsame : ∀ j ∈ is, (blockPlan bs n).received c j (setWindow (i * bs)
            (hammingDecode ((blockPlan bs n).received c i dataBits) (r.getD i 0)).2.bits
              dataBits) = (blockPlan bs n).received c j dataBits := by
        intro j hj
        have hne : j ≠ i := fun h => hni (h ▸ hj)
        rw [BlockPlan.received, hother j (hlt j (List.mem_cons_of_mem _ hj)), if_neg hne]
        rfl
      obtain ⟨hl, hn, hy⟩ := ih hnodup' (fun j hj => hlt j (List.mem_cons_of_mem _ hj)) hlen'
        (fun j hj => by rw [hsame j hj]; exact hdec j (List.mem_cons_of_mem _ hj))
      rw [repairLoop]
      by_cases h1 : (hammingDecode ((blockPlan bs n).received c i dataBits) (r.getD i 0)).1 = 1
      · simp only [h1, if_true]
        exact ⟨hlen', fun _ => trivial, fun hall => absurd h1 (hall i List.mem_cons_self)⟩
      · simp only [h1, if_false]
        refine ⟨hl, ?_, ?_⟩
        · rintro ⟨j, hj, hj1⟩
          rcases List.mem_cons.mp hj with rfl | hj
          · exact absurd hj1 h1
          · exact hn ⟨j, hj, by rw [hsame j hj]; exact hj1⟩
        · intro hall
          obtain ⟨hok, hblocks⟩ := hy fun j hj => by
            rw [hsame j hj]
            exact hall j (List.mem_cons_of_mem _ hj)
          refine ⟨hok, fun j hj => ?_⟩
          have hbj := hblocks j hj
          by_cases hji : j = i
          · subst hji
            rw [if_neg hni, hother j hj, if_pos rfl] at hbj
            rw [if_pos List.mem_cons_self]
            exact hbj
          · by_cases hmem : j ∈ is
            · rw [if_pos hmem, hsame j hmem] at hbj
              rw [if_pos (List.mem_cons_of_mem _ hmem)]
              exact hbj
            · rw [if_neg hmem, hother j hj, if_neg hji] at hbj
              rw [if_neg (by simp [hji, hmem])]
              exact hbj

/-! ## Flips -/

/-- The positions of the bits in which two blocks differ. -/
def Block.flips (b b' : Block) (r : Nat) : Finset Nat :=
  (Finset.range (r + b.bits.length * 8 + 1)).filter fun p => b.read (spot r p) ≠ b'.read (spot r p)

theorem Block.flips_eq {b b' : Block} {r : Nat} (hlen : b'.bits.length = b.bits.length) :
    b'.support r = b.support r ∆ b.flips b' r := by
  ext p
  rw [Finset.mem_symmDiff, mem_support, mem_support, hlen, flips, Finset.mem_filter,
    Finset.mem_range, Nat.lt_succ_iff]
  by_cases hp : p ≤ r + b.bits.length * 8
  · cases b.read (spot r p) <;> cases b'.read (spot r p) <;> simp [hp]
  · simp [hp]

theorem Block.flips_self (b : Block) (r : Nat) : b.flips b r = ∅ := by
  simp [flips]

/-- The decoder corrects the support of a block. -/
theorem hammingDecode_spec {b : Block} {r : Nat} (h : b.WellFormed r) :
    ((hammingDecode b r).1 = 1 ↔ verdict (b.support r) = .double) ∧
    (hammingDecode b r).2.WellFormed r ∧
    (hammingDecode b r).2.bits.length = b.bits.length ∧
    (hammingDecode b r).2.support r = correct (r + b.bits.length * 8) (b.support r) := by
  rw [hammingDecode_eq h, correct]
  cases hv : verdict (b.support r) with
  | clean => exact ⟨by simp, h, rfl, rfl⟩
  | double => exact ⟨by simp, h, rfl, rfl⟩
  | parity =>
      have hsup : (b.flip (.check r)).support r = b.support r ∆ {0} :=
        Block.support_flip (p := 0) h (Nat.zero_le _)
      exact ⟨by simp, h.flip (.check r), Block.flip_length_bits b (.check r), hsup⟩
  | single p =>
      by_cases hp : p ≤ r + b.bits.length * 8
      · simp only [if_pos hp]
        exact ⟨by simp, h.flip _, Block.flip_length_bits _ _, Block.support_flip h hp⟩
      · simp only [if_neg hp]
        exact ⟨by simp, h, trivial, trivial⟩

section Received

variable {bits : List (BitVec 8)} {b : Block}

/-- A block that arrives with flips: as many bytes and characters as were sent. -/
structure Block.Arrives (bits : List (BitVec 8)) (b : Block) : Prop where
  wellFormed : b.WellFormed (hmLength (bits.length * 8))
  length_bits : b.bits.length = bits.length

/-- The flips of a block that arrives. -/
def arrivalFlips (bits : List (BitVec 8)) (b : Block) : Finset Nat :=
  (encodeBlock bits).flips b (hmLength (bits.length * 8))

theorem Block.Arrives.verdict_eq (h : b.Arrives bits) :
    verdict (b.support (hmLength (bits.length * 8))) = verdict (arrivalFlips bits b) := by
  rw [Block.flips_eq (b := encodeBlock bits) h.length_bits,
    verdict_symmDiff (encodeBlock_codeword bits)]
  rfl

theorem Block.Arrives.le_of_mem (_ : b.Arrives bits) {p : Nat} (hp : p ∈ arrivalFlips bits b) :
    p ≤ hmLength (bits.length * 8) + bits.length * 8 :=
  Nat.lt_succ_iff.mp (Finset.mem_range.mp (Finset.mem_filter.mp hp).1)

theorem arrivalFlips_eq (hlen : b.bits.length = bits.length) :
    arrivalFlips bits b = (encodeBlock bits).support (hmLength (bits.length * 8)) ∆
      b.support (hmLength (bits.length * 8)) := by
  rw [Block.flips_eq (b := encodeBlock bits) hlen, symmDiff_symmDiff_cancel_left]
  rfl

/-- A block with one place flipped arrives with that flip. -/
theorem card_arrivalFlips_flip (bits : List (BitVec 8)) {s : Spot}
    (hs : s.Valid bits.length (hmLength (bits.length * 8))) :
    (arrivalFlips bits ((encodeBlock bits).flip s)).card = 1 := by
  obtain ⟨p, hp, rfl⟩ := exists_spot hs
  rw [arrivalFlips_eq (show ((encodeBlock bits).flip (spot _ p)).bits.length = bits.length by simp),
    Block.support_flip (encodeBlock_wellFormed bits) hp, symmDiff_symmDiff_cancel_left,
    Finset.card_singleton]

/-- A block with two places flipped arrives with those flips. -/
theorem card_arrivalFlips_flip_flip (bits : List (BitVec 8)) {s t : Spot}
    (hs : s.Valid bits.length (hmLength (bits.length * 8)))
    (ht : t.Valid bits.length (hmLength (bits.length * 8))) :
    (arrivalFlips bits (((encodeBlock bits).flip s).flip t)).card ≤ 2 := by
  have hwf := encodeBlock_wellFormed bits
  obtain ⟨p, hp, rfl⟩ := exists_spot hs
  obtain ⟨q, hq, rfl⟩ := exists_spot ht
  rw [arrivalFlips_eq (show (((encodeBlock bits).flip (spot _ p)).flip (spot _ q)).bits.length =
      bits.length by simp),
    Block.support_flip (hwf.flip _) (by simpa using hq), Block.support_flip hwf hp,
    symmDiff_assoc, symmDiff_symmDiff_cancel_left]
  exact (Finset.card_le_card symmDiff_le_sup).trans (Finset.card_union_le _ _)

/-- Two errors are reported exactly for an even number of flips that do not cancel. -/
theorem Block.Arrives.rejects_iff (h : b.Arrives bits) :
    (hammingDecode b (hmLength (bits.length * 8))).1 = 1 ↔
      (arrivalFlips bits b).card % 2 = 0 ∧ xorSum (arrivalFlips bits b) ≠ 0 := by
  rw [(hammingDecode_spec h.wellFormed).1, h.verdict_eq, verdict_eq_double_iff, oddParity,
    decide_eq_false_iff_not]
  constructor
  · rintro ⟨hodd, hx⟩
    exact ⟨by omega, hx⟩
  · rintro ⟨heven, hx⟩
    exact ⟨by omega, hx⟩

/-- Up to two flips: two are reported, fewer are repaired. -/
theorem Block.Arrives.repaired (h : b.Arrives bits) (hcard : (arrivalFlips bits b).card ≤ 2) :
    ((hammingDecode b (hmLength (bits.length * 8))).1 = 1 ↔ (arrivalFlips bits b).card = 2) ∧
    ((arrivalFlips bits b).card < 2 →
      (hammingDecode b (hmLength (bits.length * 8))).2 = encodeBlock bits) := by
  obtain ⟨htype, hwf, hlen, hsup⟩ := hammingDecode_spec h.wellFormed
  have hflips := Block.flips_eq (r := hmLength (bits.length * 8)) (b := encodeBlock bits)
    h.length_bits
  rw [h.length_bits, hflips] at hsup
  rw [htype, hflips]
  rcases correct_of_card_le_two (encodeBlock_codeword bits) hcard fun p hp => h.le_of_mem hp with
    ⟨hv, h2⟩ | ⟨hv, hc, hlt⟩
  · exact ⟨⟨fun _ => h2, fun _ => hv⟩, fun hlt => by omega⟩
  · refine ⟨⟨fun h1 => absurd h1 hv, fun h2 => by omega⟩, fun _ => ?_⟩
    apply Block.support_injective hwf (encodeBlock_wellFormed bits) (hlen.trans h.length_bits)
    rw [hsup]
    exact hc

/-- Two or more flips of data bits are never repaired. -/
theorem Block.Arrives.not_repaired (h : b.Arrives bits) (hc : b.c = (encodeBlock bits).c)
    (hcard : 2 ≤ (arrivalFlips bits b).card) :
    (hammingDecode b (hmLength (bits.length * 8))).2.bits ≠ bits := by
  intro hbits
  obtain ⟨_, hwf, hlen, hsup⟩ := hammingDecode_spec h.wellFormed
  have hflips := Block.flips_eq (r := hmLength (bits.length * 8)) (b := encodeBlock bits)
    h.length_bits
  -- the repair toggles one position at most, so some flip is still there
  obtain ⟨p, hp, hmem⟩ : ∃ p ∈ arrivalFlips bits b,
      (p ∈ (hammingDecode b (hmLength (bits.length * 8))).2.support
          (hmLength (bits.length * 8)) ↔ p ∈ b.support (hmLength (bits.length * 8))) := by
    rw [hsup]
    rcases correct_eq (hmLength (bits.length * 8) + b.bits.length * 8)
      (b.support (hmLength (bits.length * 8))) with heq | ⟨q, _, heq, _⟩
    · obtain ⟨p, hp⟩ := Finset.card_pos.mp (show 0 < (arrivalFlips bits b).card by omega)
      exact ⟨p, hp, by rw [heq]⟩
    · obtain ⟨p, hp, hne⟩ := Finset.exists_mem_ne (show 1 < (arrivalFlips bits b).card by omega) q
      exact ⟨p, hp, by rw [heq, Finset.mem_symmDiff]; simp [hne]⟩
  -- it is a data bit, since the check characters were intact
  have hdiff : (encodeBlock bits).read (spot (hmLength (bits.length * 8)) p) ≠
      b.read (spot (hmLength (bits.length * 8)) p) := (Finset.mem_filter.mp hp).2
  have hple := h.le_of_mem hp
  rw [Block.mem_support, Block.mem_support, hlen, h.length_bits] at hmem
  cases hs : spot (hmLength (bits.length * 8)) p with
  | check i =>
      rw [hs, Block.read, Block.read, hc] at hdiff
      exact hdiff rfl
  | data d =>
      rw [hs] at hdiff hmem
      apply hdiff
      have hread : (hammingDecode b (hmLength (bits.length * 8))).2.read (.data d) =
          (encodeBlock bits).read (.data d) := by
        rw [Block.read, Block.read, hbits]
        rfl
      rw [← hread]
      exact Bool.eq_iff_iff.mpr ⟨fun h1 => (hmem.mp ⟨hple, h1⟩).2,
        fun h1 => (hmem.mpr ⟨hple, h1⟩).2⟩

end Received

/-! ## The stage -/

section Stage

variable {crc32 : BitVec 32 → BitVec 8 → BitVec 32} {bs : Nat} {sent : List (BitVec 8)}
  {received : Payload}

/-- What arrives when payload bits and check characters may be flipped, `crc` and `r` not. -/
structure Payload.Arrives (crc32 : BitVec 32 → BitVec 8 → BitVec 32) (plan : BlockPlan)
    (sent : List (BitVec 8)) (received : Payload) : Prop where
  crc_eq : received.crc = (protect crc32 plan sent).crc
  r_eq : received.r = (protect crc32 plan sent).r
  length_dataBits : received.dataBits.length = sent.length
  length_c : ∀ i < plan.bsNum, (received.c.getD i []).length =
    ((protect crc32 plan sent).c.getD i []).length
  digits : ∀ i < plan.bsNum, ∀ ch ∈ received.c.getD i [], ch = '0' ∨ ch = '1'

/-- The flips in block `i`. -/
def flipsAt (plan : BlockPlan) (sent : List (BitVec 8)) (received : Payload) (i : Nat) :
    Finset Nat :=
  arrivalFlips (plan.block i sent) (plan.received received.c i received.dataBits)

theorem protect_r_getD {plan : BlockPlan} {i : Nat} (hi : i < plan.bsNum) :
    (protect crc32 plan sent).r.getD i 0 = hmLength ((plan.block i sent).length * 8) := by
  simp [protect, List.getD_eq_getElem?_getD, hi]

theorem protect_c_getD (crc32 : BitVec 32 → BitVec 8 → BitVec 32) {plan : BlockPlan} {i : Nat}
    (hi : i < plan.bsNum) :
    (protect crc32 plan sent).c.getD i [] = (encodeBlock (plan.block i sent)).c := by
  simp [protect, List.getD_eq_getElem?_getD, hi, encodeBlock]

theorem Payload.Arrives.block (hbs : 0 < bs)
    (h : received.Arrives crc32 (blockPlan bs sent.length) sent) {i : Nat}
    (hi : i < (blockPlan bs sent.length).bsNum) :
    ((blockPlan bs sent.length).received received.c i received.dataBits).Arrives
      ((blockPlan bs sent.length).block i sent) := by
  have hlen : ((blockPlan bs sent.length).block i received.dataBits).length =
      ((blockPlan bs sent.length).block i sent).length :=
    ((blockTiling hbs sent.length).tile_length h.length_dataBits hi).trans
      ((blockTiling hbs sent.length).tile_length rfl hi).symm
  refine ⟨⟨?_, h.digits i hi, ?_⟩, hlen⟩
  · show (received.c.getD i []).length = _
    rw [h.length_c i hi, protect_c_getD crc32 hi]
    exact hammingEncode_length _
  · show hmLength _ = hmLength (((blockPlan bs sent.length).block i received.dataBits).length * 8)
    rw [hlen]

/-- An intact payload passes; any other one, where the CRC sees it, is repaired block by
    block or given up at a block with two errors. -/
theorem crcHammingStage_spec (hbs : 0 < bs)
    (h : received.Arrives crc32 (blockPlan bs sent.length) sent)
    (hcrc : doCrc32 crc32 received.dataBits = doCrc32 crc32 sent → received.dataBits = sent) :
    (crcHammingStage crc32 (blockPlan bs sent.length) received).2.length = sent.length ∧
    (received.dataBits = sent →
      crcHammingStage crc32 (blockPlan bs sent.length) received = ('y', sent)) ∧
    (received.dataBits ≠ sent →
      ((∃ i < (blockPlan bs sent.length).bsNum,
          (flipsAt (blockPlan bs sent.length) sent received i).card % 2 = 0 ∧
          xorSum (flipsAt (blockPlan bs sent.length) sent received i) ≠ 0) →
        (crcHammingStage crc32 (blockPlan bs sent.length) received).1 = 'n') ∧
      ((∀ i < (blockPlan bs sent.length).bsNum,
          ¬ ((flipsAt (blockPlan bs sent.length) sent received i).card % 2 = 0 ∧
            xorSum (flipsAt (blockPlan bs sent.length) sent received i) ≠ 0)) →
        (crcHammingStage crc32 (blockPlan bs sent.length) received).1 = 'y' ∧
        ∀ i < (blockPlan bs sent.length).bsNum,
          (blockPlan bs sent.length).block i
            (crcHammingStage crc32 (blockPlan bs sent.length) received).2 =
            (hammingDecode ((blockPlan bs sent.length).received received.c i received.dataBits)
              (hmLength (((blockPlan bs sent.length).block i sent).length * 8))).2.bits)) := by
  have hcrc' : received.crc = doCrc32 crc32 received.dataBits ↔ received.dataBits = sent := by
    rw [h.crc_eq]
    exact ⟨fun he => hcrc he.symm, fun he => by rw [he]; rfl⟩
  -- the check lengths arrive as they were computed
  have hr : ∀ i < (blockPlan bs sent.length).bsNum, received.r.getD i 0 =
      hmLength (((blockPlan bs sent.length).block i sent).length * 8) := fun i hi => by
    rw [h.r_eq]
    exact protect_r_getD hi
  by_cases heq : received.dataBits = sent
  · have hstage : crcHammingStage crc32 (blockPlan bs sent.length) received =
        ('y', received.dataBits) := if_pos (hcrc'.mpr heq)
    rw [hstage]
    exact ⟨h.length_dataBits, fun _ => by rw [heq], fun hne => absurd heq hne⟩
  · have hstage : crcHammingStage crc32 (blockPlan bs sent.length) received =
        repairLoop (blockPlan bs sent.length) received.r received.c
          (List.range (blockPlan bs sent.length).bsNum) received.dataBits :=
      if_neg fun he => heq (hcrc'.mp he)
    -- the CRC differs, so all blocks are gone through
    have hspec := repairLoop_spec hbs received.r received.c
      (List.range (blockPlan bs sent.length).bsNum) List.nodup_range
      (fun i hi => List.mem_range.mp hi) h.length_dataBits fun i hi => by
        have hi' := List.mem_range.mp hi
        rw [hr i hi', (hammingDecode_spec (h.block hbs hi').wellFormed).2.2.1]
        exact (blockTiling hbs sent.length).tile_length h.length_dataBits hi'
    rw [hstage]
    obtain ⟨hlen, hn, hy⟩ := hspec
    refine ⟨hlen, fun he => absurd he heq, fun _ => ⟨?_, ?_⟩⟩
    · -- an even number of flips that do not cancel is two errors to the decoder
      rintro ⟨i, hi, hflips⟩
      refine hn ⟨i, List.mem_range.mpr hi, ?_⟩
      rw [hr i hi]
      exact (h.block hbs hi).rejects_iff.mpr hflips
    · intro hall
      obtain ⟨hok, hblocks⟩ := hy fun i hi => by
        have hi' := List.mem_range.mp hi
        rw [hr i hi']
        exact fun h1 => hall i hi' ((h.block hbs hi').rejects_iff.mp h1)
      refine ⟨hok, fun i hi => ?_⟩
      rw [hblocks i hi, if_pos (List.mem_range.mpr hi), hr i hi]

/-- With at most one flip in each block the payload comes out as it was sent. -/
theorem crcHammingStage_of_card_le_one (hbs : 0 < bs)
    (h : received.Arrives crc32 (blockPlan bs sent.length) sent)
    (hcrc : doCrc32 crc32 received.dataBits = doCrc32 crc32 sent → received.dataBits = sent)
    (hcard : ∀ i < (blockPlan bs sent.length).bsNum,
      (flipsAt (blockPlan bs sent.length) sent received i).card ≤ 1) :
    crcHammingStage crc32 (blockPlan bs sent.length) received = ('y', sent) := by
  obtain ⟨hlen, hintact, hrest⟩ := crcHammingStage_spec hbs h hcrc
  by_cases heq : received.dataBits = sent
  · exact hintact heq
  · -- one flip is no even number of them, and none cancels
    have hrejects : ∀ i < (blockPlan bs sent.length).bsNum,
        ¬ ((flipsAt (blockPlan bs sent.length) sent received i).card % 2 = 0 ∧
          xorSum (flipsAt (blockPlan bs sent.length) sent received i) ≠ 0) := by
      rintro i hi ⟨heven, hx⟩
      have h0 : (flipsAt (blockPlan bs sent.length) sent received i).card = 0 := by
        have := hcard i hi
        omega
      rw [Finset.card_eq_zero.mp h0] at hx
      exact hx rfl
    obtain ⟨hok, hblocks⟩ := (hrest heq).2 hrejects
    refine Prod.ext hok ((blockTiling hbs sent.length).ext hlen rfl fun i hi => ?_)
    have hrep := ((h.block hbs hi).repaired ((hcard i hi).trans (by decide))).2
      (Nat.lt_succ_of_le (hcard i hi))
    refine (hblocks i hi).trans ?_
    rw [hrep]
    rfl

/-- Which flips of payload bits the stage is safe against: at most one in each block, or
    some block with an even number whose positions do not cancel. -/
def Detected (plan : BlockPlan) (sent : List (BitVec 8)) (received : Payload) : Prop :=
  (∀ i < plan.bsNum, (flipsAt plan sent received i).card ≤ 1) ∨
    ∃ i < plan.bsNum, (flipsAt plan sent received i).card % 2 = 0 ∧
      xorSum (flipsAt plan sent received i) ≠ 0

/-- The payload that arrives when only payload bits are flipped. -/
def withFlips (crc32 : BitVec 32 → BitVec 8 → BitVec 32) (plan : BlockPlan)
    (sent arrived : List (BitVec 8)) : Payload :=
  { protect crc32 plan sent with dataBits := arrived }

theorem withFlips_arrives {arrived : List (BitVec 8)} (plan : BlockPlan)
    (hlen : arrived.length = sent.length) :
    (withFlips crc32 plan sent arrived).Arrives crc32 plan sent where
  crc_eq := rfl
  r_eq := rfl
  length_dataBits := hlen
  length_c _ _ := rfl
  digits i hi := by
    show ∀ ch ∈ (protect crc32 plan sent).c.getD i [], ch = '0' ∨ ch = '1'
    rw [protect_c_getD crc32 hi]
    exact (encodeBlock_wellFormed _).digits

/-- An accepted payload is the one that was sent exactly if the flips are detected. -/
theorem accepts_iff_detected (hbs : 0 < bs) {arrived : List (BitVec 8)}
    (hlen : arrived.length = sent.length)
    (hcrc : doCrc32 crc32 arrived = doCrc32 crc32 sent → arrived = sent) :
    ((crcHammingStage crc32 (blockPlan bs sent.length)
        (withFlips crc32 (blockPlan bs sent.length) sent arrived)).1 = 'y' →
      (crcHammingStage crc32 (blockPlan bs sent.length)
        (withFlips crc32 (blockPlan bs sent.length) sent arrived)).2 = sent) ↔
    Detected (blockPlan bs sent.length) sent
      (withFlips crc32 (blockPlan bs sent.length) sent arrived) := by
  have h : (withFlips crc32 (blockPlan bs sent.length) sent arrived).Arrives crc32
      (blockPlan bs sent.length) sent := withFlips_arrives _ hlen
  obtain ⟨_, hintact, hrest⟩ := crcHammingStage_spec hbs h hcrc
  constructor
  · intro haccept
    by_contra hdet
    obtain ⟨hmany, hnone⟩ := not_or.mp hdet
    push Not at hmany hnone
    obtain ⟨i, hi, hcard⟩ := hmany
    have harr := h.block hbs hi
    have hc : ((blockPlan bs sent.length).received
        (withFlips crc32 (blockPlan bs sent.length) sent arrived).c i arrived).c =
        (encodeBlock ((blockPlan bs sent.length).block i sent)).c :=
      protect_c_getD crc32 hi
    -- a block with flips is not the block that was sent
    have hne : (withFlips crc32 (blockPlan bs sent.length) sent arrived).dataBits ≠ sent := by
      intro heq
      have hblock : (blockPlan bs sent.length).received
          (withFlips crc32 (blockPlan bs sent.length) sent arrived).c i arrived =
          encodeBlock ((blockPlan bs sent.length).block i sent) := by
        rw [show arrived = sent from heq] at hc ⊢
        exact congrArg (Block.mk _) hc
      have hempty : flipsAt (blockPlan bs sent.length) sent
          (withFlips crc32 (blockPlan bs sent.length) sent arrived) i = ∅ := by
        rw [flipsAt, arrivalFlips, show (withFlips crc32 (blockPlan bs sent.length) sent
          arrived).dataBits = arrived from rfl, hblock, Block.flips_self]
      rw [hempty] at hcard
      exact absurd hcard (by decide)
    obtain ⟨hok, hblocks⟩ := (hrest hne).2 fun j hj hj2 => hj2.2 (hnone j hj hj2.1)
    refine harr.not_repaired hc hcard ((hblocks i hi).symm.trans ?_)
    rw [haccept hok]
  · rintro (hone | hsome) hok
    · rw [crcHammingStage_of_card_le_one hbs h hcrc hone]
    · by_cases heq : (withFlips crc32 (blockPlan bs sent.length) sent arrived).dataBits = sent
      · rw [hintact heq]
      · rw [(hrest heq).1 hsome] at hok
        exact absurd hok (by decide)

end Stage

/-- The blocks of `MPI_Bcast_bitwise_crc_hamming`. -/
def planBitwiseCrcHamming (dataBytes : Nat) : BlockPlan := blockPlan (blockSize dataBytes) dataBytes

/-- The blocks of `MPI_Bcast_abft`. -/
def planAbft (dataBytes : Nat) : BlockPlan := blockPlan (blockSizeAbft dataBytes) dataBytes

/-- In both broadcasts a rank that leaves the stage with `'y'` has the payload of the root,
    exactly if the flips are detected. -/
theorem hamming_acceptance {crc32 : BitVec 32 → BitVec 8 → BitVec 32}
    {sent arrived : List (BitVec 8)} (hsent : sent ≠ []) (hlen : arrived.length = sent.length)
    (hcrc : arrived ≠ sent → doCrc32 crc32 arrived ≠ doCrc32 crc32 sent) :
    (((crcHammingStage crc32 (planBitwiseCrcHamming sent.length)
        (withFlips crc32 (planBitwiseCrcHamming sent.length) sent arrived)).1 = 'y' →
      (crcHammingStage crc32 (planBitwiseCrcHamming sent.length)
        (withFlips crc32 (planBitwiseCrcHamming sent.length) sent arrived)).2 = sent) ↔
      Detected (planBitwiseCrcHamming sent.length) sent
        (withFlips crc32 (planBitwiseCrcHamming sent.length) sent arrived)) ∧
    (((crcHammingStage crc32 (planAbft sent.length)
        (withFlips crc32 (planAbft sent.length) sent arrived)).1 = 'y' →
      (crcHammingStage crc32 (planAbft sent.length)
        (withFlips crc32 (planAbft sent.length) sent arrived)).2 = sent) ↔
      Detected (planAbft sent.length) sent
        (withFlips crc32 (planAbft sent.length) sent arrived)) := by
  have hpos : 0 < sent.length := List.length_pos_of_ne_nil hsent
  have hcrc' : doCrc32 crc32 arrived = doCrc32 crc32 sent → arrived = sent := fun he => by
    by_contra hne
    exact hcrc hne he
  exact ⟨accepts_iff_detected (blockSizeOf_pos (by decide) hpos) hlen hcrc',
    accepts_iff_detected (blockSizeOf_pos (by decide) hpos) hlen hcrc'⟩

/-- One round of the CRC with polynomial `edb88320`, the least significant bit first. -/
def zlibRound (crc : BitVec 32) : BitVec 32 :=
  if crc.getLsbD 0 then (crc >>> 1) ^^^ 0xedb88320 else crc >>> 1

/-- `crc32` of zlib on one byte. -/
def zlibCrc32 (crc : BitVec 32) (byte : BitVec 8) : BitVec 32 :=
  ~~~ (Nat.repeat zlibRound 8 (~~~ crc ^^^ byte.setWidth 32))

example :
    doCrc32 zlibCrc32 [0x31, 0x32, 0x33, 0x34, 0x35, 0x36, 0x37, 0x38, 0x39] = 0xcbf43926 := by
  decide +kernel

/-- The bytes of the double `1.0`. -/
def oneBytes : List (BitVec 8) := [0, 0, 0, 0, 0, 0, 0xf0, 0x3f]

theorem hamming_acceptance_one_flip :
    ((crcHammingStage zlibCrc32 (planAbft 8)
        (withFlips zlibCrc32 (planAbft 8) oneBytes [0, 0, 0, 0, 0, 0, 0xf0, 0x7f])).1 = 'y' →
      (crcHammingStage zlibCrc32 (planAbft 8)
        (withFlips zlibCrc32 (planAbft 8) oneBytes [0, 0, 0, 0, 0, 0, 0xf0, 0x7f])).2 =
        oneBytes) ↔
    Detected (planAbft 8) oneBytes
      (withFlips zlibCrc32 (planAbft 8) oneBytes [0, 0, 0, 0, 0, 0, 0xf0, 0x7f]) :=
  (@hamming_acceptance zlibCrc32 oneBytes [0, 0, 0, 0, 0, 0, 0xf0, 0x7f] (by decide) (by decide)
    (fun _ => by decide +kernel)).2

/-- Three flips in the first byte look like one flip somewhere else.  The repair adds a
    fourth one, the rank reports `'y'`, and nothing compares the result with the CRC. -/
theorem hamming_accepts_three_flips :
    doCrc32 zlibCrc32 [0xe0, 0, 0, 0, 0, 0, 0xf0, 0x3f] ≠ doCrc32 zlibCrc32 oneBytes ∧
    (crcHammingStage zlibCrc32 (planBitwiseCrcHamming 8)
      (withFlips zlibCrc32 (planBitwiseCrcHamming 8) oneBytes
        [0xe0, 0, 0, 0, 0, 0, 0xf0, 0x3f])).1 = 'y' ∧
    (crcHammingStage zlibCrc32 (planBitwiseCrcHamming 8)
      (withFlips zlibCrc32 (planBitwiseCrcHamming 8) oneBytes
        [0xe0, 0, 0, 0, 0, 0, 0xf0, 0x3f])).2 ≠ oneBytes ∧
    (crcHammingStage zlibCrc32 (planAbft 8)
      (withFlips zlibCrc32 (planAbft 8) oneBytes [0xe0, 0, 0, 0, 0, 0, 0xf0, 0x3f])).1 = 'y' ∧
    (crcHammingStage zlibCrc32 (planAbft 8)
      (withFlips zlibCrc32 (planAbft 8) oneBytes [0xe0, 0, 0, 0, 0, 0, 0xf0, 0x3f])).2 ≠
      oneBytes := by
  refine ⟨by decide +kernel, by decide +kernel, by decide +kernel, by decide +kernel,
    by decide +kernel⟩

end MpiApps.Fault
