/-
  MpiApps.Fault.Detection

  What the CRC and the check characters see when a few bits are flipped.

  `do_crc32` sees up to two flipped bits in a payload of fewer than `2 ^ 32` bits: the
  register of zlib runs through all `2 ^ 32 - 1` states before it comes back
  (`zlib_period`).  A payload with so few flips is `FewFlips` away from the one that was
  sent, which is `WithinRadius` without its condition on the CRC; `bit_flip` leads there
  whatever the random numbers are (`bitFlips_fewFlips`).
-/

import MpiApps.Fault.BcastAbft
import MpiApps.Lib.Crc
import Mathlib.Tactic.NormNum.Prime

namespace MpiApps.Fault

open MpiApps.Crc MpiApps.Secded MpiApps.Windows
open scoped symmDiff

/-! ## The register of zlib -/

/-- The polynomial of CRC-32, the topmost coefficient last. -/
def zlibPoly : BitVec 32 := 0xedb88320

theorem zlib_back : (step zlibPoly)^[4294967295] (top 32) = top 32 := by
  rw [← power_eq zlibPoly (show 4294967295 < 2 ^ 32 by decide)]
  decide +kernel

theorem zlib_primes {q : Nat} (hq : q.Prime) (h : q ∣ 4294967295) :
    (step zlibPoly)^[4294967295 / q] (top 32) ≠ top 32 := by
  have hfactors : q ∣ 3 * 5 * 17 * 257 * 65537 := h
  rw [hq.dvd_mul, hq.dvd_mul, hq.dvd_mul, hq.dvd_mul, Nat.prime_dvd_prime_iff_eq hq (by norm_num),
    Nat.prime_dvd_prime_iff_eq hq (by norm_num), Nat.prime_dvd_prime_iff_eq hq (by norm_num),
    Nat.prime_dvd_prime_iff_eq hq (by norm_num), Nat.prime_dvd_prime_iff_eq hq (by norm_num)]
    at hfactors
  have hlt : 4294967295 / q < 2 ^ 32 := Nat.lt_of_le_of_lt (Nat.div_le_self _ _) (by decide)
  rw [← power_eq zlibPoly hlt]
  rcases hfactors with (((rfl | rfl) | rfl) | rfl) | rfl <;> decide +kernel

/-- The period is as long as it can be. -/
theorem zlib_period {d : Nat} (hd : 0 < d) (hlt : d < 4294967295) :
    (step zlibPoly)^[d] 1#32 ≠ 1#32 :=
  iterate_step_ne (by decide) zlib_back (fun _ => zlib_primes) hd hlt

/-! ## Bits of a payload -/

/-- The bits of a payload in the order in which the CRC takes them. -/
def payloadBits (dataBits : List (BitVec 8)) : List Bool := dataBits.flatMap wordBits

/-- The number of bits in which two payloads differ. -/
def bitErrors (sent arrived : List (BitVec 8)) : Nat :=
  (List.zipWith xor (payloadBits sent) (payloadBits arrived)).count true

@[simp] theorem wordBits_length (x : BitVec 8) : (wordBits x).length = 8 := by
  simp [wordBits]

theorem wordBits_injective : Function.Injective (wordBits (m := 8)) := by
  intro x y h
  apply BitVec.eq_of_getLsbD_eq
  intro i hi
  exact List.map_inj_left.mp h i (List.mem_range.mpr hi)

@[simp] theorem payloadBits_cons (x : BitVec 8) (dataBits : List (BitVec 8)) :
    payloadBits (x :: dataBits) = wordBits x ++ payloadBits dataBits := List.flatMap_cons

@[simp] theorem payloadBits_length (dataBits : List (BitVec 8)) :
    (payloadBits dataBits).length = dataBits.length * 8 := by
  induction dataBits with
  | nil => rfl
  | cons x dataBits ih =>
      rw [payloadBits_cons, List.length_append, ih, wordBits_length, List.length_cons]
      omega

theorem payloadBits_injective : Function.Injective payloadBits := by
  intro xs
  induction xs with
  | nil =>
      intro ys h
      have hlen := congrArg List.length h
      rw [payloadBits_length, payloadBits_length] at hlen
      exact (List.length_eq_zero_iff.mp (by simpa using hlen.symm)).symm
  | cons x xs ih =>
      intro ys h
      cases ys with
      | nil => exact absurd (congrArg List.length h) (by simp)
      | cons y ys =>
          rw [payloadBits_cons, payloadBits_cons] at h
          obtain ⟨hx, hxs⟩ := List.append_inj h (by simp)
          rw [wordBits_injective hx, ih hxs]

theorem foldl_zlibCrc32 (crc : BitVec 32) (dataBits : List (BitVec 8)) :
    dataBits.foldl zlibCrc32 crc = ~~~ register zlibPoly (~~~ crc) (payloadBits dataBits) := by
  induction dataBits generalizing crc with
  | nil => exact (BitVec.not_not).symm
  | cons x dataBits ih =>
      have hbyte : zlibCrc32 crc x = ~~~ register zlibPoly (~~~ crc) (wordBits x) :=
        congrArg (~~~ ·) (iterate_step_setWidth zlibPoly (~~~ crc) (by decide) x)
      rw [List.foldl_cons, ih, hbyte, BitVec.not_not, payloadBits_cons, register_append]

/-- `do_crc32` sees up to two flipped bits. -/
theorem doCrc32_ne {sent arrived : List (BitVec 8)} (hlen : arrived.length = sent.length)
    (hbits : sent.length * 8 ≤ 4294967295) (hne : arrived ≠ sent)
    (hfew : bitErrors sent arrived ≤ 2) : doCrc32 zlibCrc32 arrived ≠ doCrc32 zlibCrc32 sent := by
  have hreg : register zlibPoly (~~~ 0) (payloadBits sent) ≠
      register zlibPoly (~~~ 0) (payloadBits arrived) :=
    register_ne (by decide) (fun _ => zlib_period) (~~~ 0) (by simp [hlen]) (by simpa using hbits)
      (fun h => hne (payloadBits_injective h).symm) hfew
  intro h
  rw [doCrc32, doCrc32, foldl_zlibCrc32, foldl_zlibCrc32] at h
  exact hreg (BitVec.not_inj.mp h).symm

theorem zlib_back_one : (step zlibPoly)^[4294967295] 1#32 = 1#32 := by
  have hone : 1#32 = (step zlibPoly)^[31] (top 32) := by decide +kernel
  rw [hone, ← Function.iterate_add_apply, Nat.add_comm, Function.iterate_add_apply, zlib_back]

theorem count_zipWith_xor_self (xs : List Bool) : (List.zipWith xor xs xs).count true = 0 := by
  induction xs with
  | nil => rfl
  | cons x xs ih => rw [List.zipWith_cons_cons, List.count_cons, ih]; cases x <;> rfl

/-- From `2 ^ 32` bits on, two flipped bits can leave the CRC as it is. -/
theorem exists_doCrc32_eq {len : Nat} (hlen : 4294967295 < len * 8) :
    ∃ sent arrived : List (BitVec 8), sent.length = len ∧ arrived.length = len ∧
      bitErrors sent arrived = 2 ∧ arrived ≠ sent ∧
      doCrc32 zlibCrc32 arrived = doCrc32 zlibCrc32 sent := by
  obtain ⟨k, hk⟩ : ∃ k, k = 536870910 := ⟨_, rfl⟩
  obtain ⟨m, rfl⟩ : ∃ m, len = k + m + 2 := ⟨len - (k + 2), by omega⟩
  let mid : List Bool := List.replicate 7 false ++ payloadBits (List.replicate k 0) ++
    List.replicate 7 false
  let rest : List Bool := payloadBits (List.replicate m 0)
  -- the lowest bit of the first byte and the topmost one of a byte one period further on
  let bytes (a b : BitVec 8) : List (BitVec 8) :=
    a :: (List.replicate k 0 ++ b :: List.replicate m 0)
  have hmid : mid.length = 4294967294 := by
    simp only [mid, List.length_append, List.length_replicate, payloadBits_length]
    omega
  have happend : ∀ xs ys : List (BitVec 8), payloadBits (xs ++ ys) =
      payloadBits xs ++ payloadBits ys := fun _ _ => List.flatMap_append
  have hfirst : ∀ x : Bool, wordBits (if x then 1 else 0 : BitVec 8) =
      x :: List.replicate 7 false := by decide
  have hlast : ∀ x : Bool, wordBits (if x then 0x80 else 0 : BitVec 8) =
      List.replicate 7 false ++ [x] := by decide
  have hbits : ∀ x y : Bool, payloadBits (bytes (if x then 1 else 0) (if y then 0x80 else 0)) =
      x :: (mid ++ y :: rest) := by
    intro x y
    rw [payloadBits_cons, happend, payloadBits_cons, hfirst, hlast]
    simp only [mid, rest, List.cons_append, List.append_assoc, List.nil_append]
  have hsent := hbits false false
  have harrived := hbits true true
  simp only [if_true, Bool.false_eq_true, if_false] at hsent harrived
  refine ⟨bytes 0 0, bytes 1 0x80, by simp [bytes]; omega, by simp [bytes]; omega, ?_, ?_, ?_⟩
  · rw [bitErrors, hsent, harrived, List.zipWith_cons_cons, List.zipWith_append rfl,
      List.zipWith_cons_cons, List.count_cons, List.count_append, List.count_cons,
      count_zipWith_xor_self, count_zipWith_xor_self]
    rfl
  · exact fun h => absurd (List.head_eq_of_cons_eq h) (by decide)
  · rw [doCrc32, doCrc32, foldl_zlibCrc32, foldl_zlibCrc32, hsent, harrived]
    exact congrArg (~~~ ·) (register_flip_flip zlib_back_one _ false false hmid rest)

/-- `do_crc32` tells a payload from all those with up to two other bits exactly if it has less
    than `2 ^ 32` bits. -/
theorem doCrc32_detects_iff {crc32 : BitVec 32 → BitVec 8 → BitVec 32}
    (hzlib : crc32 = zlibCrc32) (len : Nat) :
    (∀ sent arrived : List (BitVec 8), sent.length = len → arrived.length = len →
      bitErrors sent arrived ≤ 2 →
      (doCrc32 crc32 arrived = doCrc32 crc32 sent ↔ arrived = sent)) ↔ len * 8 < 2 ^ 32 := by
  subst hzlib
  constructor
  · intro hall
    by_contra hlong
    obtain ⟨sent, arrived, hsent, harrived, herr, hne, hcrc⟩ :=
      exists_doCrc32_eq (show 4294967295 < len * 8 by omega)
    exact hne ((hall sent arrived hsent harrived herr.le).mp hcrc)
  · intro hshort sent arrived hsent harrived hfew
    refine ⟨fun hcrc => ?_, fun h => congrArg _ h⟩
    by_contra hne
    exact doCrc32_ne (harrived.trans hsent.symm) (by omega) hne hfew hcrc

/-- Seven bytes are less than `2 ^ 32` bits. -/
theorem doCrc32_detects_iff_seven : 7 * 8 < 2 ^ 32 ∧
    ∀ sent arrived : List (BitVec 8), sent.length = 7 → arrived.length = 7 →
      bitErrors sent arrived ≤ 2 →
      (doCrc32 zlibCrc32 arrived = doCrc32 zlibCrc32 sent ↔ arrived = sent) :=
  ⟨by decide, (doCrc32_detects_iff rfl 7).mpr (by decide)⟩

/-! ## Few flips -/

/-- At most two flips in each block, check characters included, and at most two flipped
    bits in the whole payload. -/
structure FewFlips (crc32 : BitVec 32 → BitVec 8 → BitVec 32) (plan : BlockPlan)
    (sent : List (BitVec 8)) (received : Payload) : Prop where
  arrives : received.Arrives crc32 plan sent
  radius : ∀ i < plan.bsNum, (flipsAt plan sent received i).card ≤ 2
  few : bitErrors sent received.dataBits ≤ 2

theorem FewFlips.withinRadius {plan : BlockPlan} {sent : List (BitVec 8)} {received : Payload}
    (h : FewFlips zlibCrc32 plan sent received) (hbits : sent.length * 8 ≤ 4294967295) :
    WithinRadius zlibCrc32 plan sent received where
  arrives := h.arrives
  radius := h.radius
  detects hne := doCrc32_ne h.arrives.length_dataBits hbits hne h.few

/-- `bit_flip`, for the value of `rand()`. -/
def bitFlip (rnd : Nat) (bits : List (BitVec 8)) : List (BitVec 8) :=
  let num := rnd % (bits.length * 8)
  bits.modify (num / 8) (· ^^^ (1 : BitVec 8) <<< (7 - num % 8))

/-- Several calls. -/
def bitFlips (rnds : List Nat) (bits : List (BitVec 8)) : List (BitVec 8) :=
  rnds.foldl (fun bits rnd => bitFlip rnd bits) bits

/-- The calls on a payload that has arrived. -/
def injectBits (rnds : List Nat) (payload : Payload) : Payload :=
  { payload with dataBits := bitFlips rnds payload.dataBits }

@[simp] theorem bitFlip_length (rnd : Nat) (bits : List (BitVec 8)) :
    (bitFlip rnd bits).length = bits.length := by
  simp [bitFlip]

@[simp] theorem bitFlips_length (rnds : List Nat) (bits : List (BitVec 8)) :
    (bitFlips rnds bits).length = bits.length := by
  induction rnds generalizing bits with
  | nil => rfl
  | cons rnd rnds ih => exact (ih _).trans (bitFlip_length rnd bits)

/-! ### Errors of the payload -/

theorem modify_append_of_lt {α : Type} (f : α → α) {k : Nat} {xs : List α} (hk : k < xs.length)
    (ys : List α) : (xs ++ ys).modify k f = xs.modify k f ++ ys := by
  induction xs generalizing k with
  | nil => exact absurd hk (Nat.not_lt_zero k)
  | cons x xs ih =>
      cases k with
      | zero => rfl
      | succ k =>
          rw [List.cons_append, List.modify_succ_cons, ih (Nat.lt_of_succ_lt_succ hk),
            List.modify_succ_cons, List.cons_append]

theorem modify_append_add {α : Type} (f : α → α) (k : Nat) (xs ys : List α) :
    (xs ++ ys).modify (xs.length + k) f = xs ++ ys.modify k f := by
  induction xs with
  | nil => rw [List.length_nil, Nat.zero_add]; rfl
  | cons x xs ih =>
      rw [List.length_cons, Nat.add_right_comm, List.cons_append, List.modify_succ_cons, ih]
      rfl

theorem wordBits_flip (x : BitVec 8) {k : Nat} (hk : k < 8) :
    wordBits (x ^^^ (1 : BitVec 8) <<< k) = (wordBits x).modify k not := by
  apply List.ext_getElem (by simp)
  intro j hj _
  have hj8 : j < 8 := by simpa using hj
  simp only [wordBits, List.getElem_map, List.getElem_range, List.getElem_modify,
    BitVec.getLsbD_xor, getLsbD_one_shiftLeft hj8 hk]
  by_cases h : k = j
  · rw [if_pos h]
    simp [h]
  · rw [if_neg h]
    simp [Ne.symm h]

/-- A flipped bit of a byte is one flipped bit of the payload. -/
theorem payloadBits_flip {k : Nat} (hk : k < 8) (n : Nat) (bits : List (BitVec 8)) :
    payloadBits (bits.modify n (· ^^^ (1 : BitVec 8) <<< k)) =
      (payloadBits bits).modify (8 * n + k) not := by
  induction bits generalizing n with
  | nil => cases n <;> simp [payloadBits]
  | cons x bits ih =>
      cases n with
      | zero =>
          rw [List.modify_zero_cons, payloadBits_cons, payloadBits_cons, wordBits_flip x hk,
            Nat.mul_zero, Nat.zero_add, modify_append_of_lt not (by simpa using hk)]
      | succ n =>
          rw [List.modify_succ_cons, payloadBits_cons, payloadBits_cons, ih,
            show 8 * (n + 1) + k = (wordBits x).length + (8 * n + k) by
              rw [wordBits_length]; omega, modify_append_add]

theorem count_zipWith_modify (xs ys : List Bool) (k : Nat) :
    (List.zipWith xor xs (ys.modify k not)).count true ≤
      (List.zipWith xor xs ys).count true + 1 := by
  induction ys generalizing xs k with
  | nil => simp
  | cons y ys ih =>
      cases xs with
      | nil => simp
      | cons x xs =>
          cases k with
          | zero =>
              rw [List.modify_zero_cons, List.zipWith_cons_cons, List.zipWith_cons_cons,
                List.count_cons, List.count_cons]
              cases x <;> cases y <;> simp <;> omega
          | succ k =>
              have := ih xs k
              rw [List.modify_succ_cons, List.zipWith_cons_cons, List.zipWith_cons_cons,
                List.count_cons, List.count_cons]
              omega

theorem bitErrors_self (bits : List (BitVec 8)) : bitErrors bits bits = 0 :=
  count_zipWith_xor_self _

theorem bitErrors_bitFlip (sent bits : List (BitVec 8)) (rnd : Nat) :
    bitErrors sent (bitFlip rnd bits) ≤ bitErrors sent bits + 1 := by
  rw [bitErrors, bitFlip, payloadBits_flip (by omega)]
  exact count_zipWith_modify ..

theorem bitErrors_bitFlips (sent bits : List (BitVec 8)) (rnds : List Nat) :
    bitErrors sent (bitFlips rnds bits) ≤ bitErrors sent bits + rnds.length := by
  induction rnds generalizing bits with
  | nil => exact Nat.le_refl _
  | cons rnd rnds ih =>
      refine (ih (bitFlip rnd bits)).trans ?_
      have := bitErrors_bitFlip sent bits rnd
      rw [List.length_cons]
      omega

/-! ### Flips of the blocks -/

/-- Flip several places. -/
def Block.flipAll (b : Block) (spots : List Spot) : Block := spots.foldl Block.flip b

theorem Block.flipAll_cons (b : Block) (s : Spot) (spots : List Spot) :
    b.flipAll (s :: spots) = (b.flip s).flipAll spots := rfl

/-- The places flipped make a set of no more positions. -/
theorem Block.support_flipAll {b : Block} {r : Nat} (h : b.WellFormed r) {spots : List Spot}
    (hspots : ∀ s ∈ spots, s.Valid b.bits.length r) :
    ∃ E : Finset Nat, E.card ≤ spots.length ∧
      (b.flipAll spots).bits.length = b.bits.length ∧
      (b.flipAll spots).support r = b.support r ∆ E := by
  induction spots generalizing b with
  | nil => exact ⟨∅, Nat.zero_le _, rfl, (symmDiff_bot _).symm⟩
  | cons s spots ih =>
      obtain rfl := h.r_eq
      obtain ⟨p, hp, rfl⟩ := exists_spot (hspots s List.mem_cons_self)
      obtain ⟨E, hE, hlen, hsup⟩ := @ih (b.flip (spot _ p)) (h.flip _) fun t ht => by
        rw [Block.flip_length_bits]
        exact hspots t (List.mem_cons_of_mem _ ht)
      refine ⟨{p} ∆ E, ?_, by rw [flipAll_cons, hlen, Block.flip_length_bits], ?_⟩
      · have hsub := (Finset.card_le_card symmDiff_le_sup).trans (Finset.card_union_le {p} E)
        rw [Finset.card_singleton] at hsub
        rw [List.length_cons]
        omega
      · rw [flipAll_cons, hsup, Block.support_flip h hp, symmDiff_assoc]

theorem card_arrivalFlips_flipAll (bits : List (BitVec 8)) {spots : List Spot}
    (hspots : ∀ s ∈ spots, s.Valid bits.length (hmLength (bits.length * 8))) :
    (arrivalFlips bits ((encodeBlock bits).flipAll spots)).card ≤ spots.length := by
  obtain ⟨E, hE, hlen, hsup⟩ := Block.support_flipAll (encodeBlock_wellFormed bits) hspots
  rw [@arrivalFlips_eq bits _ hlen, hsup, symmDiff_symmDiff_cancel_left]
  exact hE

theorem window_modify {α : Type} (start len k : Nat) (f : α → α) (l : List α) :
    window start len (l.modify k f) =
      if start ≤ k ∧ k < start + len then (window start len l).modify (k - start) f
      else window start len l := by
  apply List.ext_getElem?
  intro j
  rw [window_getElem?, List.getElem?_modify]
  by_cases hin : start ≤ k ∧ k < start + len
  · have hiff : k = start + j ↔ k - start = j := by omega
    rw [if_pos hin, List.getElem?_modify, window_getElem?]
    by_cases hj : j < len <;> simp [hj, hiff]
  · rw [if_neg hin, window_getElem?]
    by_cases hj : j < len
    · have hne : k ≠ start + j := by omega
      simp [hj, hne]
    · simp [hj]

/-- What `bit_flip` does to a block: a flip at a place of it, or nothing. -/
theorem received_bitFlip (plan : BlockPlan) (c : List (List Char)) (i rnd : Nat)
    (bits : List (BitVec 8)) :
    ∃ spots : List Spot, spots.length ≤ 1 ∧
      (∀ s ∈ spots, ∀ r, s.Valid (plan.bytes i) r) ∧
      plan.received c i (bitFlip rnd bits) = (plan.received c i bits).flipAll spots := by
  let num := rnd % (bits.length * 8)
  have hblock := window_modify (i * plan.bs) (plan.bytes i) (num / 8)
    (· ^^^ (1 : BitVec 8) <<< (7 - num % 8)) bits
  by_cases hin : i * plan.bs ≤ num / 8 ∧ num / 8 < i * plan.bs + plan.bytes i
  · refine ⟨[.data (num - 8 * (i * plan.bs))], Nat.le_refl _, ?_, ?_⟩
    · intro s hs r
      rw [List.mem_singleton] at hs
      subst hs
      show num - 8 * (i * plan.bs) < plan.bytes i * 8
      omega
    · rw [if_pos hin] at hblock
      refine congrArg (fun bits => Block.mk bits (c.getD i [])) (hblock.trans ?_)
      rw [show num / 8 - i * plan.bs = (num - 8 * (i * plan.bs)) / 8 by omega,
        show num % 8 = (num - 8 * (i * plan.bs)) % 8 by omega]
      rfl
  · refine ⟨[], Nat.zero_le _, fun s hs => absurd hs List.not_mem_nil, ?_⟩
    rw [if_neg hin] at hblock
    exact congrArg (fun bits => Block.mk bits (c.getD i [])) hblock

theorem received_bitFlips (plan : BlockPlan) (c : List (List Char)) (i : Nat) (rnds : List Nat)
    (bits : List (BitVec 8)) :
    ∃ spots : List Spot, spots.length ≤ rnds.length ∧
      (∀ s ∈ spots, ∀ r, s.Valid (plan.bytes i) r) ∧
      plan.received c i (bitFlips rnds bits) = (plan.received c i bits).flipAll spots := by
  induction rnds generalizing bits with
  | nil => exact ⟨[], Nat.le_refl _, fun s hs => absurd hs List.not_mem_nil, rfl⟩
  | cons rnd rnds ih =>
      obtain ⟨spots, hlen, hvalid, hblock⟩ := received_bitFlip plan c i rnd bits
      obtain ⟨rest, hlen', hvalid', hblock'⟩ := ih (bitFlip rnd bits)
      refine ⟨spots ++ rest, ?_, ?_, ?_⟩
      · rw [List.length_append, List.length_cons]
        omega
      · intro s hs
        rcases List.mem_append.mp hs with h | h
        · exact hvalid s h
        · exact hvalid' s h
      · rw [Block.flipAll, List.foldl_append]
        rw [hblock] at hblock'
        exact hblock'

/-- Up to two calls of `bit_flip` on the payload are few flips. -/
theorem bitFlips_fewFlips {crc32 : BitVec 32 → BitVec 8 → BitVec 32} {bs : Nat} (hbs : 0 < bs)
    (sent : List (BitVec 8)) {rnds : List Nat} (hrnds : rnds.length ≤ 2) :
    FewFlips crc32 (blockPlan bs sent.length) sent
      (withFlips crc32 (blockPlan bs sent.length) sent (bitFlips rnds sent)) where
  arrives := withFlips_arrives _ (bitFlips_length rnds sent)
  radius i hi := by
    obtain ⟨spots, hlen, hvalid, hblock⟩ := received_bitFlips (blockPlan bs sent.length)
      (protect crc32 (blockPlan bs sent.length) sent).c i rnds sent
    have hsent : (blockPlan bs sent.length).received
        (protect crc32 (blockPlan bs sent.length) sent).c i sent =
        encodeBlock ((blockPlan bs sent.length).block i sent) :=
      congrArg (Block.mk _) (protect_c_getD crc32 hi)
    have hbytes : ((blockPlan bs sent.length).block i sent).length =
        (blockPlan bs sent.length).bytes i := (blockTiling hbs sent.length).tile_length rfl hi
    have hcard := @card_arrivalFlips_flipAll ((blockPlan bs sent.length).block i sent) spots
      fun s hs => by rw [hbytes]; exact hvalid s hs _
    rw [← hsent, ← hblock] at hcard
    exact hcard.trans (hlen.trans hrnds)
  few := by
    have h := bitErrors_bitFlips sent sent rnds
    rw [bitErrors_self, Nat.zero_add] at h
    exact h.trans hrnds

end MpiApps.Fault
