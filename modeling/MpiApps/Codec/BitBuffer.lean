/-
  MpiApps.Codec.BitBuffer

  The byte buffer that every bitwise compressor writes to.

  `addBitToBytes` appends one bit: bits fill a byte from position 8 (the most
  significant one) down to position 1, and a fresh zeroed byte is allocated
  whenever `pos` is back at 8.  `readBits` is the order in which all decoders
  visit the bits again.  `pushBits_packed` relates the two: pushing `bs` one by
  one leaves a buffer that reads as `bs` followed by zeros up to the byte
  boundary, and takes neither of the two error branches.  `visitedBits` are the
  decoders' loops themselves, index by index and with the shift and the mask.
-/

import Mathlib.Data.List.Basic
import Mathlib.Algebra.Order.Ring.Int
import Mathlib.Tactic.Common

namespace MpiApps.Codec

/-! ## The code -/

/-- `data_bits`, `bytes` and `pos` of the compressors, with what was printed.  The counters are
    `int`s in the source, which hold the number of bytes up to `2^31 - 1`. -/
structure ByteBuffer where
  dataBits : List (BitVec 8)
  bytes : Nat
  pos : Nat
  printed : List String
  deriving DecidableEq, Repr

/-- No byte allocated yet: `data_bits = NULL`, `bytes = 0`, `pos = 8`. -/
def ByteBuffer.empty : ByteBuffer := ⟨[], 0, 8, []⟩

/-- `bit_set`: positions 8..1 from the most significant bit, `flag` 0 or 1. -/
def bitSet (pData : BitVec 8) (position : Nat) (flag : Int) : BitVec 8 × List String :=
  if position > 8 ∨ position < 1 ∨ (flag ≠ 0 ∧ flag ≠ 1) then
    (pData, ["输入有误！\n"])
  else if flag ≠ (((pData >>> (position - 1)) &&& 1).toNat : Int) then
    (pData ^^^ (1 <<< (position - 1)), [])
  else
    (pData, [])

/-- `add_bit_to_bytes`. -/
def addBitToBytes (s : ByteBuffer) (flag : Int) : ByteBuffer :=
  if 0 < s.pos ∧ s.pos < 9 then
    -- a new byte is allocated and cleared when the last one is full
    let s := if s.pos = 8 then
        { s with bytes := s.bytes + 1, dataBits := s.dataBits ++ [0] }
      else s
    let r := bitSet (s.dataBits.getD (s.bytes - 1) 0) s.pos flag
    let s := { s with
      dataBits := s.dataBits.set (s.bytes - 1) r.1
      printed := s.printed ++ r.2
      pos := s.pos - 1 }
    if s.pos = 0 then { s with pos := 8 } else s
  else
    { s with printed := s.printed ++ ["Error position value\n"] }

/-- The loop shared by all compressors: one `add_bit_to_bytes` per bit. -/
def pushBits (s : ByteBuffer) (bs : List Bool) : ByteBuffer :=
  bs.foldl (fun s b => addBitToBytes s (if b then 1 else 0)) s

/-- `(b >> j) & 1` for `j = 7` down to `0`. -/
def byteBits (b : BitVec 8) : List Bool :=
  [7, 6, 5, 4, 3, 2, 1, 0].map fun j => b.getLsbD j

/-- The bits of a byte string in the order in which the decoders visit them. -/
def readBits (data : List (BitVec 8)) : List Bool := data.flatMap byteBits

/-- `bit` in the loops of the decoders over `bytes` bytes: `(data_bits[i] >> j) & 1` for
    `j = 7` down to `0`. -/
def visitedBits (dataBits : List (BitVec 8)) (bytes : Nat) : List Int :=
  (List.range bytes).flatMap fun i => [7, 6, 5, 4, 3, 2, 1, 0].map fun j =>
    (((dataBits.getD i 0 >>> j) &&& 1).toNat : Int)

/-! ## Lengths and append laws -/

@[simp] theorem byteBits_length (b : BitVec 8) : (byteBits b).length = 8 := rfl

@[simp] theorem readBits_nil : readBits [] = [] := rfl

@[simp] theorem readBits_append (xs ys : List (BitVec 8)) :
    readBits (xs ++ ys) = readBits xs ++ readBits ys := by
  simp [readBits]

@[simp] theorem readBits_singleton (b : BitVec 8) : readBits [b] = byteBits b := by
  simp [readBits]

@[simp] theorem readBits_length (data : List (BitVec 8)) :
    (readBits data).length = 8 * data.length := by
  induction data with
  | nil => rfl
  | cons b data ih =>
      simp only [readBits, List.flatMap_cons, List.length_append, byteBits_length,
        List.length_cons] at ih ⊢
      omega

@[simp] theorem pushBits_nil (s : ByteBuffer) : pushBits s [] = s := rfl

theorem pushBits_append (s : ByteBuffer) (as bs : List Bool) :
    pushBits s (as ++ bs) = pushBits (pushBits s as) bs := by
  simp [pushBits, List.foldl_append]

/-! ## One bit -/

/-- The bit that `bit_set` compares the flag with. -/
theorem shiftRight_and_one_toNat (p : BitVec 8) (k : Nat) :
    ((p >>> k) &&& 1).toNat = (p.getLsbD k).toNat := by
  rw [BitVec.toNat_and, BitVec.toNat_ushiftRight, Nat.shiftRight_eq_div_pow, BitVec.getLsbD,
    Nat.testBit_eq_decide_div_mod_eq]
  rw [show (1 : BitVec 8).toNat = 1 from rfl, Nat.and_one_is_mod]
  rcases Nat.mod_two_eq_zero_or_one (p.toNat / 2 ^ k) with h0 | h1
  · simp [h0]
  · simp [h1]

/-- The exclusive or turns one bit round. -/
theorem getLsbD_flip (p : BitVec 8) {k : Nat} (hk : k < 8) (j : Nat) :
    (p ^^^ (1 <<< k)).getLsbD j = if j = k then !p.getLsbD k else p.getLsbD j := by
  have hone : ((1 <<< k : Nat) : BitVec 8).getLsbD j = decide (j = k) := by
    rw [BitVec.natCast_eq_ofNat, BitVec.getLsbD_ofNat, Nat.one_shiftLeft, Nat.testBit_two_pow]
    by_cases hjk : j = k
    · subst hjk
      simp [hk]
    · simp [hjk, Ne.symm hjk]
  rw [BitVec.getLsbD_xor, hone]
  by_cases hjk : j = k
  · subst hjk
    simp
  · simp [hjk]

/-- Bytes that differ in one bit at most differ in one place of their lists. -/
theorem byteBits_eq_set {p q : BitVec 8} {k : Nat} {b : Bool} (hk : k < 8)
    (h : ∀ j, q.getLsbD j = if j = k then b else p.getLsbD j) :
    byteBits q = (byteBits p).set (7 - k) b := by
  have hbits : ∀ x : BitVec 8, byteBits x = (List.range 8).map fun i => x.getLsbD (7 - i) :=
    fun _ => rfl
  rw [hbits, hbits]
  refine List.ext_getElem (by simp) fun i hi _ => ?_
  rw [List.length_map, List.length_range] at hi
  rw [List.getElem_set, List.getElem_map, List.getElem_map, List.getElem_range, h]
  have hplace : 7 - i = k ↔ 7 - k = i := by omega
  simp only [hplace]

/-- Setting a bit in a legal position changes that bit of the byte and no other,
    and prints nothing. -/
theorem bitSet_spec (p : BitVec 8) (position : Nat) (b : Bool)
    (hlo : 1 ≤ position) (hhi : position ≤ 8) :
    byteBits (bitSet p position (if b then 1 else 0)).1 = (byteBits p).set (8 - position) b ∧
      (bitSet p position (if b then 1 else 0)).2 = [] := by
  obtain ⟨k, rfl⟩ : ∃ k, position = k + 1 := ⟨position - 1, by omega⟩
  have hk : k < 8 := hhi
  have hlegal : ¬ (k + 1 > 8 ∨ k + 1 < 1 ∨
      ((if b then 1 else 0 : Int) ≠ 0 ∧ (if b then 1 else 0 : Int) ≠ 1)) := by
    cases b <;> simp <;> omega
  rw [bitSet, if_neg hlegal, Nat.add_sub_cancel, shiftRight_and_one_toNat,
    Nat.add_sub_add_right 7 1 k]
  by_cases hb : p.getLsbD k = b
  · -- the bit is there already
    have hflag : ¬ (if b then 1 else 0 : Int) ≠ ((p.getLsbD k).toNat : Int) := by
      rw [hb]
      cases b <;> decide
    rw [if_neg hflag]
    refine ⟨byteBits_eq_set hk fun j => ?_, rfl⟩
    split
    · next hj => rw [hj, hb]
    · rfl
  · have hflag : (if b then 1 else 0 : Int) ≠ ((p.getLsbD k).toNat : Int) := by
      have hnot : p.getLsbD k = !b := Bool.eq_not_of_ne hb
      rw [hnot]
      cases b <;> decide
    rw [if_pos hflag]
    refine ⟨byteBits_eq_set hk fun j => ?_, rfl⟩
    rw [getLsbD_flip p hk, Bool.eq_not_of_ne hb, Bool.not_not]

/-- Number of zero bits up to the byte boundary after `n` bits. -/
def padding (n : Nat) : Nat := (8 - n % 8) % 8

/-- The buffer holds the bits `bs`: whole bytes, the unused low bits of the last
    one zero, and no error branch taken so far. -/
structure Packed (s : ByteBuffer) (bs : List Bool) : Prop where
  bytes_eq : s.bytes = s.dataBits.length
  pos_eq : s.pos = 8 - bs.length % 8
  bits_eq : readBits s.dataBits = bs ++ List.replicate (padding bs.length) false
  quiet : s.printed = []

theorem packed_empty : Packed ByteBuffer.empty [] :=
  ⟨rfl, rfl, rfl, rfl⟩

theorem Packed.length_eq {s : ByteBuffer} {bs : List Bool} (h : Packed s bs) :
    8 * s.bytes = bs.length + padding bs.length := by
  have hlen := congrArg List.length h.bits_eq
  simp only [readBits_length, List.length_append, List.length_replicate] at hlen
  rw [h.bytes_eq, hlen]

/-- The last byte is full: a fresh zero byte takes the bit at position 8. -/
theorem Packed.addBit_fresh {s : ByteBuffer} {bs : List Bool} (h : Packed s bs)
    (h8 : bs.length % 8 = 0) (b : Bool) :
    Packed (addBitToBytes s (if b then 1 else 0)) (bs ++ [b]) := by
  obtain ⟨data, bytes, pos, printed⟩ := s
  obtain ⟨hbytes, hpos, hbits, hquiet⟩ := h
  simp only at hbytes hpos hbits hquiet
  subst hbytes hquiet
  obtain rfl : pos = 8 := by omega
  have hset := bitSet_spec 0 8 b (by decide) (by decide)
  have hpad : padding bs.length = 0 := by simp [padding, h8]
  have hpad' : padding (bs.length + 1) = 7 := by
    simp only [padding]
    omega
  -- nothing is padded before, seven bits are afterwards
  rw [hpad, List.replicate_zero, List.append_nil] at hbits
  have hget : (data ++ [(0 : BitVec 8)]).getD data.length 0 = 0 := by simp
  refine ⟨by simp [addBitToBytes], ?_, ?_, ?_⟩
  · simp only [addBitToBytes]
    simp
    omega
  · simp only [addBitToBytes, List.length_append, List.length_singleton, hpad']
    simp only [Nat.add_sub_cancel, hget, Nat.zero_lt_succ, Nat.lt_add_one, and_self, if_true,
      Nat.reduceSub, OfNat.ofNat_ne_zero, if_false, List.set_append_right _ _ (Nat.le_refl _),
      Nat.sub_self, List.set_cons_zero, readBits_append, hbits, readBits_singleton, hset.1]
    simp [byteBits]
  · simpa [addBitToBytes] using hset.2

/-- Writing into the last byte is writing into the bits of the buffer. -/
theorem readBits_set_last (init : List (BitVec 8)) {last byte : BitVec 8} {k : Nat} {b : Bool}
    (hbyte : byteBits byte = (byteBits last).set k b) :
    readBits (init ++ [byte]) = (readBits (init ++ [last])).set (8 * init.length + k) b := by
  rw [readBits_append, readBits_singleton, hbyte, readBits_append, readBits_singleton,
    List.set_append_right _ _ (by rw [readBits_length]; omega), readBits_length,
    Nat.add_sub_cancel_left]

/-- The last byte has room: the bit goes to position `pos`. -/
theorem Packed.addBit_room {s : ByteBuffer} {bs : List Bool} (h : Packed s bs)
    (h8 : bs.length % 8 ≠ 0) (b : Bool) :
    Packed (addBitToBytes s (if b then 1 else 0)) (bs ++ [b]) := by
  have hlen := h.length_eq
  obtain ⟨data, bytes, pos, printed⟩ := s
  obtain ⟨hbytes, hpos, hbits, hquiet⟩ := h
  simp only at hbytes hpos hbits hquiet hlen
  subst hbytes hquiet
  have hmod : bs.length % 8 < 8 := Nat.mod_lt _ (by decide)
  have hne : data ≠ [] := by
    rintro rfl
    simp at hlen
    omega
  obtain ⟨init, last, rfl⟩ : ∃ init last, data = init ++ [last] :=
    ⟨data.dropLast, data.getLast hne, (List.dropLast_append_getLast hne).symm⟩
  have hset := bitSet_spec last pos b (by omega) (by omega)
  -- `pos` counts the free bits of the last byte
  have hk : 8 * init.length + (8 - pos) = bs.length := by
    simp only [padding, List.length_append, List.length_singleton] at hlen
    omega
  have hpad : padding bs.length = padding (bs.length + 1) + 1 := by
    simp only [padding]
    omega
  have hget : (init ++ [last]).getD init.length 0 = last := by simp
  have hdata : readBits (init ++ [(bitSet last pos (if b then 1 else 0)).1]) =
      bs ++ b :: List.replicate (padding (bs.length + 1)) false := by
    rw [readBits_set_last init hset.1, hk, hbits, List.set_append_right _ _ (Nat.le_refl _),
      Nat.sub_self, hpad, List.replicate_succ, List.set_cons_zero]
  have hp8 : pos ≠ 8 := by omega
  have hp9 : 0 < pos ∧ pos < 9 := by omega
  refine ⟨?_, ?_, ?_, ?_⟩
  · simp only [addBitToBytes, hp9, hp8, if_true, if_false, and_self]
    split <;> simp
  · simp only [addBitToBytes, hp9, hp8, if_true, if_false, and_self, List.length_append,
      List.length_singleton]
    split <;> simp only <;> omega
  · simp only [addBitToBytes, hp9, hp8, if_true, if_false, and_self, List.length_append,
      List.length_singleton, Nat.add_sub_cancel, hget]
    rw [List.append_assoc, List.singleton_append, ← hdata]
    split <;> simp
  · simp only [addBitToBytes, hp9, hp8, if_true, if_false, and_self, List.length_append,
      List.length_singleton, Nat.add_sub_cancel, hget, hset.2]
    split <;> simp

/-- Step lemma: one more bit. -/
theorem Packed.addBit {s : ByteBuffer} {bs : List Bool} (h : Packed s bs) (b : Bool) :
    Packed (addBitToBytes s (if b then 1 else 0)) (bs ++ [b]) := by
  by_cases h8 : bs.length % 8 = 0
  · exact h.addBit_fresh h8 b
  · exact h.addBit_room h8 b

/-- Run lemma: any number of bits. -/
theorem Packed.pushBits {s : ByteBuffer} {bs : List Bool} (h : Packed s bs) (cs : List Bool) :
    Packed (pushBits s cs) (bs ++ cs) := by
  induction cs generalizing s bs with
  | nil => simpa using h
  | cons c cs ih =>
      have := ih (h.addBit c)
      rw [List.append_assoc, List.singleton_append] at this
      exact this

/-- Pushing bits from the empty buffer and reading the bytes gives the bits back,
    followed by zeros up to the byte boundary. -/
theorem pushBits_packed (bs : List Bool) : Packed (pushBits ByteBuffer.empty bs) bs := by
  simpa using packed_empty.pushBits bs

example : (pushBits ByteBuffer.empty [true, false, true]).dataBits = [0xA0] := by decide

/-! ## Reading back -/

/-- The loops visit the bits of each byte in the order of `byteBits`. -/
theorem visitedBits_eq (data : List (BitVec 8)) :
    visitedBits data data.length = (readBits data).map fun b => if b then 1 else 0 := by
  have hbyte : ∀ x : BitVec 8,
      [7, 6, 5, 4, 3, 2, 1, 0].map (fun j => (((x >>> j) &&& 1).toNat : Int)) =
        (byteBits x).map fun b => if b then 1 else 0 := by
    intro x
    rw [byteBits, List.map_map]
    refine List.map_congr_left fun j _ => ?_
    rw [shiftRight_and_one_toNat, Function.comp_apply]
    cases x.getLsbD j <;> rfl
  have hdata : data = (List.range data.length).map fun i => data.getD i 0 := by
    refine List.ext_getElem (by simp) fun i hi _ => ?_
    rw [List.getElem_map, List.getElem_range, List.getD_eq_getElem?_getD,
      List.getElem?_eq_getElem hi, Option.getD_some]
  rw [visitedBits, readBits, List.map_flatMap]
  conv_rhs => rw [hdata, List.flatMap_map]
  exact List.flatMap_congr fun i _ => hbyte (data.getD i 0)

/-- After any number of bits: the bytes that they need, the position of the next bit, no
    error, and the decoders read the bits in order and then zeros up to the byte boundary. -/
theorem pushBits_visitedBits (bs : List Bool) :
    (pushBits ByteBuffer.empty bs).bytes = (bs.length + 7) / 8 ∧
    (pushBits ByteBuffer.empty bs).dataBits.length = (bs.length + 7) / 8 ∧
    (pushBits ByteBuffer.empty bs).pos = 8 - bs.length % 8 ∧
    (pushBits ByteBuffer.empty bs).printed = [] ∧
    visitedBits (pushBits ByteBuffer.empty bs).dataBits (pushBits ByteBuffer.empty bs).bytes =
      (bs.map fun b => if b then 1 else 0) ++
        List.replicate (8 * ((bs.length + 7) / 8) - bs.length) 0 := by
  have hpacked := pushBits_packed bs
  have hbits := hpacked.length_eq
  have hbytes : (pushBits ByteBuffer.empty bs).bytes = (bs.length + 7) / 8 := by
    rw [padding] at hbits
    omega
  have hpad : padding bs.length = 8 * ((bs.length + 7) / 8) - bs.length := by
    rw [padding]
    omega
  refine ⟨hbytes, hpacked.bytes_eq.symm.trans hbytes, hpacked.pos_eq, hpacked.quiet, ?_⟩
  rw [hpacked.bytes_eq, visitedBits_eq, hpacked.bits_eq, List.map_append, List.map_replicate, hpad]
  rfl

end MpiApps.Codec
