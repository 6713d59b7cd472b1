/-
  MpiApps.Fault.Hamming

  The extended Hamming code that protects a block of payload bytes.

  The check characters are computed by a walk over the positions `1 .. r + 8 * bytes`:
  a power of two is the place of the next check character, any other position that
  of the next data bit.  Encoder, verifier and repair each walk on their own.

  `spot` says what the walk puts at a position, and `Block.support` collects the
  positions that hold a one.  `hammingDecode_eq` shows that the decoder acts on a
  block as `Secded.verdict` acts on its support.
-/

import MpiApps.Lib.Secded
import Mathlib.Data.Nat.Digits.Defs
import Mathlib.Algebra.BigOperators.Intervals
import Mathlib.Algebra.BigOperators.Ring.Finset
import Mathlib.Algebra.Order.BigOperators.Group.Finset
import Mathlib.Tactic.IntervalCases
import Mathlib.Tactic.Linarith

namespace MpiApps.Fault

open MpiApps.Secded
open scoped symmDiff

/-! ## The code -/

/-- `ch - '0'`. -/
def digit (ch : Char) : Int := (ch.toNat : Int) - 48

/-- `n + '0'`. -/
def toChar (n : Int) : Char := Char.ofNat (n + 48).toNat

/-- `ch == '0'?'1':'0'`. -/
def flipChar (ch : Char) : Char := if ch = '0' then '1' else '0'

/-- `cast_bits_to_char`: one character per bit, the most significant one first. -/
def castBitsToChar (bits : List (BitVec 8)) : List Char :=
  bits.flatMap fun x : BitVec 8 => (List.range 8).map fun j : Nat =>
    toChar ((x >>> (7 - j)) &&& 1).toNat

/-- The body of the walk of `hamming_code` and `hamming_verify_bit` for check `i`:
    `sum`, `dnum` and `cnum` at position `j`, where `value` gives the data bits. -/
def sumStep (value : Nat → Int) (i : Nat) (s : Int × Nat × Nat) (j : Nat) : Int × Nat × Nat :=
  if j = 2 ^ s.2.2 then (s.1, s.2.1, s.2.2 + 1)
  else
    let x := 2 ^ i
    let y := j % (x * 2)
    let x := y / x
    (s.1 + value s.2.1 * x, s.2.1 + 1, s.2.2)

/-- `sum`, `dnum` and `cnum` after the positions `1 .. n`. -/
def walkSum (value : Nat → Int) (i n : Nat) : Int × Nat × Nat :=
  (List.range' 1 n).foldl (sumStep value i) (0, 0, 0)

/-- The first loop of `hamming_code`: `r` check characters. -/
def hammingChecks (data : List Char) (k r : Nat) : List Char :=
  (List.range r).map fun i =>
    if (walkSum (fun dnum => digit (data.getD dnum '0')) i (r + k)).1.tmod 2 = 0 then '0'
    else '1'

/-- `hamming_code`: the check characters and the parity character. -/
def hammingCode (data : List Char) (k r : Nat) : List Char :=
  let c := hammingChecks data k r
  let sum := ((List.range k).map fun i => digit (data.getD i '0')).sum +
    ((List.range r).map fun i => digit (c.getD i '0')).sum
  c ++ [toChar (sum.tmod 2)]

/-- The loop of `hmLength`, which leaves `r` one too high. -/
def hmLengthLoop (k : Nat) : Nat → Nat → Nat
  | 0, r => r
  | fuel + 1, r =>
    let temp : Int := 2 ^ r - 1
    if temp - r - k < 0 then hmLengthLoop k fuel (r + 1) else r + 1

/-- `hmLength`; it takes at most `k + 2` rounds. -/
def hmLength (k : Nat) : Nat := hmLengthLoop k (k + 2) 0 - 1

/-- `hamming_encode`: the check characters and `r`. -/
def hammingEncode (bits : List (BitVec 8)) : List Char × Nat :=
  let data := castBitsToChar bits
  let r := hmLength (bits.length * 8)
  (hammingCode data (bits.length * 8) r, r)

/-- The bytes of a block with its check characters. -/
structure Block where
  bits : List (BitVec 8)
  c : List Char
  deriving DecidableEq, Repr

/-- `(bits[bnum/8] >> (7 - bnum%8)) & 1`. -/
def Block.dataBit (b : Block) (bnum : Nat) : Int :=
  ((b.bits.getD (bnum / 8) 0 >>> (7 - bnum % 8)) &&& 1).toNat

/-- `hamming_verify_bit`. -/
def hammingVerifyBit (b : Block) (r : Nat) : List Char :=
  let v := (List.range r).map fun i =>
    if (walkSum b.dataBit i (r + b.bits.length * 8)).1.tmod 2 = digit (b.c.getD i '0') then '0'
    else '1'
  let sum := (b.bits.map fun x =>
      ((List.range 8).map fun j => (((x >>> j) &&& 1).toNat : Int)).sum).sum +
    ((List.range r).map fun i => digit (b.c.getD i '0')).sum
  v ++ [if sum.tmod 2 = digit (b.c.getD r '0') then '0' else '1']

/-- `error_info`: the error type and `*error_bit_pos`, which starts at zero. -/
def errorInfo (v : List Char) (r : Nat) : Nat × Int :=
  let errorBitPos := ((List.range r).map fun i => digit (v.getD i '0') * 2 ^ i).sum
  let errorType :=
    if errorBitPos > 0 ∧ v.getD r '0' = '0' then 1 -- two bit error
    else if errorBitPos = 0 ∧ v.getD r '0' = '1' then 2 -- parity bit error
    else if errorBitPos > 0 ∧ v.getD r '0' = '1' then 3 -- one bit error
    else 0
  (errorType, errorBitPos)

/-- The walk of `hamming_rectify_bit`, with `bnum` and `cnum`. -/
def hammingRectifyBitLoop (errorBitPos : Int) : List Nat → Nat → Nat → Block → Block
  | [], _, _, b => b
  | j :: js, bnum, cnum, b =>
    if j = 2 ^ cnum then
      if j = errorBitPos then { b with c := b.c.modify cnum flipChar }
      else hammingRectifyBitLoop errorBitPos js bnum (cnum + 1) b
    else
      if j = errorBitPos then
        { b with bits := b.bits.modify (bnum / 8) (· ^^^ (1 : BitVec 8) <<< (7 - bnum % 8)) }
      else hammingRectifyBitLoop errorBitPos js (bnum + 1) cnum b

/-- `hamming_rectify_bit`. -/
def hammingRectifyBit (b : Block) (r : Nat) (errorBitPos : Int) : Block :=
  hammingRectifyBitLoop errorBitPos (List.range' 1 (r + b.bits.length * 8)) 0 0 b

/-- `hamming_decode`: the error type and the block after the repair. -/
def hammingDecode (b : Block) (r : Nat) : Nat × Block :=
  let v := hammingVerifyBit b r
  let info := errorInfo v r
  (info.1,
    if info.1 = 2 then { b with c := b.c.modify r flipChar }
    else if info.1 = 3 then hammingRectifyBit b r info.2
    else b)

/-! ## Characters and bits -/

@[simp] theorem digit_zero : digit '0' = 0 := rfl

@[simp] theorem digit_one : digit '1' = 1 := rfl

theorem digit_eq_zero {ch : Char} (h : digit ch = 0) : ch = '0' := by
  have hn : ch.toNat = '0'.toNat := by
    show ch.toNat = 48
    unfold digit at h
    omega
  exact Char.toNat_inj.mp hn

theorem digit_eq_one {ch : Char} (h : digit ch = 1) : ch = '1' := by
  have hn : ch.toNat = '1'.toNat := by
    show ch.toNat = 49
    unfold digit at h
    omega
  exact Char.toNat_inj.mp hn

@[simp] theorem flipChar_zero : flipChar '0' = '1' := rfl

@[simp] theorem flipChar_one : flipChar '1' = '0' := rfl

theorem toNat_shift_and_one (x : BitVec 8) (j : Nat) :
    ((x >>> j) &&& 1).toNat = (x.getLsbD j).toNat := by
  rw [BitVec.toNat_and, BitVec.toNat_ushiftRight]
  show (x.toNat >>> j) &&& 1 = (x.toNat.testBit j).toNat
  rw [Nat.and_one_is_mod, Nat.toNat_testBit, Nat.shiftRight_eq_div_pow]

/-- `y / x` in the walk is bit `i` of the position. -/
theorem walk_factor (j i : Nat) : j % (2 ^ i * 2) / 2 ^ i = (j.testBit i).toNat := by
  rw [Nat.toNat_testBit, Nat.mod_mul_right_div_self]

/-! ## The walk -/

/-- `dnum` and `cnum` after the positions `1 .. n`. -/
def walk : Nat → Nat × Nat
  | 0 => (0, 0)
  | n + 1 =>
    if n + 1 = 2 ^ (walk n).2 then ((walk n).1, (walk n).2 + 1)
    else ((walk n).1 + 1, (walk n).2)

theorem walk_add (n : Nat) : (walk n).1 + (walk n).2 = n := by
  induction n with
  | zero => rfl
  | succ n ih =>
      rw [walk]
      split <;> simp only <;> omega

theorem lt_two_pow_walk (n : Nat) : n < 2 ^ (walk n).2 := by
  induction n with
  | zero => exact Nat.one_pos
  | succ n ih =>
      rw [walk]
      split
      · next h =>
          show n + 1 < 2 ^ ((walk n).2 + 1)
          rw [Nat.pow_succ]
          omega
      · next h =>
          show n + 1 < 2 ^ (walk n).2
          omega

theorem two_pow_le_walk {n i : Nat} (h : i < (walk n).2) : 2 ^ i ≤ n := by
  induction n with
  | zero => exact absurd h (Nat.not_lt_zero i)
  | succ n ih =>
      rw [walk] at h
      split at h
      · next hp =>
          rcases Nat.lt_succ_iff_lt_or_eq.mp h with hi | rfl
          · exact Nat.le_succ_of_le (ih hi)
          · exact hp.ge
      · exact Nat.le_succ_of_le (ih h)

theorem walk_mono {m n : Nat} (h : m ≤ n) : (walk m).1 ≤ (walk n).1 ∧ (walk m).2 ≤ (walk n).2 := by
  induction n, h using Nat.le_induction with
  | base => exact ⟨le_refl _, le_refl _⟩
  | succ n _ ih =>
      rw [walk]
      split
      · exact ⟨ih.1, Nat.le_succ_of_le ih.2⟩
      · exact ⟨Nat.le_succ_of_le ih.1, ih.2⟩

/-- With `r` from `hmLength`, the walk meets all check and all data places. -/
theorem walk_eq {k r : Nat} (hlt : r + k < 2 ^ r) (hle : ∀ i < r, 2 ^ i ≤ r + k) :
    walk (r + k) = (k, r) := by
  have hadd := walk_add (r + k)
  have hr : (walk (r + k)).2 = r := by
    apply Nat.le_antisymm
    · by_contra hgt
      have := two_pow_le_walk (Nat.lt_of_not_le hgt)
      omega
    · by_contra hgt
      have h1 := lt_two_pow_walk (r + k)
      have h2 := hle _ (Nat.lt_of_not_le hgt)
      omega
  exact Prod.ext (by show (walk (r + k)).1 = k; omega) hr

theorem hmLengthLoop_eq {k r fuel s : Nat} (hs : s ≤ r) (hf : r < fuel + s)
    (hlt : r + k < 2 ^ r) (hle : ∀ i < r, 2 ^ i ≤ i + k) : hmLengthLoop k fuel s = r + 1 := by
  induction fuel generalizing s with
  | zero => omega
  | succ fuel ih =>
      have hcast : ((2 : Int) ^ s) = ((2 ^ s : Nat) : Int) := by simp
      rw [hmLengthLoop]
      by_cases hsr : s = r
      · subst hsr
        rw [if_neg (by rw [hcast]; omega)]
      · have := hle s (by omega)
        rw [if_pos (by rw [hcast]; omega)]
        exact ih (by omega) (by omega)

/-- `hmLength k` is the least `r` with `r + k < 2 ^ r`. -/
theorem hmLength_spec (k : Nat) :
    hmLength k + k < 2 ^ hmLength k ∧ ∀ i < hmLength k, 2 ^ i ≤ i + k := by
  have henough : k + 1 + k < 2 ^ (k + 1) := by
    have := Nat.lt_two_pow_self (n := k)
    rw [Nat.pow_succ]
    omega
  have hex : ∃ r, r + k < 2 ^ r := ⟨k + 1, henough⟩
  -- so the fuel of the loop is enough
  have hfind : Nat.find hex ≤ k + 1 := Nat.find_min' hex henough
  have hlt : Nat.find hex + k < 2 ^ Nat.find hex := Nat.find_spec hex
  have hle : ∀ i < Nat.find hex, 2 ^ i ≤ i + k := fun i hi => by
    have := Nat.find_min hex hi
    omega
  have heq : hmLength k = Nat.find hex := by
    rw [hmLength, hmLengthLoop_eq (Nat.zero_le _) (by omega) hlt hle]
    rfl
  rw [heq]
  exact ⟨hlt, hle⟩

theorem walk_hmLength (k : Nat) : walk (hmLength k + k) = (k, hmLength k) := by
  obtain ⟨hlt, hle⟩ := hmLength_spec k
  exact walk_eq hlt fun i hi => (hle i hi).trans (by omega)

/-! ## Places -/

/-- A data bit or a check character; the parity character is the last check. -/
inductive Spot
  | data (d : Nat)
  | check (i : Nat)
  deriving DecidableEq, Repr

/-- What stands at a position, the parity character at position zero. -/
def spot (r : Nat) : Nat → Spot
  | 0 => .check r
  | m + 1 => if m + 1 = 2 ^ (walk m).2 then .check (walk m).2 else .data (walk m).1

/-- The places of a block of `bytes` bytes with `r + 1` characters. -/
def Spot.Valid (bytes r : Nat) : Spot → Prop
  | .data d => d < bytes * 8
  | .check i => i ≤ r

instance (bytes r : Nat) : (s : Spot) → Decidable (s.Valid bytes r)
  | .data d => inferInstanceAs (Decidable (d < bytes * 8))
  | .check i => inferInstanceAs (Decidable (i ≤ r))

theorem spot_data {r n d : Nat} (h : d < (walk n).1) : ∃ p, 0 < p ∧ p ≤ n ∧ spot r p = .data d := by
  induction n with
  | zero => exact absurd h (Nat.not_lt_zero d)
  | succ n ih =>
      rw [walk] at h
      split at h
      · obtain ⟨p, h0, hp, hs⟩ := ih h
        exact ⟨p, h0, Nat.le_succ_of_le hp, hs⟩
      · next hne =>
          rcases Nat.lt_succ_iff_lt_or_eq.mp h with hd | rfl
          · obtain ⟨p, h0, hp, hs⟩ := ih hd
            exact ⟨p, h0, Nat.le_succ_of_le hp, hs⟩
          · exact ⟨n + 1, Nat.succ_pos n, le_refl _, by rw [spot, if_neg hne]⟩

theorem spot_check {r n i : Nat} (h : i < (walk n).2) :
    ∃ p, 0 < p ∧ p ≤ n ∧ spot r p = .check i := by
  induction n with
  | zero => exact absurd h (Nat.not_lt_zero i)
  | succ n ih =>
      rw [walk] at h
      split at h
      · next heq =>
          rcases Nat.lt_succ_iff_lt_or_eq.mp h with hi | rfl
          · obtain ⟨p, h0, hp, hs⟩ := ih hi
            exact ⟨p, h0, Nat.le_succ_of_le hp, hs⟩
          · exact ⟨n + 1, Nat.succ_pos n, le_refl _, by rw [spot, if_pos heq]⟩
      · obtain ⟨p, h0, hp, hs⟩ := ih h
        exact ⟨p, h0, Nat.le_succ_of_le hp, hs⟩

/-- The walk counts up, so a later position has another place. -/
theorem spot_succ_ne {r m n : Nat} (hmn : m < n) : spot r (m + 1) ≠ spot r (n + 1) := by
  have hmono := walk_mono (show m + 1 ≤ n by omega)
  rw [walk] at hmono
  intro h
  rw [spot, spot] at h
  by_cases hm : m + 1 = 2 ^ (walk m).2
  · rw [if_pos hm] at h hmono
    split at h
    · have := Spot.check.inj h
      simp only at hmono
      omega
    · cases h
  · rw [if_neg hm] at h hmono
    split at h
    · cases h
    · have := Spot.data.inj h
      simp only at hmono
      omega

theorem spot_valid {bytes p : Nat}
    (hp : p ≤ hmLength (bytes * 8) + bytes * 8) :
    (spot (hmLength (bytes * 8)) p).Valid bytes (hmLength (bytes * 8)) ∧
      (p ≠ 0 → spot (hmLength (bytes * 8)) p ≠ .check (hmLength (bytes * 8))) := by
  cases p with
  | zero => exact ⟨le_refl _, fun h => absurd rfl h⟩
  | succ m =>
      -- the walk over all positions counts each place, so none is beyond the last
      have hmono := walk_mono hp
      rw [walk_hmLength, walk] at hmono
      rw [spot]
      split
      · next heq =>
          rw [if_pos heq] at hmono
          have hi : (walk m).2 < hmLength (bytes * 8) := hmono.2
          refine ⟨Nat.le_of_lt hi, fun _ h => ?_⟩
          have := Spot.check.inj h
          omega
      · next hne =>
          rw [if_neg hne] at hmono
          exact ⟨hmono.1, fun _ h => by cases h⟩

theorem spot_injective {bytes p q : Nat} (hp : p ≤ hmLength (bytes * 8) + bytes * 8)
    (hq : q ≤ hmLength (bytes * 8) + bytes * 8)
    (h : spot (hmLength (bytes * 8)) p = spot (hmLength (bytes * 8)) q) : p = q := by
  cases p with
  | zero =>
      by_contra hne
      exact (spot_valid hq).2 (Ne.symm hne) h.symm
  | succ m =>
      cases q with
      | zero => exact absurd h ((spot_valid hp).2 (Nat.succ_ne_zero m))
      | succ n =>
          rcases Nat.lt_trichotomy m n with hlt | rfl | hgt
          · exact absurd h (spot_succ_ne hlt)
          · rfl
          · exact absurd h.symm (spot_succ_ne hgt)

/-- Every place has a position. -/
theorem exists_spot {bytes : Nat} {s : Spot} (hs : s.Valid bytes (hmLength (bytes * 8))) :
    ∃ p, p ≤ hmLength (bytes * 8) + bytes * 8 ∧ spot (hmLength (bytes * 8)) p = s := by
  have hwalk := walk_hmLength (bytes * 8)
  cases s with
  | data d =>
      obtain ⟨p, _, hp, h⟩ := spot_data (r := hmLength (bytes * 8))
        (show d < (walk (hmLength (bytes * 8) + bytes * 8)).1 by rw [hwalk]; exact hs)
      exact ⟨p, hp, h⟩
  | check i =>
      rcases Nat.lt_or_eq_of_le (show i ≤ hmLength (bytes * 8) from hs) with hi | rfl
      · obtain ⟨p, _, hp, h⟩ := spot_check (r := hmLength (bytes * 8))
          (show i < (walk (hmLength (bytes * 8) + bytes * 8)).2 by rw [hwalk]; exact hi)
        exact ⟨p, hp, h⟩
      · exact ⟨0, Nat.zero_le _, rfl⟩

/-! ## Words -/

/-- The bit at a place. -/
def Block.read (b : Block) : Spot → Bool
  | .data d => (b.bits.getD (d / 8) 0).getLsbD (7 - d % 8)
  | .check i => b.c.getD i '0' == '1'

/-- Flip the bit at a place. -/
def Block.flip (b : Block) : Spot → Block
  | .data d => { b with bits := b.bits.modify (d / 8) (· ^^^ (1 : BitVec 8) <<< (7 - d % 8)) }
  | .check i => { b with c := b.c.modify i flipChar }

/-- A block as the encoder makes it: `r + 1` check characters, each `'0'` or `'1'`. -/
structure Block.WellFormed (b : Block) (r : Nat) : Prop where
  length_c : b.c.length = r + 1
  digits : ∀ ch ∈ b.c, ch = '0' ∨ ch = '1'
  r_eq : r = hmLength (b.bits.length * 8)

/-- The positions of a block that hold a one. -/
def Block.support (b : Block) (r : Nat) : Finset Nat :=
  (Finset.range (r + b.bits.length * 8 + 1)).filter fun p => b.read (spot r p)

@[simp] theorem Block.mem_support {b : Block} {r p : Nat} :
    p ∈ b.support r ↔ p ≤ r + b.bits.length * 8 ∧ b.read (spot r p) = true := by
  rw [support, Finset.mem_filter, Finset.mem_range, Nat.lt_succ_iff]

theorem Block.dataBit_eq (b : Block) (d : Nat) : b.dataBit d = (b.read (.data d)).toNat := by
  rw [dataBit, toNat_shift_and_one]
  rfl

@[simp] theorem Block.flip_length_bits (b : Block) (s : Spot) :
    (b.flip s).bits.length = b.bits.length := by
  cases s <;> simp [flip]

@[simp] theorem Block.flip_length_c (b : Block) (s : Spot) :
    (b.flip s).c.length = b.c.length := by
  cases s <;> simp [flip]

theorem Block.WellFormed.digit_c {b : Block} {r : Nat} (h : b.WellFormed r) {i : Nat}
    (hi : i ≤ r) : digit (b.c.getD i '0') = (b.read (.check i)).toNat := by
  have hlt : i < b.c.length := by rw [h.length_c]; omega
  have hget : b.c.getD i '0' = b.c[i] := List.getD_eq_getElem _ _ hlt
  rw [read, hget]
  rcases h.digits _ (List.getElem_mem hlt) with h0 | h1
  · rw [h0]; rfl
  · rw [h1]; rfl

theorem Block.WellFormed.flip {b : Block} {r : Nat} (h : b.WellFormed r) (s : Spot) :
    (b.flip s).WellFormed r where
  length_c := by rw [Block.flip_length_c, h.length_c]
  digits := by
    cases s with
    | data d => exact h.digits
    | check i =>
        intro ch hch
        obtain ⟨j, hj, rfl⟩ := List.mem_iff_getElem.mp hch
        simp only [Block.flip, List.getElem_modify]
        split
        · unfold flipChar
          split <;> simp
        · exact h.digits _ (List.getElem_mem _)
  r_eq := by rw [Block.flip_length_bits]; exact h.r_eq

theorem getLsbD_one_shiftLeft {j k : Nat} (hj : j < 8) (hk : k < 8) :
    ((1 : BitVec 8) <<< k).getLsbD j = decide (j = k) := by
  interval_cases j <;> interval_cases k <;> rfl

/-- A flip changes the bit at its place and no other one. -/
theorem Block.read_flip {b : Block} {r : Nat} (h : b.WellFormed r) {s t : Spot}
    (hs : s.Valid b.bits.length r) :
    (b.flip s).read t = (b.read t ^^ decide (t = s)) := by
  cases s with
  | data d =>
      cases t with
      | check i => simp [flip, read]
      | data e =>
          have hd : d / 8 < b.bits.length := by
            have : d < b.bits.length * 8 := hs
            omega
          simp only [flip, read, Spot.data.injEq, List.getD_eq_getElem?_getD,
            List.getElem?_modify]
          -- only the byte of the bit changes, and there only the bit
          by_cases hb : d / 8 = e / 8
          · simp only [← hb, List.getElem?_eq_getElem hd]
            show (b.bits[d / 8] ^^^ (1 : BitVec 8) <<< (7 - d % 8)).getLsbD (7 - e % 8) = _
            rw [BitVec.getLsbD_xor, getLsbD_one_shiftLeft (by omega) (by omega)]
            congr 1
            exact decide_eq_decide.mpr ⟨fun _ => by omega, fun _ => by omega⟩
          · have hne : e ≠ d := fun he => hb (by rw [he])
            simp [hb, hne]
  | check i =>
      cases t with
      | data e => simp [flip, read]
      | check j =>
          have hi : i < b.c.length := by rw [h.length_c]; exact Nat.lt_succ_of_le hs
          simp only [flip, read, Spot.check.injEq, List.getD_eq_getElem?_getD,
            List.getElem?_modify]
          -- a check character is 0 or 1, so flipping it negates what is read
          by_cases hij : i = j
          · subst hij
            rw [List.getElem?_eq_getElem hi]
            rcases h.digits _ (List.getElem_mem hi) with h0 | h1
            · simp [h0]
            · simp [h1]
          · have hne : j ≠ i := Ne.symm hij
            simp [hij, hne]

theorem Block.support_flip {b : Block} {r p : Nat} (h : b.WellFormed r)
    (hp : p ≤ r + b.bits.length * 8) :
    (b.flip (spot r p)).support r = b.support r ∆ {p} := by
  obtain rfl := h.r_eq
  ext q
  rw [Finset.mem_symmDiff, mem_support, mem_support, Finset.mem_singleton, flip_length_bits,
    read_flip h (spot_valid hp).1]
  by_cases hq : q ≤ hmLength (b.bits.length * 8) + b.bits.length * 8
  · by_cases hqp : q = p
    · subst hqp
      simp [hq]
    · have hne : spot (hmLength (b.bits.length * 8)) q ≠ spot (hmLength (b.bits.length * 8)) p :=
        fun hs => hqp (spot_injective hq hp hs)
      simp [hq, hqp, hne]
  · have hqp : q ≠ p := fun he => hq (he ▸ hp)
    simp [hq, hqp]

/-- A block is its support. -/
theorem Block.support_injective {b b' : Block} {r : Nat} (h : b.WellFormed r)
    (h' : b'.WellFormed r) (hlen : b.bits.length = b'.bits.length)
    (hsup : b.support r = b'.support r) : b = b' := by
  have hread : ∀ s : Spot, s.Valid b.bits.length r → b.read s = b'.read s := by
    intro s hs
    obtain rfl := h.r_eq
    -- each place has a position, so the supports tell what is read there
    obtain ⟨p, hp, rfl⟩ := exists_spot hs
    have hmem := Finset.ext_iff.mp hsup p
    rw [mem_support, mem_support, ← hlen] at hmem
    exact Bool.eq_iff_iff.mpr ⟨fun h1 => (hmem.mp ⟨hp, h1⟩).2, fun h1 => (hmem.mpr ⟨hp, h1⟩).2⟩
  have hbits : b.bits = b'.bits := by
    apply List.ext_getElem hlen
    intro n hn hn'
    apply BitVec.eq_of_getLsbD_eq
    intro j hj
    have := hread (.data (n * 8 + (7 - j))) (show n * 8 + (7 - j) < b.bits.length * 8 by omega)
    rw [read, read, show (n * 8 + (7 - j)) / 8 = n by omega,
      show 7 - (n * 8 + (7 - j)) % 8 = j by omega] at this
    simpa [hn, hn'] using this
  have hc : b.c = b'.c := by
    apply List.ext_getElem (by rw [h.length_c, h'.length_c])
    intro i hi hi'
    have := hread (.check i) (show i ≤ r by rw [h.length_c] at hi; omega)
    simp only [read, List.getD_eq_getElem?_getD, List.getElem?_eq_getElem hi,
      List.getElem?_eq_getElem hi', Option.getD_some] at this
    rcases h.digits _ (List.getElem_mem hi) with h0 | h1 <;>
      rcases h'.digits _ (List.getElem_mem hi') with h0' | h1' <;>
        simp_all
  cases b
  cases b'
  exact congrArg₂ Block.mk hbits hc

/-! ## Syndrome and parity of a block -/

theorem walkSum_succ (value : Nat → Int) (i n : Nat) :
    walkSum value i (n + 1) = sumStep value i (walkSum value i n) (n + 1) := by
  rw [walkSum, List.range'_1_concat, List.foldl_append, Nat.add_comm 1 n]
  rfl

theorem walkSum_snd (value : Nat → Int) (i n : Nat) : (walkSum value i n).2 = walk n := by
  induction n with
  | zero => rfl
  | succ n ih =>
      rw [walkSum_succ, sumStep, walk, ← ih]
      split <;> rfl

/-- Bit `i` of the positions with a one, counted up to position `n`: what the walk adds
    up, and the check character `i` itself once the walk has passed it. -/
theorem walkSum_eq (b : Block) (r i n : Nat) :
    (walkSum b.dataBit i n).1 + (if i < (walk n).2 then ((b.read (.check i)).toNat : Int) else 0) =
      ((∑ m ∈ Finset.range n, (b.read (spot r (m + 1))).toNat * ((m + 1).testBit i).toNat : Nat) :
        Int) := by
  induction n with
  | zero => rfl
  | succ n ih =>
      rw [Finset.sum_range_succ, Nat.cast_add, ← ih, walkSum_succ, sumStep, walk, spot,
        walkSum_snd]
      split
      · next heq =>
          -- the check character `(walk n).2` stands at `n + 1`
          have hbit : ((n + 1).testBit i).toNat = if i = (walk n).2 then 1 else 0 := by
            rw [heq, Nat.testBit_two_pow]
            by_cases h : (walk n).2 = i
            · simp [h]
            · simp [h, Ne.symm h]
          rw [hbit]
          show (walkSum b.dataBit i n).1 + (if i < (walk n).2 + 1 then _ else 0) = _
          by_cases hi : i = (walk n).2
          · subst hi
            simp
          · by_cases hlt : i < (walk n).2
            · rw [if_pos (by omega), if_pos hlt, if_neg hi]
              simp
            · rw [if_neg (by omega), if_neg hlt, if_neg hi]
              simp
      · simp only [walk_factor, b.dataBit_eq]
        push_cast
        ring

/-- Ones up to position `n`: data bits and check characters. -/
theorem sum_read_spot (b : Block) (r n : Nat) :
    ∑ m ∈ Finset.range n, (b.read (spot r (m + 1))).toNat =
      ∑ d ∈ Finset.range (walk n).1, (b.read (.data d)).toNat +
        ∑ i ∈ Finset.range (walk n).2, (b.read (.check i)).toNat := by
  induction n with
  | zero => rfl
  | succ n ih =>
      rw [Finset.sum_range_succ, ih, walk, spot]
      split
      · rw [Finset.sum_range_succ _ (walk n).2]
        ring
      · rw [Finset.sum_range_succ _ (walk n).1]
        ring

theorem sum_support (b : Block) (r : Nat) (f : Nat → Nat) :
    ∑ p ∈ b.support r, f p =
      (b.read (.check r)).toNat * f 0 +
        ∑ m ∈ Finset.range (r + b.bits.length * 8),
          (b.read (spot r (m + 1))).toNat * f (m + 1) := by
  rw [Block.support, Finset.sum_filter, Finset.sum_range_succ', Nat.add_comm]
  congr 1
  · show (if b.read (.check r) = true then f 0 else 0) = _
    cases b.read (.check r) <;> simp
  · apply Finset.sum_congr rfl
    intro m _
    cases b.read (spot r (m + 1)) <;> simp

/-- Check `i` does not agree with the data. -/
def Block.mismatch (b : Block) (r i : Nat) : Bool :=
  decide ((walkSum b.dataBit i (r + b.bits.length * 8)).1.tmod 2 ≠ digit (b.c.getD i '0'))

/-- All ones of the block but the parity character, as `hamming_verify_bit` counts them. -/
def Block.ones (b : Block) (r : Nat) : Int :=
  (b.bits.map fun x => ((List.range 8).map fun j => (((x >>> j) &&& 1).toNat : Int)).sum).sum +
    ((List.range r).map fun i => digit (b.c.getD i '0')).sum

/-- The parity character does not agree with the rest. -/
def Block.parityMismatch (b : Block) (r : Nat) : Bool :=
  decide ((b.ones r).tmod 2 ≠ digit (b.c.getD r '0'))

theorem hammingVerifyBit_eq (b : Block) (r : Nat) :
    hammingVerifyBit b r =
      (List.range r).map (fun i => if b.mismatch r i then '1' else '0') ++
        [if b.parityMismatch r then '1' else '0'] := by
  have hsome : ∀ i, (if b.mismatch r i then '1' else '0') =
      if (walkSum b.dataBit i (r + b.bits.length * 8)).1.tmod 2 = digit (b.c.getD i '0') then '0'
      else '1' := by
    intro i
    by_cases h : (walkSum b.dataBit i (r + b.bits.length * 8)).1.tmod 2 = digit (b.c.getD i '0')
    all_goals simp [Block.mismatch, h]
  have hlast : (if b.parityMismatch r then '1' else '0') =
      if (b.ones r).tmod 2 = digit (b.c.getD r '0') then '0' else '1' := by
    by_cases h : (b.ones r).tmod 2 = digit (b.c.getD r '0') <;> simp [Block.parityMismatch, h]
  simp only [hsome, hlast]
  rfl

theorem sum_map_range (f : Nat → Int) (n : Nat) :
    ((List.range n).map f).sum = ∑ i ∈ Finset.range n, f i := rfl

theorem sum_digit_eq (p : Nat → Bool) (r : Nat) (tail : List Char) :
    ((List.range r).map fun i =>
      digit (((List.range r).map (fun i => if p i then '1' else '0') ++ tail).getD i '0') *
        2 ^ i).sum = ((∑ i ∈ Finset.range r, (p i).toNat * 2 ^ i : Nat) : Int) := by
  have hmap : (List.range r).map (fun i =>
      digit (((List.range r).map (fun i => if p i then '1' else '0') ++ tail).getD i '0') *
        2 ^ i) = (List.range r).map fun i => (((p i).toNat * 2 ^ i : Nat) : Int) := by
    apply List.map_congr_left
    intro i hi
    have hir : i < r := List.mem_range.mp hi
    rw [List.getD_eq_getElem?_getD, List.getElem?_append_left (by simpa using hir)]
    simp only [List.getElem?_map, List.getElem?_range hir, Option.map_some, Option.getD_some]
    cases p i <;> simp
  rw [hmap, sum_map_range, Nat.cast_sum]

/-- What `error_info` makes of a list of marks. -/
theorem errorInfo_eq (p : Nat → Bool) (q : Bool) (r : Nat) :
    errorInfo ((List.range r).map (fun i => if p i then '1' else '0') ++
        [if q then '1' else '0']) r =
      (if ∑ i ∈ Finset.range r, (p i).toNat * 2 ^ i = 0 then (if q then 2 else 0)
        else (if q then 3 else 1),
        ((∑ i ∈ Finset.range r, (p i).toNat * 2 ^ i : Nat) : Int)) := by
  have hlast : ((List.range r).map (fun i => if p i then '1' else '0') ++
      [if q then '1' else '0']).getD r '0' = if q then '1' else '0' := by
    rw [List.getD_eq_getElem?_getD, List.getElem?_append_right (by simp)]
    simp
  rw [errorInfo, sum_digit_eq, hlast]
  generalize ∑ i ∈ Finset.range r, (p i).toNat * 2 ^ i = N
  by_cases hN : N = 0
  · subst hN
    cases q <;> rfl
  · have hpos : ((N : Nat) : Int) > 0 := by omega
    have hne : ((N : Nat) : Int) ≠ 0 := by omega
    cases q <;> simp [hN, Nat.pos_of_ne_zero hN]

theorem sum_testBit (x r : Nat) :
    ∑ i ∈ Finset.range r, (x.testBit i).toNat * 2 ^ i = x % 2 ^ r := by
  induction r with
  | zero => simp [Nat.mod_one]
  | succ r ih =>
      rw [Finset.sum_range_succ, ih, Nat.pow_succ, Nat.mod_mul, Nat.toNat_testBit]
      ring

/-- `(x >> j) & 1` over a byte, from either end. -/
theorem sum_byte (x : BitVec 8) :
    ((List.range 8).map fun j => (((x >>> j) &&& 1).toNat : Int)).sum =
      ((∑ j ∈ Finset.range 8, (x.getLsbD (7 - j)).toNat : Nat) : Int) := by
  rw [sum_map_range]
  simp only [toNat_shift_and_one, Finset.sum_range_succ, Finset.sum_range_zero]
  push_cast
  ring

theorem sum_bytes (bits : List (BitVec 8)) :
    (bits.map fun x => ((List.range 8).map fun j => (((x >>> j) &&& 1).toNat : Int)).sum).sum =
      ((∑ d ∈ Finset.range (bits.length * 8),
        ((bits.getD (d / 8) 0).getLsbD (7 - d % 8)).toNat : Nat) : Int) := by
  induction bits with
  | nil => rfl
  | cons x bits ih =>
      have hhead : ∀ d ∈ Finset.range 8,
          (((x :: bits).getD (d / 8) 0).getLsbD (7 - d % 8)).toNat =
            (x.getLsbD (7 - d)).toNat := by
        intro d hd
        have hd8 : d < 8 := Finset.mem_range.mp hd
        rw [show d / 8 = 0 by omega, Nat.mod_eq_of_lt hd8]
        rfl
      -- the bits behind the first byte are those of the other bytes
      have htail : ∀ d ∈ Finset.range (bits.length * 8),
          (((x :: bits).getD ((8 + d) / 8) 0).getLsbD (7 - (8 + d) % 8)).toNat =
            ((bits.getD (d / 8) 0).getLsbD (7 - d % 8)).toNat := by
        intro d _
        rw [show (8 + d) / 8 = d / 8 + 1 by omega, show (8 + d) % 8 = d % 8 by omega]
        rfl
      rw [List.map_cons, List.sum_cons, ih, sum_byte, List.length_cons,
        show (bits.length + 1) * 8 = 8 + bits.length * 8 by omega, Finset.sum_range_add,
        Finset.sum_congr rfl hhead, Finset.sum_congr rfl htail, Nat.cast_add]

theorem Block.WellFormed.walk_eq {b : Block} {r : Nat} (h : b.WellFormed r) :
    walk (r + b.bits.length * 8) = (b.bits.length * 8, r) := by
  rw [h.r_eq]
  exact walk_hmLength _

theorem Block.WellFormed.ones_eq {b : Block} {r : Nat} (h : b.WellFormed r) :
    b.ones r = ((∑ d ∈ Finset.range (b.bits.length * 8), (b.read (.data d)).toNat +
      ∑ i ∈ Finset.range r, (b.read (.check i)).toNat : Nat) : Int) := by
  have hchecks : ((List.range r).map fun i => digit (b.c.getD i '0')).sum =
      ((∑ i ∈ Finset.range r, (b.read (.check i)).toNat : Nat) : Int) := by
    rw [sum_map_range, Nat.cast_sum]
    apply Finset.sum_congr rfl
    intro i hi
    exact h.digit_c (Nat.le_of_lt (Finset.mem_range.mp hi))
  rw [Block.ones, sum_bytes, hchecks, Nat.cast_add]
  rfl

theorem Block.WellFormed.ones_add {b : Block} {r : Nat} (h : b.WellFormed r) :
    b.ones r + digit (b.c.getD r '0') = ((b.support r).card : Int) := by
  have hsum := sum_support b r fun _ => 1
  simp only [Nat.mul_one] at hsum
  rw [h.ones_eq, h.digit_c (le_refl r), Finset.card_eq_sum_ones, hsum, sum_read_spot, h.walk_eq]
  push_cast
  ring

theorem Block.WellFormed.walkSum_add {b : Block} {r i : Nat} (h : b.WellFormed r) (hi : i < r) :
    (walkSum b.dataBit i (r + b.bits.length * 8)).1 + digit (b.c.getD i '0') =
      ((∑ p ∈ b.support r, (p.testBit i).toNat : Nat) : Int) := by
  have hsum := walkSum_eq b r i (r + b.bits.length * 8)
  rw [h.walk_eq, if_pos hi] at hsum
  rw [h.digit_c (Nat.le_of_lt hi), hsum, sum_support]
  simp

theorem walkSum_nonneg (b : Block) (i n : Nat) : 0 ≤ (walkSum b.dataBit i n).1 := by
  induction n with
  | zero => exact le_refl 0
  | succ n ih =>
      rw [walkSum_succ, sumStep]
      split
      · exact ih
      · simp only [b.dataBit_eq]
        exact add_nonneg ih (mul_nonneg (Int.natCast_nonneg _) (Int.natCast_nonneg _))

/-- A sum and a digit differ modulo two exactly if they add up to an odd number. -/
theorem tmod_two_ne {s : Int} {x : Bool} (hs : 0 ≤ s) :
    decide (s.tmod 2 ≠ x.toNat) = decide ((s + x.toNat) % 2 = 1) := by
  rw [Int.tmod_eq_emod_of_nonneg hs]
  apply decide_eq_decide.mpr
  cases x with
  | false =>
      simp only [Bool.toNat_false, Nat.cast_zero, add_zero]
      omega
  | true =>
      simp only [Bool.toNat_true, Nat.cast_one]
      omega

theorem Block.WellFormed.mismatch_eq {b : Block} {r i : Nat} (h : b.WellFormed r) (hi : i < r) :
    b.mismatch r i = (xorSum (b.support r)).testBit i := by
  have hsum := h.walkSum_add hi
  rw [h.digit_c (Nat.le_of_lt hi)] at hsum
  rw [Block.mismatch, h.digit_c (Nat.le_of_lt hi), tmod_two_ne (walkSum_nonneg b i _), hsum]
  have hbit := toNat_testBit_xorSum (b.support r) i
  cases hx : (xorSum (b.support r)).testBit i <;> rw [hx] at hbit
  · have heven : 0 = (∑ p ∈ b.support r, (p.testBit i).toNat) % 2 := hbit
    exact decide_eq_false (by omega)
  · have hodd : 1 = (∑ p ∈ b.support r, (p.testBit i).toNat) % 2 := hbit
    exact decide_eq_true (by omega)

theorem Block.WellFormed.parityMismatch_eq {b : Block} {r : Nat} (h : b.WellFormed r) :
    b.parityMismatch r = oddParity (b.support r) := by
  have hsum := h.ones_add
  rw [h.digit_c (le_refl r)] at hsum
  have hnonneg : 0 ≤ b.ones r := by
    rw [h.ones_eq]
    exact Int.natCast_nonneg _
  rw [Block.parityMismatch, h.digit_c (le_refl r), tmod_two_ne hnonneg, hsum, oddParity]
  apply decide_eq_decide.mpr
  omega

theorem Block.WellFormed.xorSum_lt {b : Block} {r : Nat} (h : b.WellFormed r) :
    xorSum (b.support r) < 2 ^ r := by
  apply Secded.xorSum_lt
  intro p hp
  obtain rfl := h.r_eq
  exact lt_of_le_of_lt (Block.mem_support.mp hp).1 (hmLength_spec _).1

/-! ## The decoder on a block -/

/-- The repair flips the place at the error position, if the walk gets there. -/
theorem hammingRectifyBitLoop_eq {b : Block} {r p : Nat} (m n : Nat) (hp : m < p) :
    hammingRectifyBitLoop p (List.range' (m + 1) n) (walk m).1 (walk m).2 b =
      if p ≤ m + n then b.flip (spot r p) else b := by
  -- the counters at position `m + 1` are those of the walk up to `m`
  induction n generalizing m with
  | zero => rw [if_neg (by omega)]; rfl
  | succ n ih =>
      rw [List.range'_succ, hammingRectifyBitLoop]
      by_cases hmp : m + 1 = p
      · subst hmp
        rw [if_pos (show m + 1 ≤ m + (n + 1) by omega), spot]
        split <;> simp [Block.flip]
      · have hne : ((m + 1 : Nat) : Int) ≠ p := by exact_mod_cast hmp
        have hstep := ih (m + 1) (by omega)
        rw [walk] at hstep
        simp only [if_neg hne, show m + (n + 1) = m + 1 + n by omega]
        split
        · next heq =>
            rw [if_pos heq] at hstep
            exact hstep
        · next heq =>
            rw [if_neg heq] at hstep
            exact hstep

theorem hammingRectifyBit_eq {b : Block} {r p : Nat} (hp : 0 < p) :
    hammingRectifyBit b r p =
      if p ≤ r + b.bits.length * 8 then b.flip (spot r p) else b := by
  have h := hammingRectifyBitLoop_eq (b := b) (r := r) 0 (r + b.bits.length * 8) hp
  rw [Nat.zero_add, Nat.zero_add] at h
  exact h

/-- The decoder does to the block what its verdict says. -/
theorem hammingDecode_eq {b : Block} {r : Nat} (h : b.WellFormed r) :
    hammingDecode b r =
      match verdict (b.support r) with
      | .clean => (0, b)
      | .double => (1, b)
      | .parity => (2, b.flip (.check r))
      | .single p => (3, if p ≤ r + b.bits.length * 8 then b.flip (spot r p) else b) := by
  -- the mismatches spell the exclusive or of the positions
  have hpos : ∑ i ∈ Finset.range r, (b.mismatch r i).toNat * 2 ^ i = xorSum (b.support r) := by
    have hcongr : ∑ i ∈ Finset.range r, (b.mismatch r i).toNat * 2 ^ i =
        ∑ i ∈ Finset.range r, ((xorSum (b.support r)).testBit i).toNat * 2 ^ i := by
      apply Finset.sum_congr rfl
      intro i hi
      rw [h.mismatch_eq (Finset.mem_range.mp hi)]
    rw [hcongr, sum_testBit, Nat.mod_eq_of_lt h.xorSum_lt]
  simp only [hammingDecode, hammingVerifyBit_eq, errorInfo_eq, hpos, h.parityMismatch_eq, verdict]
  by_cases hx : xorSum (b.support r) = 0
  · cases oddParity (b.support r) <;> simp [hx, Block.flip]
  · cases oddParity (b.support r)
    · simp [hx]
    · simp [hx, hammingRectifyBit_eq (Nat.pos_of_ne_zero hx)]

/-! ## The encoder -/

theorem digit_injective : Function.Injective digit := by
  intro a b h
  apply Char.toNat_inj.mp
  unfold digit at h
  omega

theorem digit_toChar {m : Int} (hlo : -1 ≤ m) (hhi : m ≤ 1) : digit (toChar m) = m := by
  obtain rfl | rfl | rfl : m = -1 ∨ m = 0 ∨ m = 1 := by omega
  all_goals rfl

theorem digit_toChar_tmod (s : Int) : digit (toChar (s.tmod 2)) = s.tmod 2 := by
  have hlo := Int.lt_tmod_of_pos s (show (0 : Int) < 2 by decide)
  have hhi := Int.tmod_lt_of_pos s (show (0 : Int) < 2 by decide)
  exact digit_toChar (by omega) (by omega)

theorem digit_castBitsToChar (bits : List (BitVec 8)) (c : List Char) (d : Nat) :
    digit ((castBitsToChar bits).getD d '0') = (Block.mk bits c).dataBit d := by
  induction bits generalizing d with
  | nil => simp [castBitsToChar, Block.dataBit]
  | cons x bits ih =>
      have hcons : castBitsToChar (x :: bits) =
          (List.range 8).map (fun j => toChar ((x >>> (7 - j)) &&& 1).toNat) ++
            castBitsToChar bits := List.flatMap_cons
      rw [hcons, List.getD_eq_getElem?_getD]
      by_cases hd : d < 8
      · rw [List.getElem?_append_left (by simpa using hd), List.getElem?_map,
          List.getElem?_range hd, Option.map_some, Option.getD_some, toNat_shift_and_one,
          Block.dataBit_eq, Block.read, show d / 8 = 0 by omega, Nat.mod_eq_of_lt hd]
        exact digit_toChar (by cases x.getLsbD (7 - d) <;> decide)
          (by cases x.getLsbD (7 - d) <;> decide)
      · rw [List.getElem?_append_right (by simpa using hd), List.length_map, List.length_range,
          ← List.getD_eq_getElem?_getD, ih, Block.dataBit_eq, Block.dataBit_eq, Block.read,
          Block.read, show d / 8 = (d - 8) / 8 + 1 by omega, show (d - 8) % 8 = d % 8 by omega]
        rfl

/-- The characters of a block add up to the bits of its bytes. -/
theorem sum_digit_castBitsToChar (bits : List (BitVec 8)) :
    ((List.range (bits.length * 8)).map fun i => digit ((castBitsToChar bits).getD i '0')).sum =
      (bits.map fun x =>
        ((List.range 8).map fun j => (((x >>> j) &&& 1).toNat : Int)).sum).sum := by
  rw [sum_bytes, sum_map_range, Nat.cast_sum]
  apply Finset.sum_congr rfl
  intro d _
  rw [digit_castBitsToChar bits [], Block.dataBit_eq]
  rfl

@[simp] theorem hammingEncode_snd (bits : List (BitVec 8)) :
    (hammingEncode bits).2 = hmLength (bits.length * 8) := rfl

@[simp] theorem hammingChecks_length (data : List Char) (k r : Nat) :
    (hammingChecks data k r).length = r := by
  simp [hammingChecks]

@[simp] theorem hammingEncode_length (bits : List (BitVec 8)) :
    (hammingEncode bits).1.length = hmLength (bits.length * 8) + 1 := by
  simp [hammingEncode, hammingCode]

theorem hammingEncode_getD {bits : List (BitVec 8)} {i : Nat}
    (hi : i < hmLength (bits.length * 8)) :
    (hammingEncode bits).1.getD i '0' =
      (hammingChecks (castBitsToChar bits) (bits.length * 8)
        (hmLength (bits.length * 8))).getD i '0' := by
  simp only [hammingEncode, hammingCode]
  rw [List.getD_eq_getElem?_getD, List.getElem?_append_left (by simpa using hi),
    ← List.getD_eq_getElem?_getD]

/-- The check characters hold the sums of the walk. -/
theorem digit_hammingEncode (bits : List (BitVec 8)) (c : List Char) {i : Nat}
    (hi : i < hmLength (bits.length * 8)) :
    digit ((hammingEncode bits).1.getD i '0') =
      (walkSum (Block.mk bits c).dataBit i
        (hmLength (bits.length * 8) + bits.length * 8)).1.tmod 2 := by
  have hvalue : (fun dnum => digit ((castBitsToChar bits).getD dnum '0')) =
      (Block.mk bits c).dataBit := funext fun d => digit_castBitsToChar bits c d
  have hnonneg := walkSum_nonneg (Block.mk bits c) i (hmLength (bits.length * 8) + bits.length * 8)
  rw [hammingEncode_getD hi, hammingChecks, List.getD_eq_getElem?_getD, List.getElem?_map,
    List.getElem?_range hi, Option.map_some, Option.getD_some, hvalue,
    Int.tmod_eq_emod_of_nonneg hnonneg]
  split
  · next h => rw [h]; rfl
  · next h => rw [digit_one]; omega

/-- The parity character holds the parity of the block. -/
theorem digit_hammingEncode_parity {bits : List (BitVec 8)} {c : List Char}
    (hc : ∀ i < hmLength (bits.length * 8), c.getD i '0' = (hammingEncode bits).1.getD i '0') :
    digit ((hammingEncode bits).1.getD (hmLength (bits.length * 8)) '0') =
      ((Block.mk bits c).ones (hmLength (bits.length * 8))).tmod 2 := by
  have hchecks : (List.range (hmLength (bits.length * 8))).map (fun i => digit (c.getD i '0')) =
      (List.range (hmLength (bits.length * 8))).map fun i =>
        digit ((hammingChecks (castBitsToChar bits) (bits.length * 8)
          (hmLength (bits.length * 8))).getD i '0') := by
    apply List.map_congr_left
    intro i hi
    rw [hc i (List.mem_range.mp hi), hammingEncode_getD (List.mem_range.mp hi)]
  simp only [hammingEncode, hammingCode]
  rw [List.getD_eq_getElem?_getD, List.getElem?_append_right (by simp), hammingChecks_length,
    Nat.sub_self, List.getElem?_cons_zero, Option.getD_some, Block.ones, hchecks,
    sum_digit_castBitsToChar]
  exact digit_toChar_tmod _

/-- The verifier finds no mismatch exactly on the encoder's characters. -/
theorem agrees_iff {b : Block} (hlen : b.c.length = hmLength (b.bits.length * 8) + 1) :
    ((∀ i < hmLength (b.bits.length * 8), b.mismatch (hmLength (b.bits.length * 8)) i = false) ∧
      b.parityMismatch (hmLength (b.bits.length * 8)) = false) ↔
      b.c = (hammingEncode b.bits).1 := by
  have hcheck : ∀ i < hmLength (b.bits.length * 8),
      b.mismatch (hmLength (b.bits.length * 8)) i = false ↔
        b.c.getD i '0' = (hammingEncode b.bits).1.getD i '0' := by
    intro i hi
    rw [Block.mismatch, decide_eq_false_iff_not, not_not, ← digit_hammingEncode b.bits b.c hi]
    exact ⟨fun h => (digit_injective h).symm, fun h => by rw [h]⟩
  -- the parity character is compared with one over the checks that are there
  have hparity : (∀ i < hmLength (b.bits.length * 8),
      b.c.getD i '0' = (hammingEncode b.bits).1.getD i '0') →
      (b.parityMismatch (hmLength (b.bits.length * 8)) = false ↔
        b.c.getD (hmLength (b.bits.length * 8)) '0' =
          (hammingEncode b.bits).1.getD (hmLength (b.bits.length * 8)) '0') := by
    intro hc
    rw [Block.parityMismatch, decide_eq_false_iff_not, not_not,
      ← digit_hammingEncode_parity (c := b.c) hc]
    exact ⟨fun h => (digit_injective h).symm, fun h => by rw [h]⟩
  constructor
  · rintro ⟨hall, hlast⟩
    have hc := fun i hi => (hcheck i hi).mp (hall i hi)
    apply List.ext_getElem (by rw [hlen, hammingEncode_length])
    intro i hi hi'
    have hget : b.c.getD i '0' = (hammingEncode b.bits).1.getD i '0' := by
      rcases Nat.lt_succ_iff_lt_or_eq.mp (hlen ▸ hi) with hlt | rfl
      · exact hc i hlt
      · exact (hparity hc).mp hlast
    rwa [List.getD_eq_getElem _ _ hi, List.getD_eq_getElem _ _ hi'] at hget
  · intro heq
    exact ⟨fun i hi => (hcheck i hi).mpr (by rw [heq]),
      (hparity fun i _ => by rw [heq]).mpr (by rw [heq])⟩

theorem ones_nonneg {b : Block} {r : Nat} (h : ∀ i < r, 0 ≤ digit (b.c.getD i '0')) :
    0 ≤ b.ones r := by
  rw [Block.ones, sum_bytes, sum_map_range]
  refine add_nonneg (Int.natCast_nonneg _) (Finset.sum_nonneg fun i hi => ?_)
  exact h i (Finset.mem_range.mp hi)

/-- The block that the encoder makes of some bytes. -/
def encodeBlock (bits : List (BitVec 8)) : Block := ⟨bits, (hammingEncode bits).1⟩

@[simp] theorem encodeBlock_bits (bits : List (BitVec 8)) : (encodeBlock bits).bits = bits := rfl

theorem encodeBlock_wellFormed (bits : List (BitVec 8)) :
    (encodeBlock bits).WellFormed (hmLength (bits.length * 8)) where
  length_c := hammingEncode_length bits
  digits := by
    have hagree := (agrees_iff (b := encodeBlock bits) (hammingEncode_length bits)).mpr rfl
    intro ch hch
    obtain ⟨i, hi, rfl⟩ := List.mem_iff_getElem.mp hch
    have hlen : i < hmLength (bits.length * 8) + 1 := by
      rw [← hammingEncode_length bits]
      exact hi
    have hget : (encodeBlock bits).c[i] = (hammingEncode bits).1.getD i '0' :=
      (List.getD_eq_getElem _ _ hi).symm
    -- a character whose digit is a remainder of a sum that is not negative
    have hbit : ∀ {s : Int}, 0 ≤ s → digit ((hammingEncode bits).1.getD i '0') = s.tmod 2 →
        (encodeBlock bits).c[i] = '0' ∨ (encodeBlock bits).c[i] = '1' := by
      intro s hs h
      rw [Int.tmod_eq_emod_of_nonneg hs] at h
      rw [hget]
      rcases Int.emod_two_eq_zero_or_one s with h0 | h1
      · exact .inl (digit_eq_zero (h.trans h0))
      · exact .inr (digit_eq_one (h.trans h1))
    rcases Nat.lt_succ_iff_lt_or_eq.mp hlen with hlt | rfl
    · exact hbit (walkSum_nonneg _ i _) (digit_hammingEncode bits (hammingEncode bits).1 hlt)
    · refine hbit (ones_nonneg fun j hj => ?_)
        (digit_hammingEncode_parity (c := (hammingEncode bits).1) fun _ _ => rfl)
      show 0 ≤ digit ((hammingEncode bits).1.getD j '0')
      rw [digit_hammingEncode bits (hammingEncode bits).1 hj]
      exact Int.tmod_nonneg _ (walkSum_nonneg _ j _)
  r_eq := rfl

theorem encodeBlock_codeword (bits : List (BitVec 8)) :
    Codeword ((encodeBlock bits).support (hmLength (bits.length * 8))) := by
  have hwf := encodeBlock_wellFormed bits
  obtain ⟨hall, hlast⟩ := (agrees_iff (b := encodeBlock bits) (hammingEncode_length bits)).mpr rfl
  constructor
  · apply Nat.eq_of_testBit_eq
    intro i
    rw [Nat.zero_testBit]
    by_cases hi : i < hmLength (bits.length * 8)
    · rw [← hwf.mismatch_eq hi]
      exact hall i hi
    · apply Nat.testBit_lt_two_pow
      exact lt_of_lt_of_le hwf.xorSum_lt (Nat.pow_le_pow_right (by decide) (Nat.le_of_not_lt hi))
  · rw [← hwf.parityMismatch_eq]
    exact hlast

/-! ## The law of the code -/

theorem hammingDecode_fst_eq_zero {b : Block}
    (hlen : b.c.length = hmLength (b.bits.length * 8) + 1) :
    (hammingDecode b (hmLength (b.bits.length * 8))).1 = 0 ↔ b.c = (hammingEncode b.bits).1 := by
  rw [← agrees_iff hlen]
  simp only [hammingDecode, hammingVerifyBit_eq, errorInfo_eq]
  have hzero : ∑ i ∈ Finset.range (hmLength (b.bits.length * 8)),
      (b.mismatch (hmLength (b.bits.length * 8)) i).toNat * 2 ^ i = 0 ↔
      ∀ i < hmLength (b.bits.length * 8),
        b.mismatch (hmLength (b.bits.length * 8)) i = false := by
    simp [Finset.sum_eq_zero_iff]
  by_cases h0 : ∑ i ∈ Finset.range (hmLength (b.bits.length * 8)),
      (b.mismatch (hmLength (b.bits.length * 8)) i).toNat * 2 ^ i = 0
  · rw [if_pos h0]
    have hall := hzero.mp h0
    cases b.parityMismatch (hmLength (b.bits.length * 8))
    · simpa using hall
    · simp
  · rw [if_neg h0, ← hzero]
    cases b.parityMismatch (hmLength (b.bits.length * 8)) <;> simp [h0]

/-- One flip in the encoder's block. -/
theorem hammingDecode_flip {bits : List (BitVec 8)} {s : Spot}
    (hs : s.Valid bits.length (hmLength (bits.length * 8))) :
    hammingDecode ((encodeBlock bits).flip s) (hmLength (bits.length * 8)) =
      (if s = .check (hmLength (bits.length * 8)) then 2 else 3, encodeBlock bits) := by
  have hwf := encodeBlock_wellFormed bits
  obtain ⟨p, hp, rfl⟩ := exists_spot hs
  have hsup := Block.support_flip hwf hp
  have hback : ((encodeBlock bits).flip (spot (hmLength (bits.length * 8)) p)).flip
      (spot (hmLength (bits.length * 8)) p) = encodeBlock bits := by
    apply Block.support_injective ((hwf.flip _).flip _) hwf (by simp)
    rw [Block.support_flip (hwf.flip _) (by simpa using hp), hsup, symmDiff_symmDiff_cancel_right]
  rw [hammingDecode_eq (hwf.flip _), hsup, verdict_symmDiff (encodeBlock_codeword bits),
    verdict_singleton]
  by_cases h0 : p = 0
  · subst h0
    rw [spot] at hback ⊢
    simp [hback]
  · have hne := (spot_valid hp).2 h0
    simp only [if_neg h0, if_neg hne, Block.flip_length_bits, encodeBlock_bits, if_pos hp, hback]

/-- Two flips in the encoder's block. -/
theorem hammingDecode_flip_flip {bits : List (BitVec 8)} {s t : Spot}
    (hs : s.Valid bits.length (hmLength (bits.length * 8)))
    (ht : t.Valid bits.length (hmLength (bits.length * 8))) (hst : s ≠ t) :
    hammingDecode (((encodeBlock bits).flip s).flip t) (hmLength (bits.length * 8)) =
      (1, ((encodeBlock bits).flip s).flip t) := by
  have hwf := encodeBlock_wellFormed bits
  obtain ⟨p, hp, rfl⟩ := exists_spot hs
  obtain ⟨q, hq, rfl⟩ := exists_spot ht
  have hpq : p ≠ q := fun h => hst (by rw [h])
  have hpair : ({p} : Finset Nat) ∆ {q} = {p, q} := by
    rw [symmDiff_singleton_of_notMem (by simpa using Ne.symm hpq), Finset.pair_comm]
  rw [hammingDecode_eq ((hwf.flip _).flip _), Block.support_flip (hwf.flip _) (by simpa using hq),
    Block.support_flip hwf hp, symmDiff_assoc, hpair,
    verdict_symmDiff (encodeBlock_codeword bits), verdict_pair hpq]

/-- The block code corrects one error and detects two, and accepts its own words only. -/
theorem hamming_secded (bits : List (BitVec 8)) :
    (∀ (bits' : List (BitVec 8)) (c' : List Char), bits'.length = bits.length →
      c'.length = hmLength (8 * bits.length) + 1 →
      ((hammingDecode ⟨bits', c'⟩ (hammingEncode bits).2).1 = 0 ↔ c' = (hammingEncode bits').1) ∧
      ((hammingDecode ⟨bits', c'⟩ (hammingEncode bits).2).1 = 0 →
        (hammingDecode ⟨bits', c'⟩ (hammingEncode bits).2).2 = ⟨bits', c'⟩)) ∧
    (∀ s : Spot, s.Valid bits.length (hammingEncode bits).2 →
      hammingDecode (Block.flip ⟨bits, (hammingEncode bits).1⟩ s) (hammingEncode bits).2 =
        (if s = .check (hammingEncode bits).2 then 2 else 3, ⟨bits, (hammingEncode bits).1⟩)) ∧
    (∀ s t : Spot, s.Valid bits.length (hammingEncode bits).2 →
      t.Valid bits.length (hammingEncode bits).2 → s ≠ t →
      hammingDecode ((Block.flip ⟨bits, (hammingEncode bits).1⟩ s).flip t) (hammingEncode bits).2 =
        (1, (Block.flip ⟨bits, (hammingEncode bits).1⟩ s).flip t)) := by
  refine ⟨?_, fun s hs => hammingDecode_flip hs, fun s t hs ht => hammingDecode_flip_flip hs ht⟩
  intro bits' c' hbits hc
  rw [hammingEncode_snd, ← hbits]
  rw [Nat.mul_comm, ← hbits] at hc
  refine ⟨hammingDecode_fst_eq_zero (b := ⟨bits', c'⟩) hc, fun h => ?_⟩
  -- with type 0 neither repair is made
  have hne2 : ¬ (hammingDecode ⟨bits', c'⟩ (hmLength (bits'.length * 8))).1 = 2 := by omega
  have hne3 : ¬ (hammingDecode ⟨bits', c'⟩ (hmLength (bits'.length * 8))).1 = 3 := by omega
  simp only [hammingDecode] at hne2 hne3 ⊢
  rw [if_neg hne2, if_neg hne3]

/-- The two bytes `ca fe`, with a data bit, a check and the parity flipped in turn. -/
theorem hamming_secded_cafe :
    hammingDecode (Block.flip ⟨[0xca, 0xfe], (hammingEncode [0xca, 0xfe]).1⟩ (.data 9)) 5 =
      (3, ⟨[0xca, 0xfe], (hammingEncode [0xca, 0xfe]).1⟩) :=
  (hamming_secded [0xca, 0xfe]).2.1 (.data 9) (by decide)

end MpiApps.Fault
