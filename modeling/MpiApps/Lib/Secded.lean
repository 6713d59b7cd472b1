/-
  MpiApps.Lib.Secded

  Extended Hamming codes over sets of positions.

  A word is the set of its positions that hold a one.  Positions are numbered from
  one, as the syndrome counts them; position zero is the extra parity bit.  A word is
  a code word if the exclusive or of its positions is zero and it has an even number
  of them.  Errors are a set as well: the received word is the symmetric difference of
  the sent one and the errors, and the verdict of the decoder depends on the errors
  only (`verdict_symmDiff`).
-/

import Mathlib.Data.Finset.Fold
import Mathlib.Data.Finset.SymmDiff
import Mathlib.Data.Finset.Card
import Mathlib.Data.Nat.Bitwise
import Mathlib.Algebra.BigOperators.Group.Finset.Basic
import Mathlib.Tactic.Ring

namespace MpiApps.Secded

open scoped symmDiff

/-! ## Exclusive or and parity of a set of positions -/

/-- The exclusive or of the positions of a set. -/
def xorSum (A : Finset Nat) : Nat := A.fold (· ^^^ ·) 0 id

/-- The parity of the number of positions. -/
def oddParity (A : Finset Nat) : Bool := decide (A.card % 2 = 1)

@[simp] theorem xorSum_empty : xorSum ∅ = 0 := rfl

@[simp] theorem xorSum_singleton (p : Nat) : xorSum {p} = p := by
  simp [xorSum]

theorem xorSum_insert {A : Finset Nat} {p : Nat} (h : p ∉ A) :
    xorSum (insert p A) = p ^^^ xorSum A := by
  simp [xorSum, Finset.fold_insert h]

@[simp] theorem oddParity_empty : oddParity ∅ = false := rfl

@[simp] theorem oddParity_singleton (p : Nat) : oddParity {p} = true := by
  simp [oddParity]

theorem oddParity_insert {A : Finset Nat} {p : Nat} (h : p ∉ A) :
    oddParity (insert p A) = !oddParity A := by
  rw [oddParity, oddParity, Finset.card_insert_of_notMem h]
  rcases Nat.mod_two_eq_zero_or_one A.card with h2 | h2 <;> simp [Nat.add_mod, h2]

theorem symmDiff_empty (A : Finset Nat) : A ∆ ∅ = A := symmDiff_bot A

/-- Toggling a position that is not in the set inserts it. -/
theorem symmDiff_singleton_of_notMem {A : Finset Nat} {p : Nat} (h : p ∉ A) :
    A ∆ {p} = insert p A := by
  ext q
  simp only [Finset.mem_symmDiff, Finset.mem_singleton, Finset.mem_insert]
  constructor
  · rintro (⟨hq, _⟩ | ⟨rfl, _⟩)
    · exact .inr hq
    · exact .inl rfl
  · rintro (rfl | hq)
    · exact .inr ⟨rfl, h⟩
    · exact .inl ⟨hq, fun hqp => h (hqp ▸ hq)⟩

theorem xorSum_symmDiff_singleton (A : Finset Nat) (p : Nat) :
    xorSum (A ∆ {p}) = xorSum A ^^^ p := by
  by_cases h : p ∈ A
  · -- remove `p`: both sides are the sum of the rest
    obtain ⟨B, hB, rfl⟩ : ∃ B, p ∉ B ∧ A = B ∆ {p} :=
      ⟨A ∆ {p}, by simp [Finset.mem_symmDiff, h], by rw [symmDiff_symmDiff_cancel_right]⟩
    rw [symmDiff_symmDiff_cancel_right, symmDiff_singleton_of_notMem hB, xorSum_insert hB,
      Nat.xor_comm p, Nat.xor_xor_cancel_right]
  · rw [symmDiff_singleton_of_notMem h, xorSum_insert h, Nat.xor_comm]

theorem oddParity_symmDiff_singleton (A : Finset Nat) (p : Nat) :
    oddParity (A ∆ {p}) = !oddParity A := by
  by_cases h : p ∈ A
  · obtain ⟨B, hB, rfl⟩ : ∃ B, p ∉ B ∧ A = B ∆ {p} :=
      ⟨A ∆ {p}, by simp [Finset.mem_symmDiff, h], by rw [symmDiff_symmDiff_cancel_right]⟩
    rw [symmDiff_symmDiff_cancel_right, symmDiff_singleton_of_notMem hB, oddParity_insert hB,
      Bool.not_not]
  · rw [symmDiff_singleton_of_notMem h, oddParity_insert h]

theorem xorSum_symmDiff (A B : Finset Nat) : xorSum (A ∆ B) = xorSum A ^^^ xorSum B := by
  induction B using Finset.induction_on with
  | empty => simp [symmDiff_empty]
  | insert p B hp ih =>
      rw [← symmDiff_singleton_of_notMem hp, ← symmDiff_assoc, xorSum_symmDiff_singleton, ih,
        xorSum_symmDiff_singleton, Nat.xor_assoc]

theorem oddParity_symmDiff (A B : Finset Nat) :
    oddParity (A ∆ B) = (oddParity A ^^ oddParity B) := by
  induction B using Finset.induction_on with
  | empty => simp [symmDiff_empty]
  | insert p B hp ih =>
      rw [← symmDiff_singleton_of_notMem hp, ← symmDiff_assoc, oddParity_symmDiff_singleton, ih,
        oddParity_symmDiff_singleton, Bool.xor_not]

theorem xorSum_lt {A : Finset Nat} {r : Nat} (h : ∀ p ∈ A, p < 2 ^ r) : xorSum A < 2 ^ r := by
  induction A using Finset.induction_on with
  | empty => exact Nat.two_pow_pos r
  | insert p A hp ih =>
      rw [xorSum_insert hp]
      exact Nat.xor_lt_two_pow (h p (Finset.mem_insert_self p A))
        (ih fun q hq => h q (Finset.mem_insert_of_mem hq))

/-- Bit `i` of the exclusive or counts the positions with bit `i`, modulo two. -/
theorem toNat_testBit_xorSum (A : Finset Nat) (i : Nat) :
    ((xorSum A).testBit i).toNat = (∑ p ∈ A, (p.testBit i).toNat) % 2 := by
  induction A using Finset.induction_on with
  | empty => simp
  | insert p A hp ih =>
      rw [xorSum_insert hp, Nat.testBit_xor, Finset.sum_insert hp, Nat.add_mod, ← ih]
      cases p.testBit i <;> cases (xorSum A).testBit i <;> rfl

/-! ## Check and data positions -/

/-- The positions from one to `n` of the check bits. -/
def checkPositions (n : Nat) : List Nat := (List.range' 1 n).filter fun p => p.isPowerOfTwo

/-- The positions from one to `n` of the data bits. -/
def dataPositions (n : Nat) : List Nat := (List.range' 1 n).filter fun p => ¬ p.isPowerOfTwo

theorem checkPositions_succ (n : Nat) : checkPositions (n + 1) =
    checkPositions n ++ if (n + 1).isPowerOfTwo then [n + 1] else [] := by
  rw [checkPositions, List.range'_1_concat, List.filter_append, Nat.add_comm 1 n,
    List.filter_singleton, ← checkPositions]
  by_cases h : (n + 1).isPowerOfTwo <;> simp [h]

theorem dataPositions_succ (n : Nat) : dataPositions (n + 1) =
    dataPositions n ++ if (n + 1).isPowerOfTwo then [] else [n + 1] := by
  rw [dataPositions, List.range'_1_concat, List.filter_append, Nat.add_comm 1 n,
    List.filter_singleton, ← dataPositions]
  by_cases h : (n + 1).isPowerOfTwo <;> simp [h]

/-- Each position is the place of a check bit or of a data bit, and not of both. -/
theorem positions_perm (n : Nat) :
    (checkPositions n ++ dataPositions n).Perm (List.range' 1 n) := by
  have h := List.filter_append_perm (fun p : Nat => decide p.isPowerOfTwo) (List.range' 1 n)
  simpa [checkPositions, dataPositions] using h

theorem mem_dataPositions {n p : Nat} :
    p ∈ dataPositions n ↔ (1 ≤ p ∧ p ≤ n) ∧ ¬ p.isPowerOfTwo := by
  rw [dataPositions, List.mem_filter, List.mem_range'_1, decide_eq_true_iff]
  refine and_congr_left fun _ => ?_
  omega

/-- A data position has two ones at least, so two check bits cover it. -/
theorem exists_two_testBit {p : Nat} (h0 : p ≠ 0) (h : ¬ p.isPowerOfTwo) :
    ∃ a b, a < b ∧ p.testBit a = true ∧ p.testBit b = true := by
  obtain ⟨q, hq⟩ : ∃ q, p = 2 ^ p.log2 + q := ⟨p - 2 ^ p.log2, by
    have := Nat.log2_self_le h0
    omega⟩
  have hlt : q < 2 ^ p.log2 := by
    have := Nat.lt_log2_self (n := p)
    rw [Nat.pow_succ] at this
    omega
  -- what is left below the top bit is not zero
  have hne : q ≠ 0 := by
    rintro rfl
    exact h ⟨p.log2, hq⟩
  obtain ⟨a, ha⟩ := Nat.exists_testBit_of_ne_zero hne
  have hab : a < p.log2 := by
    by_contra hge
    have hpow : 2 ^ p.log2 ≤ 2 ^ a := Nat.pow_le_pow_right (by decide) (Nat.le_of_not_lt hge)
    rw [Nat.testBit_lt_two_pow (Nat.lt_of_lt_of_le hlt hpow)] at ha
    cases ha
  refine ⟨a, p.log2, hab, ?_, Nat.testBit_log2 h0⟩
  rw [hq, Nat.testBit_two_pow_add_gt hab]
  exact ha

/-! ## The decoder -/

/-- What syndrome and parity say about a received word. -/
inductive Verdict
  | clean
  | double
  | parity
  | single (p : Nat)
  deriving DecidableEq, Repr

/-- The verdict on a received word. -/
def verdict (A : Finset Nat) : Verdict :=
  if xorSum A = 0 then
    if oddParity A then .parity else .clean
  else
    if oddParity A then .single (xorSum A) else .double

/-- The word after the correction, where `n` is the last position. -/
def correct (n : Nat) (A : Finset Nat) : Finset Nat :=
  match verdict A with
  | .clean => A
  | .double => A
  | .parity => A ∆ {0}
  | .single p => if p ≤ n then A ∆ {p} else A

/-- Zero syndrome and even parity. -/
structure Codeword (A : Finset Nat) : Prop where
  xorSum_eq : xorSum A = 0
  oddParity_eq : oddParity A = false

theorem codeword_iff_clean {A : Finset Nat} : Codeword A ↔ verdict A = .clean := by
  constructor
  · rintro ⟨hx, ho⟩
    simp [verdict, hx, ho]
  · intro h
    unfold verdict at h
    split at h <;> split at h
    · cases h
    · next hx ho => exact ⟨hx, by simpa using ho⟩
    · cases h
    · cases h

/-- The verdict sees the errors only. -/
theorem verdict_symmDiff {A : Finset Nat} (hA : Codeword A) (E : Finset Nat) :
    verdict (A ∆ E) = verdict E := by
  simp only [verdict, xorSum_symmDiff, oddParity_symmDiff, hA.xorSum_eq, hA.oddParity_eq,
    Nat.zero_xor, Bool.false_xor]

@[simp] theorem verdict_empty : verdict ∅ = .clean := rfl

theorem verdict_singleton (p : Nat) : verdict {p} = if p = 0 then .parity else .single p := by
  simp [verdict]

theorem verdict_pair {p q : Nat} (h : p ≠ q) : verdict {p, q} = .double := by
  have hp : p ∉ ({q} : Finset Nat) := by simpa using h
  have hx : xorSum {p, q} = p ^^^ q := by rw [xorSum_insert hp, xorSum_singleton]
  have ho : oddParity {p, q} = false := by rw [oddParity_insert hp, oddParity_singleton]; rfl
  have hne : p ^^^ q ≠ 0 := fun h0 => h (Nat.xor_eq_zero_iff.mp h0)
  simp [verdict, hx, ho, hne]

/-- One error is corrected. -/
theorem correct_symmDiff_singleton {n p : Nat} {A : Finset Nat} (hA : Codeword A)
    (hp : p ≤ n) : correct n (A ∆ {p}) = A := by
  rw [correct, verdict_symmDiff hA, verdict_singleton]
  by_cases h0 : p = 0
  · subst h0
    simp [symmDiff_symmDiff_cancel_right]
  · simp [h0, hp, symmDiff_symmDiff_cancel_right]

/-- Up to two errors: either the verdict is `double`, or there was at most one error and
    the word comes back. -/
theorem correct_of_card_le_two {n : Nat} {A E : Finset Nat} (hA : Codeword A)
    (hE : E.card ≤ 2) (hn : ∀ p ∈ E, p ≤ n) :
    (verdict (A ∆ E) = .double ∧ E.card = 2) ∨
      (verdict (A ∆ E) ≠ .double ∧ correct n (A ∆ E) = A ∧ E.card < 2) := by
  rw [verdict_symmDiff hA]
  obtain h0 | h1 | h2 : E.card = 0 ∨ E.card = 1 ∨ E.card = 2 := by omega
  · rw [Finset.card_eq_zero] at h0
    subst h0
    refine .inr ⟨by simp, ?_, by simp⟩
    rw [symmDiff_empty, correct, codeword_iff_clean.mp hA]
  · obtain ⟨p, rfl⟩ := Finset.card_eq_one.mp h1
    refine .inr ⟨?_, correct_symmDiff_singleton hA (hn p (Finset.mem_singleton_self p)), by simp⟩
    rw [verdict_singleton]
    split <;> simp
  · obtain ⟨p, q, hpq, rfl⟩ := Finset.card_eq_two.mp h2
    exact .inl ⟨verdict_pair hpq, h2⟩

/-- An even number of errors is reported exactly if their exclusive or is not zero. -/
theorem verdict_eq_double_iff (E : Finset Nat) :
    verdict E = .double ↔ oddParity E = false ∧ xorSum E ≠ 0 := by
  unfold verdict
  split
  · next hx => split <;> simp [hx]
  · next hx =>
      split
      · next ho => simp [ho]
      · next ho => simp [hx, ho]

/-- A correction toggles at most one position. -/
theorem correct_eq (n : Nat) (A : Finset Nat) :
    correct n A = A ∨ ∃ p, p ≤ n ∧ correct n A = A ∆ {p} ∧ oddParity A = true := by
  unfold correct
  cases hv : verdict A with
  | clean => exact .inl rfl
  | double => exact .inl rfl
  | parity =>
      refine .inr ⟨0, Nat.zero_le n, rfl, ?_⟩
      unfold verdict at hv
      split at hv <;> split at hv
      · next ho => exact ho
      all_goals cases hv
  | single p =>
      show (if p ≤ n then A ∆ {p} else A) = A ∨ _
      split
      · next hp =>
          refine .inr ⟨p, hp, if_pos hp, ?_⟩
          unfold verdict at hv
          split at hv <;> split at hv
          · cases hv
          · cases hv
          · next ho => exact ho
          · cases hv
      · exact .inl rfl

end MpiApps.Secded
