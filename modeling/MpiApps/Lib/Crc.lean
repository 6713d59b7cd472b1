/-
  MpiApps.Lib.Crc

  Cyclic redundancy checks as shift registers.

  A register takes one bit of the message at a time.  Its step is linear in exclusive or and
  injective, so the check sums of two messages differ by what the errors alone leave in the
  register (`register_xor`).  One error is always seen, and two errors are seen unless their
  distance is a period of the register (`register_ne`).

  A period of `2 ^ 32 - 1` cannot be found by stepping.  Registers that are reached from the
  topmost bit multiply like powers of a polynomial (`mul_iterate`), so the state after `n` steps
  is computed with about `log n` multiplications (`power_eq`).
-/

import Mathlib.Algebra.Order.Ring.Nat
import Mathlib.Data.Nat.Prime.Basic
import Mathlib.Dynamics.PeriodicPts.Lemmas

namespace MpiApps.Crc

variable {w : Nat}

/-! ## The register -/

/-- A step: the lowest bit goes out, and if it was set, the polynomial comes in. -/
def step (p s : BitVec w) : BitVec w :=
  if s.getLsbD 0 then (s >>> 1) ^^^ p else s >>> 1

/-- The register after a message. -/
def register (p s : BitVec w) (bits : List Bool) : BitVec w :=
  bits.foldl (fun s b => step p (s ^^^ if b then 1#w else 0#w)) s

@[simp] theorem step_zero (p : BitVec w) : step p 0#w = 0#w := by
  simp [step]

theorem step_xor (p s t : BitVec w) : step p (s ^^^ t) = step p s ^^^ step p t := by
  simp only [step, BitVec.getLsbD_xor, BitVec.ushiftRight_xor_distrib]
  have hcancel : s >>> 1 ^^^ p ^^^ (t >>> 1 ^^^ p) = s >>> 1 ^^^ t >>> 1 := by
    rw [BitVec.xor_comm (t >>> 1) p, BitVec.xor_assoc, ← BitVec.xor_assoc p p, BitVec.xor_self,
      BitVec.zero_xor]
  cases s.getLsbD 0 <;> cases t.getLsbD 0
  · rfl
  · exact BitVec.xor_assoc ..
  · show s >>> 1 ^^^ t >>> 1 ^^^ p = s >>> 1 ^^^ p ^^^ t >>> 1
    rw [BitVec.xor_assoc, BitVec.xor_comm (t >>> 1) p, ← BitVec.xor_assoc]
  · exact hcancel.symm

theorem iterate_step_xor (p s t : BitVec w) (n : Nat) :
    (step p)^[n] (s ^^^ t) = (step p)^[n] s ^^^ (step p)^[n] t := by
  induction n generalizing s t with
  | zero => rfl
  | succ n ih => rw [Function.iterate_succ_apply, step_xor, ih]; rfl

@[simp] theorem iterate_step_zero (p : BitVec w) (n : Nat) : (step p)^[n] 0#w = 0#w := by
  induction n with
  | zero => rfl
  | succ n ih => rw [Function.iterate_succ_apply, step_zero, ih]

/-- The bit that went out is in the topmost place, so a step can be undone. -/
theorem step_injective {p : BitVec w} (hp : p.msb = true) : Function.Injective (step p) := by
  intro s t h
  have hw : 0 < w := by
    by_contra hw
    obtain rfl : w = 0 := by omega
    exact absurd hp (by simp [BitVec.of_length_zero (x := p)])
  have hout : ∀ s : BitVec w, (step p s).msb = s.getLsbD 0 := by
    intro s
    have htop : (s >>> 1).msb = false := by
      rw [BitVec.msb_eq_getLsbD_last, BitVec.getLsbD_ushiftRight]
      exact BitVec.getLsbD_of_ge s _ (by omega)
    rw [step]
    split
    · next hs => rw [BitVec.msb_xor, htop, hp, hs]; rfl
    · next hs => rw [htop, Bool.eq_false_of_not_eq_true hs]
  have hlow : s.getLsbD 0 = t.getLsbD 0 := by
    rw [← hout, ← hout, h]
  have hrest : s >>> 1 = t >>> 1 := by
    simp only [step, ← hlow] at h
    cases hs : s.getLsbD 0
    · rw [hs] at h
      exact h
    · rw [hs] at h
      exact (BitVec.xor_left_inj p).mp h
  apply BitVec.eq_of_getLsbD_eq
  intro i _
  cases i with
  | zero => exact hlow
  | succ i =>
      have hi := congrArg (fun x => x.getLsbD i) hrest
      simp only [BitVec.getLsbD_ushiftRight] at hi
      rwa [Nat.add_comm]

/-! ## Errors -/

@[simp] theorem register_nil (p s : BitVec w) : register p s [] = s := rfl

@[simp] theorem register_cons (p s : BitVec w) (b : Bool) (bits : List Bool) :
    register p s (b :: bits) = register p (step p (s ^^^ if b then 1#w else 0#w)) bits := rfl

theorem register_append (p s : BitVec w) (xs ys : List Bool) :
    register p s (xs ++ ys) = register p (register p s xs) ys := List.foldl_append

/-- Registers add up when the messages do. -/
theorem register_xor (p s t : BitVec w) {xs ys : List Bool} (h : xs.length = ys.length) :
    register p (s ^^^ t) (List.zipWith xor xs ys) = register p s xs ^^^ register p t ys := by
  induction xs generalizing s t ys with
  | nil =>
      rw [List.length_eq_zero_iff.mp h.symm]
      rfl
  | cons x xs ih =>
      cases ys with
      | nil => cases h
      | cons y ys =>
          rw [List.zipWith_cons_cons, register_cons, register_cons, register_cons,
            ← ih _ _ (Nat.succ.inj h), ← step_xor]
          congr 2
          have hbits : (if xor x y then 1#w else 0#w) =
              (if x then 1#w else 0#w) ^^^ if y then 1#w else 0#w := by
            cases x <;> cases y <;> simp
          rw [hbits]
          ac_rfl

/-- Where there is no error, the register only steps. -/
theorem register_of_count_zero (p s : BitVec w) {e : List Bool} (he : e.count true = 0) :
    register p s e = (step p)^[e.length] s := by
  induction e generalizing s with
  | nil => rfl
  | cons b e ih =>
      cases b with
      | true => simp at he
      | false =>
          rw [register_cons, ih _ (by simpa using he), List.length_cons,
            Function.iterate_succ_apply]
          simp

/-- The register up to the next error and past it. -/
theorem exists_register_eq (p s : BitVec w) {e : List Bool} (he : 0 < e.count true) :
    ∃ (d : Nat) (e' : List Bool), e.length = d + 1 + e'.length ∧
      e.count true = e'.count true + 1 ∧
      register p s e = register p (step p ((step p)^[d] s ^^^ 1#w)) e' := by
  induction e generalizing s with
  | nil => simp at he
  | cons b e ih =>
      cases b with
      | true => exact ⟨0, e, by simp [Nat.add_comm], by simp, rfl⟩
      | false =>
          obtain ⟨d, e', hlen, hcount, hreg⟩ := ih (step p s) (by simpa using he)
          refine ⟨d + 1, e', by rw [List.length_cons, hlen]; omega, by simpa using hcount, ?_⟩
          rw [register_cons]
          simpa using hreg

/-- Up to two errors change the register, if it does not come back to `1` before their
    distance. -/
theorem register_ne {p : BitVec w} (hp : p.msb = true) {n : Nat}
    (hperiod : ∀ d, 0 < d → d < n → (step p)^[d] 1#w ≠ 1#w) (s : BitVec w) {xs ys : List Bool}
    (hlen : xs.length = ys.length) (hn : xs.length ≤ n) (hne : xs ≠ ys)
    (hcount : (List.zipWith xor xs ys).count true ≤ 2) : register p s xs ≠ register p s ys := by
  intro heq
  have hone : 1#w ≠ 0#w := by
    intro h
    have hw : w = 0 := by simpa using congrArg BitVec.toNat h
    subst hw
    exact absurd hp (by simp [BitVec.of_length_zero (x := p)])
  have hinj := step_injective hp
  have hzero : ∀ m (x : BitVec w), (step p)^[m] x = 0#w → x = 0#w := fun m x h =>
    hinj.iterate m (h.trans (iterate_step_zero p m).symm)
  -- what the errors leave in an empty register
  have herr := register_xor p s s hlen
  rw [heq, BitVec.xor_self, BitVec.xor_self] at herr
  have helen : (List.zipWith xor xs ys).length = xs.length := by
    rw [List.length_zipWith, hlen, Nat.min_self]
  have hpos : 0 < (List.zipWith xor xs ys).count true := by
    by_contra hnone
    refine hne (List.ext_getElem hlen fun i hi hi' => ?_)
    have hmem := List.count_eq_zero.mp (Nat.eq_zero_of_not_pos hnone)
    by_contra hdiff
    refine hmem (List.mem_of_getElem (i := i) (h := by omega) ?_)
    rw [List.getElem_zipWith]
    revert hdiff
    cases xs[i] <;> cases ys[i] <;> simp
  obtain ⟨d, e, hlen₁, hcount₁, hreg₁⟩ := exists_register_eq p 0#w hpos
  rw [herr, iterate_step_zero, BitVec.zero_xor] at hreg₁
  by_cases he : e.count true = 0
  · rw [register_of_count_zero p _ he] at hreg₁
    exact hone (hzero (e.length + 1) 1#w hreg₁.symm)
  · obtain ⟨d', e', hlen₂, hcount₂, hreg₂⟩ := exists_register_eq p (step p 1#w)
      (Nat.pos_of_ne_zero he)
    rw [← hreg₁, register_of_count_zero p _ (by omega)] at hreg₂
    -- the two errors cancel, so the register has come back to `1` between them
    have hback := hzero (e'.length + 1) _ hreg₂.symm
    exact hperiod (d' + 1) (Nat.succ_pos d') (by omega) (BitVec.xor_eq_zero_iff.mp hback)

/-- At the distance of a period two errors leave no trace. -/
theorem register_flip_flip {p : BitVec w} {n : Nat} (hback : (step p)^[n + 1] 1#w = 1#w)
    (s : BitVec w) (x y : Bool) {mid : List Bool} (hmid : mid.length = n) (rest : List Bool) :
    register p s ((!x) :: (mid ++ (!y) :: rest)) = register p s (x :: (mid ++ y :: rest)) := by
  -- the second error meets what the first one has left
  have herr : ∀ (t u : BitVec w) (mid : List Bool), register p (t ^^^ u) mid =
      register p t mid ^^^ (step p)^[mid.length] u := by
    intro t u mid
    induction mid generalizing t u with
    | nil => rfl
    | cons b mid ih =>
        rw [register_cons, register_cons, List.length_cons, Function.iterate_succ_apply, ← ih,
          ← step_xor]
        congr 2
        ac_rfl
  have hnot : ∀ b : Bool, (if !b then 1#w else 0#w) = (if b then 1#w else 0#w) ^^^ 1#w := by
    intro b
    cases b <;> simp
  rw [Function.iterate_succ_apply] at hback
  have hfirst : register p (step p (s ^^^ if !x then 1#w else 0#w)) mid =
      register p (step p (s ^^^ if x then 1#w else 0#w)) mid ^^^ 1#w := by
    rw [hnot, ← BitVec.xor_assoc, step_xor, herr, hmid, hback]
  have hcancel : ∀ a b : BitVec w, a ^^^ 1#w ^^^ (b ^^^ 1#w) = a ^^^ b := by
    intro a b
    rw [show a ^^^ 1#w ^^^ (b ^^^ 1#w) = a ^^^ b ^^^ (1#w ^^^ 1#w) by ac_rfl, BitVec.xor_self,
      BitVec.xor_zero]
  rw [register_cons, register_append, register_cons, register_cons, register_append,
    register_cons, hfirst, hnot y, hcancel]

/-! ## Words of a message -/

/-- Bits that are in the register already come out one after the other. -/
theorem iterate_step_word (p s x : BitVec w) (n : Nat) :
    (step p)^[n] (s ^^^ x) = register p s ((List.range n).map x.getLsbD) ^^^ x >>> n := by
  induction n with
  | zero => simp
  | succ n ih =>
      have hsplit : x >>> n = (if x.getLsbD n then 1#w else 0#w) ^^^ ((x >>> (n + 1)) <<< 1) := by
        apply BitVec.eq_of_getLsbD_eq
        intro i hi
        cases i with
        | zero =>
            cases hx : x.getLsbD n <;> simp [hx, hi]
        | succ i =>
            cases x.getLsbD n <;> simp [hi, show n + 1 + i = n + (i + 1) by omega]
      have hshift : step p ((x >>> (n + 1)) <<< 1) = x >>> (n + 1) := by
        rw [step, if_neg (by simp)]
        apply BitVec.eq_of_getLsbD_eq
        intro i hi
        simp only [BitVec.getLsbD_ushiftRight, BitVec.getLsbD_shiftLeft]
        by_cases hlast : 1 + i < w
        · simp [hlast]
        · simp [hlast, BitVec.getLsbD_of_ge x (n + 1 + i) (by omega)]
      rw [Function.iterate_succ_apply', ih, List.range_succ, List.map_append, List.map_cons,
        List.map_nil, register_append, register_cons, register_nil, hsplit, ← BitVec.xor_assoc,
        step_xor, hshift]

/-- The bits of a word, the least significant one first. -/
def wordBits {m : Nat} (x : BitVec m) : List Bool := (List.range m).map x.getLsbD

/-- A word that is not wider than the register goes in at once. -/
theorem iterate_step_setWidth (p s : BitVec w) {m : Nat} (hm : m ≤ w) (x : BitVec m) :
    (step p)^[m] (s ^^^ x.setWidth w) = register p s (wordBits x) := by
  have hbits : (List.range m).map (x.setWidth w).getLsbD = wordBits x := by
    refine List.map_congr_left fun i hi => ?_
    have hi' := List.mem_range.mp hi
    rw [BitVec.getLsbD_setWidth]
    simp [Nat.lt_of_lt_of_le hi' hm]
  have hout : x.setWidth w >>> m = 0#w := by
    apply BitVec.eq_of_getLsbD_eq
    intro i _
    simp
  rw [iterate_step_word, hbits, hout, BitVec.xor_zero]

/-! ## Many steps at once -/

/-- The topmost bit: the polynomial `1`. -/
def top (w : Nat) : BitVec w := BitVec.twoPow w (w - 1)

/-- The loop over the bits of `v`, with `u` after as many steps as bits are done. -/
def mulLoop (p v : BitVec w) : Nat → BitVec w → BitVec w → BitVec w
  | 0, _, acc => acc
  | k + 1, u, acc => mulLoop p v k (step p u) (if v.getLsbD k then acc ^^^ u else acc)

/-- The product modulo the polynomial. -/
def mul (p u v : BitVec w) : BitVec w := mulLoop p v w u 0#w

/-- The state after `n` steps from the topmost bit, for `n` below `2 ^ fuel`. -/
def power (p : BitVec w) : Nat → Nat → BitVec w
  | 0, _ => top w
  | fuel + 1, n =>
    if n = 0 then top w
    else
      let u := power p fuel (n / 2)
      if n % 2 = 1 then step p (mul p u u) else mul p u u

theorem step_twoPow (p : BitVec w) {i : Nat} (hi : i + 1 < w) :
    step p (BitVec.twoPow w (i + 1)) = BitVec.twoPow w i := by
  rw [step, if_neg (by simp)]
  apply BitVec.eq_of_getLsbD_eq
  intro j hj
  have hsucc : i + 1 = 1 + j ↔ i = j := by omega
  simp only [BitVec.getLsbD_ushiftRight, BitVec.getLsbD_twoPow, hsucc, hi,
    Nat.lt_of_succ_lt hi]

theorem iterate_step_top (p : BitVec w) {k : Nat} (hk : k < w) :
    (step p)^[w - 1 - k] (top w) = BitVec.twoPow w k := by
  obtain ⟨n, hn⟩ : ∃ n, w - 1 = k + n := ⟨w - 1 - k, by omega⟩
  rw [top, hn, Nat.add_sub_cancel_left]
  induction n generalizing k with
  | zero => rfl
  | succ n ih =>
      rw [Function.iterate_succ_apply', show k + (n + 1) = k + 1 + n by omega,
        ih (by omega) (by omega), step_twoPow p (by omega)]

/-- The lowest `k` bits of a word. -/
def lowest (v : BitVec w) : Nat → BitVec w
  | 0 => 0#w
  | k + 1 => lowest v k ^^^ if v.getLsbD k then BitVec.twoPow w k else 0#w

theorem lowest_width (v : BitVec w) : lowest v w = v := by
  have hbit : ∀ k i, i < w → (lowest v k).getLsbD i = (decide (i < k) && v.getLsbD i) := by
    intro k i hi
    induction k with
    | zero => simp [lowest]
    | succ k ih =>
        rw [lowest, BitVec.getLsbD_xor, ih]
        rcases Nat.lt_trichotomy i k with h | rfl | h
        · have hne : ¬ k = i := by omega
          cases v.getLsbD k <;> simp [h, hne, Nat.lt_succ_of_lt h]
        · cases v.getLsbD i <;> simp [hi]
        · have hne : ¬ k = i := by omega
          cases v.getLsbD k <;> simp [hne, Nat.not_lt_of_gt h, show ¬ i < k + 1 by omega]
  apply BitVec.eq_of_getLsbD_eq
  intro i hi
  rw [hbit w i hi]
  simp [hi]

theorem mulLoop_eq (p v acc : BitVec w) (m : Nat) {k : Nat} (hk : k ≤ w) :
    mulLoop p v k ((step p)^[w - k] ((step p)^[m] (top w))) acc =
      acc ^^^ (step p)^[m] (lowest v k) := by
  induction k generalizing acc with
  | zero => simp [mulLoop, lowest]
  | succ k ih =>
      -- `u` is the state that bit `k` of `v` stands for
      have hu : (step p)^[w - (k + 1)] ((step p)^[m] (top w)) =
          (step p)^[m] (BitVec.twoPow w k) := by
        rw [← Function.iterate_add_apply, Nat.add_comm, Function.iterate_add_apply,
          show w - (k + 1) = w - 1 - k by omega, iterate_step_top p hk]
      have hnext : step p ((step p)^[w - (k + 1)] ((step p)^[m] (top w))) =
          (step p)^[w - k] ((step p)^[m] (top w)) := by
        rw [← Function.iterate_succ_apply' (step p), show (w - (k + 1)).succ = w - k by omega]
      rw [mulLoop, hnext, ih _ (Nat.le_of_succ_le hk), hu, lowest, iterate_step_xor]
      cases v.getLsbD k
      · simp
      · simp only [if_true]
        rw [BitVec.xor_assoc, BitVec.xor_comm ((step p)^[m] (BitVec.twoPow w k))]

/-- Multiplying by the state after `m` steps is stepping `m` times. -/
theorem mul_iterate (p v : BitVec w) (m : Nat) :
    mul p ((step p)^[m] (top w)) v = (step p)^[m] v := by
  have h := mulLoop_eq p v 0#w m (Nat.le_refl w)
  rwa [Nat.sub_self, BitVec.zero_xor, lowest_width] at h

theorem power_eq (p : BitVec w) {fuel n : Nat} (hn : n < 2 ^ fuel) :
    power p fuel n = (step p)^[n] (top w) := by
  induction fuel generalizing n with
  | zero =>
      obtain rfl : n = 0 := by omega
      rfl
  | succ fuel ih =>
      rw [power]
      split
      · next h => rw [h]; rfl
      · have hsquare : mul p (power p fuel (n / 2)) (power p fuel (n / 2)) =
            (step p)^[n / 2 + n / 2] (top w) := by
          rw [ih (by omega), mul_iterate, Function.iterate_add_apply]
        simp only [hsquare]
        split
        · rw [← Function.iterate_succ_apply' (step p), show (n / 2 + n / 2).succ = n by omega]
        · rw [show n / 2 + n / 2 = n by omega]

/-- The register runs through `n` states before it comes back, if it is back after `n`
    steps and not after `n / q` ones, for the primes `q` of `n`. -/
theorem iterate_step_ne {p : BitVec w} (hp : p.msb = true) {n : Nat}
    (hback : (step p)^[n] (top w) = top w)
    (hprimes : ∀ q, q.Prime → q ∣ n → (step p)^[n / q] (top w) ≠ top w) {d : Nat} (hd : 0 < d)
    (hdn : d < n) : (step p)^[d] 1#w ≠ 1#w := by
  intro h
  have hw : 0 < w := by
    by_contra hw
    obtain rfl : w = 0 := by omega
    exact absurd hp (by simp [BitVec.of_length_zero (x := p)])
  -- `1` is one of the states
  have hone : 1#w = (step p)^[w - 1] (top w) := by
    have := iterate_step_top p hw
    rw [Nat.sub_zero] at this
    rw [this]
    apply BitVec.eq_of_getLsbD_eq
    intro i hi
    simp [BitVec.getLsbD_one, hw, eq_comm]
  rw [hone, ← Function.iterate_add_apply, Nat.add_comm, Function.iterate_add_apply] at h
  have hper : Function.IsPeriodicPt (step p) d (top w) := (step_injective hp).iterate _ h
  have hdvd : Function.minimalPeriod (step p) (top w) ∣ n :=
    Function.IsPeriodicPt.minimalPeriod_dvd hback
  have hle := hper.minimalPeriod_le hd
  obtain ⟨m, hm⟩ := hdvd
  have hm1 : m ≠ 1 := by
    rintro rfl
    omega
  obtain ⟨q, hq, k, rfl⟩ := Nat.exists_prime_and_dvd hm1
  have hdiv : n / q = Function.minimalPeriod (step p) (top w) * k := by
    rw [hm, show Function.minimalPeriod (step p) (top w) * (q * k) =
      q * (Function.minimalPeriod (step p) (top w) * k) by ac_rfl, Nat.mul_div_cancel_left _ hq.pos]
  refine hprimes q hq ⟨Function.minimalPeriod (step p) (top w) * k, by rw [hm]; ac_rfl⟩ ?_
  rw [hdiv]
  exact (Function.isPeriodicPt_minimalPeriod (step p) (top w)).mul_const k

end MpiApps.Crc
