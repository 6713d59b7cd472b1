/-
  MpiApps.Fault.HammingPositions

  The numbering of the positions by `hmLength` and `hamming_code`, in the range of `int`.

  `hmLengthInt` is the loop of `hmLength` with its flag, where every `int` is checked; it
  ends with the least `r` for which `r` checks suffice.  `codeWalk` is the walk of
  `hamming_code` with a record of what it does at each position: it has no result if a
  power of two does not fit an `int` or `data` is read outside.

  After `n` positions the walk has met the powers of two up to `n` and has read a data bit
  at each of the others (`AfterWalk`).  With `r` from `hmLength` these are `r` checks and
  exactly the data (`Numbered`).
-/

import MpiApps.Fault.Hamming

namespace MpiApps.Fault

open MpiApps.Secded

/-! ## The code -/

/-- A value of type `int`.  A conversion from beyond its range, or a result there, is
    undefined. -/
def toInt (x : Int) : Option Int :=
  if -2147483648 ≤ x ∧ x ≤ 2147483647 then some x else none

/-- One round of the loop of `hmLength`: `r` and `flag` after it. -/
def hmLengthStep (k : Int) (r : Nat) : Option (Nat × Bool) := do
  let temp ← toInt (2 ^ r)
  let temp ← toInt (temp - 1)
  let temp ← toInt (temp - r)
  let temp ← toInt (temp - k)
  let _ ← toInt (r + 1)
  return (r + 1, decide (temp < 0))

/-- `hmLength` from the test of its loop on, for at most `fuel` tests. -/
def hmLengthInt (k : Int) : Nat → Nat → Bool → Option Int
  | 0, _, _ => none
  | fuel + 1, r, flag =>
    if flag then (hmLengthStep k r).bind fun s => hmLengthInt k fuel s.1 s.2
    else some ((r : Int) - 1)

/-- `sum`, `dnum` and `cnum` in `hamming_code`, with the positions that were powers of two
    and, for each read of `data`, its position and index.  The sum counts ones of `data`. -/
structure CodeWalk where
  sum : Int
  dnum : Nat
  cnum : Nat
  powers : List Nat
  reads : List (Nat × Nat)
  deriving DecidableEq, Repr

/-- The body of the walk of `hamming_code` for check `i` at position `j`. -/
def codeStep (data : List Char) (i : Nat) (w : CodeWalk) (j : Nat) : Option CodeWalk := do
  let power ← toInt (2 ^ w.cnum)
  if (j : Int) = power then
    return { w with cnum := w.cnum + 1, powers := w.powers ++ [j] }
  else
    let x ← toInt (2 ^ i)
    let m ← toInt (x * 2)
    let y := (j : Int).tmod m
    let x := y.tdiv x
    let ch ← data[w.dnum]?
    return { w with
      sum := w.sum + digit ch * x
      dnum := w.dnum + 1
      reads := w.reads ++ [(j, w.dnum)] }

/-- The walk of `hamming_code` for check `i`, over the positions below `r+k+1`. -/
def codeWalk (data : List Char) (i k r : Nat) : Option CodeWalk := do
  let n ← toInt (r + k)
  let _ ← toInt (n + 1)
  (List.range' 1 (r + k)).foldlM (codeStep data i) ⟨0, 0, 0, [], []⟩

/-! ## hmLength -/

theorem toInt_of_range {x : Int} (hlo : -2147483648 ≤ x) (hhi : x ≤ 2147483647) :
    toInt x = some x :=
  if_pos ⟨hlo, hhi⟩

theorem two_pow_range {r s : Nat} (hint : 2 ^ r ≤ 2147483647) (hs : s ≤ r) :
    (0 : Int) < 2 ^ s ∧ (2 : Int) ^ s ≤ 2147483647 := by
  have hle : 2 ^ s ≤ 2147483647 := (Nat.pow_le_pow_right (by decide) hs).trans hint
  exact ⟨by positivity, by exact_mod_cast hle⟩

theorem toInt_two_pow {r s : Nat} (hint : 2 ^ r ≤ 2147483647) (hs : s ≤ r) :
    toInt (2 ^ s) = some ((2 : Int) ^ s) := by
  obtain ⟨hpos, hle⟩ := two_pow_range hint hs
  exact toInt_of_range (by omega) hle

/-- A round asks whether `r` checks are too few for `k` data bits. -/
theorem hmLengthStep_eq {k r s : Nat} (hint : 2 ^ r ≤ 2147483647) (hs : s ≤ r)
    (hk : r + k < 2 ^ r) : hmLengthStep k s = some (s + 1, decide (2 ^ s < k + s + 1)) := by
  obtain ⟨hpos, hle⟩ := two_pow_range hint hs
  have hbound : r + k < 2147483647 := hk.trans_le hint
  have hcast : ((2 : Int) ^ s) = ((2 ^ s : Nat) : Int) := by simp
  have hflag : ((2 : Int) ^ s - 1 - s - k < 0) ↔ 2 ^ s < k + s + 1 := by
    rw [hcast]
    omega
  have htemp := @toInt_of_range ((2 : Int) ^ s - 1) (by omega) (by omega)
  have htemp' := @toInt_of_range ((2 : Int) ^ s - 1 - s) (by omega) (by omega)
  have hleft := @toInt_of_range ((2 : Int) ^ s - 1 - s - k) (by omega) (by omega)
  have hnext := @toInt_of_range ((s : Int) + 1) (by omega) (by omega)
  simp only [hmLengthStep, toInt_two_pow hint hs, htemp, htemp', hleft, hnext,
    Option.bind_eq_bind, Option.bind_some, Option.pure_def, hflag]

/-- The loop ends at the least `r` that it reaches with enough checks. -/
theorem hmLengthInt_eq {k r s fuel : Nat} (hint : 2 ^ r ≤ 2147483647) (hs : s ≤ r)
    (hfuel : r + 2 ≤ fuel + s) (hlt : r + k < 2 ^ r) (hle : ∀ i < r, 2 ^ i ≤ i + k) :
    hmLengthInt k fuel s true = some (r : Int) := by
  induction fuel generalizing s with
  | zero => omega
  | succ fuel ih =>
      rw [hmLengthInt, if_pos rfl, hmLengthStep_eq hint hs hlt, Option.bind_some]
      by_cases hsr : s = r
      · -- the flag is cleared, and the next test ends the loop
        subst hsr
        obtain ⟨fuel, rfl⟩ : ∃ n, fuel = n + 1 := ⟨fuel - 1, by omega⟩
        rw [decide_eq_false (by omega), hmLengthInt, if_neg Bool.false_ne_true]
        congr 1
        omega
      · have hmore := hle s (by omega)
        rw [decide_eq_true (by omega)]
        exact ih (by omega) (by omega)

theorem isLeast_hmLength (k : Nat) : IsLeast {r | k + r + 1 ≤ 2 ^ r} (hmLength k) := by
  obtain ⟨hlt, hle⟩ := hmLength_spec k
  refine ⟨?_, fun r hr => ?_⟩
  · show k + hmLength k + 1 ≤ 2 ^ hmLength k
    omega
  · by_contra hgt
    have hfew := hle r (Nat.lt_of_not_le hgt)
    change k + r + 1 ≤ 2 ^ r at hr
    omega

/-! ## The walk -/

/-- The next position is the one that the walk compares with if it is a power of two. -/
theorem succ_eq_two_pow_walk (n : Nat) : n + 1 = 2 ^ (walk n).2 ↔ (n + 1).isPowerOfTwo := by
  constructor
  · exact fun h => ⟨_, h⟩
  · rintro ⟨e, he⟩
    have hlt := lt_two_pow_walk n
    have hle : e ≤ (walk n).2 := by
      by_contra hgt
      have hpow : 2 ^ (walk n).2 < 2 ^ e :=
        Nat.pow_lt_pow_right (by decide) (Nat.lt_of_not_le hgt)
      omega
    rcases Nat.lt_or_eq_of_le hle with hlt' | rfl
    · -- a smaller power has been passed already
      have := two_pow_le_walk hlt'
      omega
    · exact he

theorem dataPositions_length (n : Nat) : (dataPositions n).length = (walk n).1 := by
  induction n with
  | zero => rfl
  | succ n ih =>
      rw [dataPositions_succ, List.length_append, ih, walk]
      by_cases h : (n + 1).isPowerOfTwo
      · rw [if_pos h, if_pos ((succ_eq_two_pow_walk n).mpr h)]
        rfl
      · rw [if_neg h, if_neg ((succ_eq_two_pow_walk n).not.mpr h)]
        rfl

theorem checkPositions_eq_map (n : Nat) :
    checkPositions n = (List.range (walk n).2).map (2 ^ ·) := by
  induction n with
  | zero => rfl
  | succ n ih =>
      rw [checkPositions_succ, ih, walk]
      by_cases h : (n + 1).isPowerOfTwo
      · have heq := (succ_eq_two_pow_walk n).mpr h
        rw [if_pos h, if_pos heq]
        show _ = (List.range ((walk n).2 + 1)).map fun e => 2 ^ e
        rw [List.range_succ, List.map_append, heq, List.map_singleton]
      · rw [if_neg h, if_neg ((succ_eq_two_pow_walk n).not.mpr h), List.append_nil]

/-- The coverage of position `j` by check `i` in the arithmetic of `int`. -/
theorem tmod_tdiv_two_pow (j i : Nat) :
    (((j : Int).tmod (2 ^ i * 2)).tdiv (2 ^ i)) = ((j % (2 ^ i * 2) / 2 ^ i : Nat) : Int) := by
  rw [Int.tmod_eq_emod_of_nonneg (by omega), Int.tdiv_eq_ediv_of_nonneg]
  · push_cast
    rfl
  · exact Int.emod_nonneg _ (by positivity)

section Step

variable {data : List Char} {i j r : Nat} {w : CodeWalk}

/-- The walk counts a power of two. -/
theorem codeStep_check (hint : 2 ^ r ≤ 2147483647) (hcnum : w.cnum ≤ r) (hj : j = 2 ^ w.cnum) :
    codeStep data i w j = some { w with cnum := w.cnum + 1, powers := w.powers ++ [j] } := by
  have hcond : (j : Int) = 2 ^ w.cnum := by exact_mod_cast hj
  rw [codeStep, toInt_two_pow hint hcnum]
  simp only [Option.bind_eq_bind, Option.bind_some, if_pos hcond]
  rfl

/-- The walk reads `data[dnum]` at any other position. -/
theorem codeStep_data (hint : 2 ^ r ≤ 2147483647) (hcnum : w.cnum ≤ r) (hi : i < r)
    (hdnum : w.dnum < data.length) (hj : j ≠ 2 ^ w.cnum) :
    codeStep data i w j = some { w with
      sum := w.sum + digit (data.getD w.dnum '0') * (j % (2 ^ i * 2) / 2 ^ i : Nat)
      dnum := w.dnum + 1
      reads := w.reads ++ [(j, w.dnum)] } := by
  have hcond : ¬ (j : Int) = 2 ^ w.cnum := by exact_mod_cast hj
  have hm : toInt ((2 : Int) ^ i * 2) = some ((2 : Int) ^ i * 2) := by
    rw [← pow_succ]
    exact toInt_two_pow hint hi
  rw [codeStep, toInt_two_pow hint hcnum]
  simp only [Option.bind_eq_bind, Option.bind_some, if_neg hcond,
    toInt_two_pow hint (Nat.le_of_lt hi), hm, tmod_tdiv_two_pow,
    List.getElem?_eq_getElem hdnum, List.getD_eq_getElem _ _ hdnum]
  rfl

end Step

/-- What the walk has done after the positions `1 .. n`. -/
structure AfterWalk (data : List Char) (i n : Nat) (w : CodeWalk) : Prop where
  state : (w.sum, w.dnum, w.cnum) = walkSum (fun dnum => digit (data.getD dnum '0')) i n
  powers : w.powers = checkPositions n
  reads : w.reads = (dataPositions n).zipIdx

namespace AfterWalk

variable {data : List Char} {i k r n : Nat} {w : CodeWalk}

theorem start (data : List Char) (i : Nat) : AfterWalk data i 0 ⟨0, 0, 0, [], []⟩ :=
  ⟨rfl, rfl, rfl⟩

theorem counts (h : AfterWalk data i n w) : (w.dnum, w.cnum) = walk n := by
  rw [← walkSum_snd (fun dnum => digit (data.getD dnum '0')) i n, ← h.state]

theorem step_check (h : AfterWalk data i n w) (hint : 2 ^ r ≤ 2147483647) (hcnum : w.cnum ≤ r)
    (hpow : (n + 1).isPowerOfTwo) :
    ∃ w', codeStep data i w (n + 1) = some w' ∧ AfterWalk data i (n + 1) w' := by
  have heq : n + 1 = 2 ^ w.cnum := by
    have heq := (succ_eq_two_pow_walk n).mpr hpow
    rwa [← h.counts] at heq
  refine ⟨_, codeStep_check hint hcnum heq, ?_, ?_, ?_⟩
  · rw [walkSum_succ, ← h.state, sumStep, if_pos heq]
  · rw [checkPositions_succ, if_pos hpow, ← h.powers]
  · rw [dataPositions_succ, if_pos hpow, List.append_nil]
    exact h.reads

theorem step_data (h : AfterWalk data i n w) (hint : 2 ^ r ≤ 2147483647) (hcnum : w.cnum ≤ r)
    (hi : i < r) (hdnum : w.dnum < data.length) (hpow : ¬ (n + 1).isPowerOfTwo) :
    ∃ w', codeStep data i w (n + 1) = some w' ∧ AfterWalk data i (n + 1) w' := by
  have hne : n + 1 ≠ 2 ^ w.cnum := by
    have hne := (succ_eq_two_pow_walk n).not.mpr hpow
    rwa [← h.counts] at hne
  refine ⟨_, codeStep_data hint hcnum hi hdnum hne, ?_, ?_, ?_⟩
  · rw [walkSum_succ, ← h.state, sumStep, if_neg hne]
  · rw [checkPositions_succ, if_neg hpow, List.append_nil]
    exact h.powers
  · have hlen : (dataPositions n).length = w.dnum := by
      rw [dataPositions_length, ← h.counts]
    rw [dataPositions_succ, if_neg hpow, List.zipIdx_append, hlen, ← h.reads, Nat.zero_add]
    rfl

/-- Step lemma: one more position, as long as the walk ends with `r` checks and `k` data. -/
theorem step (h : AfterWalk data i n w) (hint : 2 ^ r ≤ 2147483647)
    (hwalk : walk (r + k) = (k, r)) (hdata : k ≤ data.length) (hi : i < r) (hn : n < r + k) :
    ∃ w', codeStep data i w (n + 1) = some w' ∧ AfterWalk data i (n + 1) w' := by
  have hcounts := h.counts
  have hmono := (walk_mono (Nat.le_of_lt hn)).2
  rw [hwalk, ← hcounts] at hmono
  by_cases hpow : (n + 1).isPowerOfTwo
  · exact h.step_check hint hmono hpow
  · -- the bit that is read here is one of the `k`
    have hlast := (walk_mono (Nat.succ_le_of_lt hn)).1
    rw [hwalk, Nat.succ_eq_add_one, walk, if_neg ((succ_eq_two_pow_walk n).not.mpr hpow),
      ← hcounts] at hlast
    exact h.step_data hint hmono hi (Nat.lt_of_lt_of_le hlast hdata) hpow

/-- Run lemma: the walk up to position `n`. -/
theorem run (hint : 2 ^ r ≤ 2147483647) (hwalk : walk (r + k) = (k, r))
    (hdata : k ≤ data.length) (hi : i < r) (hn : n ≤ r + k) :
    ∃ w, (List.range' 1 n).foldlM (codeStep data i) ⟨0, 0, 0, [], []⟩ = some w ∧
      AfterWalk data i n w := by
  induction n with
  | zero => exact ⟨_, rfl, start data i⟩
  | succ n ih =>
      obtain ⟨w, hw, hafter⟩ := ih (Nat.le_of_succ_le hn)
      obtain ⟨w', hstep, hafter'⟩ := hafter.step hint hwalk hdata hi hn
      refine ⟨w', ?_, hafter'⟩
      rw [List.range'_1_concat, List.foldlM_append, hw, Nat.add_comm 1 n]
      simp only [Option.bind_eq_bind, Option.bind_some, List.foldlM_cons, List.foldlM_nil, hstep]
      rfl

end AfterWalk

theorem codeWalk_eq {k r : Nat} (hbound : r + k < 2147483647) (data : List Char) (i : Nat) :
    codeWalk data i k r =
      (List.range' 1 (r + k)).foldlM (codeStep data i) ⟨0, 0, 0, [], []⟩ := by
  have hn := @toInt_of_range ((r : Int) + k) (by omega) (by omega)
  have hend := @toInt_of_range ((r : Int) + k + 1) (by omega) (by omega)
  have hwalk : codeWalk data i k r = (toInt ((r : Int) + k)).bind fun n =>
      (toInt (n + 1)).bind fun _ =>
        (List.range' 1 (r + k)).foldlM (codeStep data i) ⟨0, 0, 0, [], []⟩ := rfl
  rw [hwalk, hn, Option.bind_some, hend, Option.bind_some]

/-- The walk has a result for each check, and `hamming_code` writes its character. -/
theorem hammingChecks_getElem? {data : List Char} {i k r : Nat} (hint : 2 ^ r ≤ 2147483647)
    (hlt : r + k < 2 ^ r) (hwalk : walk (r + k) = (k, r)) (hdata : k ≤ data.length) (hi : i < r) :
    ∃ w, codeWalk data i k r = some w ∧ AfterWalk data i (r + k) w ∧
      (hammingChecks data k r)[i]? = some (if w.sum.tmod 2 = 0 then '0' else '1') := by
  obtain ⟨w, hw, hafter⟩ := AfterWalk.run hint hwalk hdata hi (Nat.le_refl _)
  rw [← codeWalk_eq (hlt.trans_le hint)] at hw
  refine ⟨w, hw, hafter, ?_⟩
  rw [hammingChecks, List.getElem?_map, List.getElem?_range hi, Option.map_some, ← hafter.state]

/-! ## The numbering -/

/-- The numbering of the positions `1 .. r+k`: `r` of them are powers of two, and the others
    are the places of `data[0] .. data[k-1]`, one each and in order. -/
structure Numbered (k r : Nat) (w : CodeWalk) : Prop where
  powers : w.powers = (List.range r).map (2 ^ ·)
  indices : w.reads.map Prod.snd = List.range k
  partition : (w.powers ++ w.reads.map Prod.fst).Perm (List.range' 1 (r + k))
  ascending : (w.reads.map Prod.fst).Pairwise (· < ·)
  twoBits : ∀ p ∈ w.reads, ∃ a b, a < b ∧ b < r ∧ p.1.testBit a = true ∧ p.1.testBit b = true
  below : ∀ j, 1 ≤ j → j ≤ r + k → j < 2 ^ r

theorem AfterWalk.numbered {data : List Char} {i k r : Nat} {w : CodeWalk}
    (h : AfterWalk data i (r + k) w) (hwalk : walk (r + k) = (k, r)) (hlt : r + k < 2 ^ r) :
    Numbered k r w where
  powers := by rw [h.powers, checkPositions_eq_map, hwalk]
  indices := by
    rw [h.reads, List.zipIdx_map_snd, dataPositions_length, hwalk, List.range_eq_range']
  partition := by
    rw [h.powers, h.reads, List.zipIdx_map_fst]
    exact positions_perm (r + k)
  ascending := by
    rw [h.reads, List.zipIdx_map_fst]
    exact List.Pairwise.filter _ List.pairwise_lt_range'
  twoBits := by
    intro p hp
    rw [h.reads] at hp
    obtain ⟨⟨hpos, hle⟩, hpow⟩ := mem_dataPositions.mp (List.fst_mem_of_mem_zipIdx hp)
    obtain ⟨a, b, hab, ha, hb⟩ := exists_two_testBit (by omega) hpow
    refine ⟨a, b, hab, ?_, ha, hb⟩
    -- a bit from `r` on would put the position beyond the last one
    by_contra hge
    have hbit : 2 ^ b ≤ p.1 := Nat.ge_two_pow_of_testBit hb
    have hpow : 2 ^ r ≤ 2 ^ b := Nat.pow_le_pow_right (by decide) (Nat.le_of_not_lt hge)
    omega
  below := fun j _ hj => Nat.lt_of_le_of_lt hj hlt

/-- For every `k` whose `2 ^ hmLength k` fits an `int`, the loop of `hmLength` ends with the
    least `r` with `2 ^ r ≥ k + r + 1`, and the walk for each check numbers the positions:
    it meets the `r` powers of two and reads `data[0] .. data[k-1]` once each, in order. -/
theorem hamming_positions (k : Nat) (hint : 2 ^ hmLength k ≤ 2147483647) :
    (∀ fuel, hmLength k + 2 ≤ fuel → hmLengthInt k fuel 0 true = some (hmLength k : Int)) ∧
    IsLeast {r | k + r + 1 ≤ 2 ^ r} (hmLength k) ∧
    ∀ data : List Char, data.length = k → ∀ i < hmLength k,
      ∃ w, codeWalk data i k (hmLength k) = some w ∧ Numbered k (hmLength k) w := by
  obtain ⟨hlt, hle⟩ := hmLength_spec k
  refine ⟨fun fuel hfuel => hmLengthInt_eq hint (Nat.zero_le _) hfuel hlt hle,
    isLeast_hmLength k, fun data hdata i hi => ?_⟩
  obtain ⟨w, hw, hafter, _⟩ := hammingChecks_getElem? hint hlt (walk_hmLength k) hdata.ge hi
  exact ⟨w, hw, hafter.numbered (walk_hmLength k) hlt⟩

/-- One byte with four checks: the positions 3, 5, 6, 7, 9, 10, 11 and 12 hold its bits. -/
theorem hamming_positions_byte :
    ∃ w, codeWalk (castBitsToChar [0xca]) 0 8 4 = some w ∧ Numbered 8 4 w :=
  (hamming_positions 8 (by decide)).2.2 (castBitsToChar [0xca]) rfl 0 (by decide)

end MpiApps.Fault
