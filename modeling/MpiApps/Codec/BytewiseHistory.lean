/-
  MpiApps.Codec.BytewiseHistory

  Which elements the bytewise compressor predicts from.

  The slots of the history start at `-1` and are filled while one of them equals `-1`.  An
  element that is `-1` itself is therefore passed over: it never stays in a slot.  Whenever
  a letter is written, the slots are the last four values other than `-1` (`slots_foldl`),
  while the decompressor extrapolates from the last four positions.

  The letter reads the same elements on both sides exactly if no `-1` stands among the positions
  that it extrapolates from, and then the two predictions agree (`historyAgrees_of_outOfReach`).
-/

import MpiApps.Codec.Bytewise
import MpiApps.Codec.Ieee

namespace MpiApps.Codec

open MpiApps.BinaryFormat

section History

variable {fmt : Format} {V : Type} (A : FloatArith fmt V)

/-! ## The slots of a run -/

/-- The slots when the loop of the compressor comes to element `i`. -/
def slotsAt (data : List (BitVec fmt.numBits)) (i : Nat) : ByteHistory V :=
  ((data.take i).foldl (compressBytesStep A) (⟨[], [], []⟩, ByteHistory.init A)).2

/-- The prediction that is compared with an element that gets a letter is the extrapolation
    of the elements right before it. -/
def HistoryAgrees (data : List (BitVec fmt.numBits)) : Prop :=
  ∀ i x t, data[i]? = some x → byteCode A (slotsAt A data i) x = some t →
    extrapolate A (data.map A.ofBits) i t = .ok ((slotsAt A data i).predictValue A t)

theorem foldl_compressBytesStep_snd (xs : List (BitVec fmt.numBits))
    (s : ByteArrays V × ByteHistory V) :
    (xs.foldl (compressBytesStep A) s).2 =
      (xs.map A.ofBits).foldl (ByteHistory.push A) s.2 := by
  induction xs generalizing s with
  | nil => rfl
  | cons x xs ih =>
      have hstep : (compressBytesStep A s x).2 = s.2.push A (A.ofBits x) := by
        simp only [compressBytesStep, ByteHistory.push]
        split
        · rfl
        · split <;> rfl
      rw [List.foldl_cons, ih, hstep, List.map_cons, List.foldl_cons]

theorem slotsAt_eq (data : List (BitVec fmt.numBits)) (i : Nat) :
    slotsAt A data i =
      ((data.map A.ofBits).take i).foldl (ByteHistory.push A) (ByteHistory.init A) := by
  rw [slotsAt, foldl_compressBytesStep_snd, List.map_take]

/-- The decisions that the arrays record are those made with these slots. -/
theorem byteCodes_slotsAt (data : List (BitVec fmt.numBits)) (i : Nat) :
    (byteCodes A (ByteHistory.init A) data)[i]? =
      data[i]?.map fun x => (A.ofBits x, byteCode A (slotsAt A data i) x) := by
  rw [byteCodes_getElem?, slotsAt_eq, List.map_take]

/-! ## The last values other than the marker -/

/-- How many elements a letter extrapolates from. -/
def Letter.order : Letter → Nat
  | .a => 1
  | .b => 2
  | .c => 3
  | .d => 4

/-- The values that are not `-1`, the latest first. -/
def keptValues (vs : List V) : List V := vs.reverse.filter fun v => !History.unset A v

/-- The first four of a list as slots. -/
def firstFour : List V → Option (ByteHistory V)
  | v₁ :: v₂ :: v₃ :: v₄ :: _ => some ⟨v₁, v₂, v₃, v₄⟩
  | _ => none

/-- Slots into which the values `kept`, the latest first, have been put: while there are
    less than four, the remaining slots are unset; afterwards an element that equals the
    marker pushes the oldest value out and leaves the first slot unset. -/
def Slots (h : ByteHistory V) (marked : Bool) : List V → Prop
  | [] => History.unset A h.beforeValue1 = true ∧ History.unset A h.beforeValue2 = true ∧
      History.unset A h.beforeValue3 = true ∧ History.unset A h.beforeValue4 = true
  | [v₁] => History.unset A h.beforeValue1 = true ∧ History.unset A h.beforeValue2 = true ∧
      History.unset A h.beforeValue3 = true ∧ h.beforeValue4 = v₁
  | [v₁, v₂] => History.unset A h.beforeValue1 = true ∧ History.unset A h.beforeValue2 = true ∧
      h.beforeValue3 = v₁ ∧ h.beforeValue4 = v₂
  | [v₁, v₂, v₃] => History.unset A h.beforeValue1 = true ∧ h.beforeValue2 = v₁ ∧
      h.beforeValue3 = v₂ ∧ h.beforeValue4 = v₃
  | v₁ :: v₂ :: v₃ :: v₄ :: _ =>
    if marked then
      History.unset A h.beforeValue1 = true ∧ h.beforeValue2 = v₁ ∧ h.beforeValue3 = v₂ ∧
        h.beforeValue4 = v₃
    else h = ⟨v₁, v₂, v₃, v₄⟩

/-- Step lemma: a marker leaves the kept values as they are, any other value joins them. -/
theorem Slots.push {h : ByteHistory V} {marked : Bool} {kept : List V}
    (hs : Slots A h marked kept) (hkept : ∀ v ∈ kept, History.unset A v = false) (v : V) :
    Slots A (h.push A v) (History.unset A v)
      (if History.unset A v then kept else v :: kept) := by
  obtain ⟨b₁, b₂, b₃, b₄⟩ := h
  -- one case for each number of filled slots
  rcases kept with _ | ⟨v₁, _ | ⟨v₂, _ | ⟨v₃, _ | ⟨v₄, rest⟩⟩⟩⟩
  · obtain ⟨h1, h2, h3, h4⟩ := hs
    cases hv : History.unset A v <;>
      simp_all [Slots, ByteHistory.push, ByteHistory.anyUnset, ByteHistory.fill]
  · obtain ⟨h1, h2, h3, rfl⟩ := hs
    cases hv : History.unset A v <;>
      simp_all [Slots, ByteHistory.push, ByteHistory.anyUnset, ByteHistory.fill]
  · obtain ⟨h1, h2, rfl, rfl⟩ := hs
    cases hv : History.unset A v <;>
      simp_all [Slots, ByteHistory.push, ByteHistory.anyUnset, ByteHistory.fill]
  · obtain ⟨h1, rfl, rfl, rfl⟩ := hs
    cases hv : History.unset A v <;>
      simp_all [Slots, ByteHistory.push, ByteHistory.anyUnset, ByteHistory.fill]
  · cases marked
    · -- all slots are set: the value is shifted in, marker or not
      obtain ⟨rfl, rfl, rfl, rfl⟩ : b₁ = v₁ ∧ b₂ = v₂ ∧ b₃ = v₃ ∧ b₄ = v₄ := by
        simpa [Slots] using hs
      cases hv : History.unset A v <;>
        simp_all [Slots, ByteHistory.push, ByteHistory.anyUnset, ByteHistory.shift]
    · -- a marker is in the first slot: the value replaces it
      obtain ⟨h1, rfl, rfl, rfl⟩ := hs
      cases hv : History.unset A v <;>
        simp_all [Slots, ByteHistory.push, ByteHistory.anyUnset, ByteHistory.fill]

/-- Run lemma: the slots after the values `vs`. -/
theorem slots_foldl (hneg : History.unset A (A.ofInt (-1)) = true) (vs : List V) :
    Slots A (vs.foldl (ByteHistory.push A) (ByteHistory.init A))
      ((vs.getLast?.map (History.unset A)).getD false) (keptValues A vs) := by
  induction vs using List.reverseRecOn with
  | nil => exact ⟨hneg, hneg, hneg, hneg⟩
  | append_singleton vs v ih =>
      have hkept : ∀ v ∈ keptValues A vs, History.unset A v = false := by
        intro v hv
        simpa using (List.mem_filter.mp hv).2
      have hpush := ih.push A hkept v
      rw [List.foldl_append, List.getLast?_append, keptValues, List.reverse_append]
      simp only [List.foldl_cons, List.foldl_nil, List.getLast?_singleton, Option.some_or,
        Option.map_some, Option.getD_some, List.reverse_singleton, List.singleton_append,
        List.filter_cons]
      cases hv : History.unset A v
      · rw [hv] at hpush
        exact hpush
      · rw [hv] at hpush
        exact hpush

/-! ## The slots behind a letter -/

/-- The choice of a letter for a value `v` behind the values `vs`: the last value is no
    marker, `h` are the last four values other than the marker, and `t` is the best of their
    four extrapolations, within the bound of `v`. -/
structure Chosen (vs : List V) (v : V) (h : ByteHistory V) (t : Letter) : Prop where
  recent : firstFour (keptValues A vs) = some h
  last : ∀ w, vs.getLast? = some w → History.unset A w = false
  letter : (h.select A v).1 = t
  close : A.leBound (h.select A v).2 = true

/-- Unset slots and slots that wait for a value behind a marker count as unset. -/
theorem Slots.anyUnset_iff {h : ByteHistory V} {marked : Bool} {kept : List V}
    (hs : Slots A h marked kept) (hkept : ∀ v ∈ kept, History.unset A v = false) :
    h.anyUnset A = false ↔ marked = false ∧ firstFour kept = some h := by
  obtain ⟨b₁, b₂, b₃, b₄⟩ := h
  rcases kept with _ | ⟨v₁, _ | ⟨v₂, _ | ⟨v₃, _ | ⟨v₄, rest⟩⟩⟩⟩
  · simp_all [Slots, ByteHistory.anyUnset, firstFour]
  · simp_all [Slots, ByteHistory.anyUnset, firstFour]
  · simp_all [Slots, ByteHistory.anyUnset, firstFour]
  · simp_all [Slots, ByteHistory.anyUnset, firstFour]
  · cases marked
    · obtain ⟨rfl, rfl, rfl, rfl⟩ : b₁ = v₁ ∧ b₂ = v₂ ∧ b₃ = v₃ ∧ b₄ = v₄ := by
        simpa [Slots] using hs
      simp_all [ByteHistory.anyUnset, firstFour]
    · simp_all [Slots, ByteHistory.anyUnset]

theorem Slots.eq_of_firstFour {h h' : ByteHistory V} {kept : List V} (hs : Slots A h false kept)
    (hfirst : firstFour kept = some h') : h = h' := by
  rcases kept with _ | ⟨v₁, _ | ⟨v₂, _ | ⟨v₃, _ | ⟨v₄, rest⟩⟩⟩⟩
  · cases hfirst
  · cases hfirst
  · cases hfirst
  · cases hfirst
  · exact (show h = ⟨v₁, v₂, v₃, v₄⟩ by simpa [Slots] using hs).trans (Option.some.inj hfirst)

/-- A letter is written exactly if it is chosen from the values before the element, and then
    the slots are the last four values other than the marker. -/
theorem byteCode_eq_some_iff (hneg : History.unset A (A.ofInt (-1)) = true)
    (data : List (BitVec fmt.numBits)) (i : Nat) (x : BitVec fmt.numBits) (t : Letter) :
    byteCode A (slotsAt A data i) x = some t ↔
      Chosen A ((data.map A.ofBits).take i) (A.ofBits x) (slotsAt A data i) t := by
  have hs := slots_foldl A hneg ((data.map A.ofBits).take i)
  rw [← slotsAt_eq] at hs
  -- the history is full exactly if four values are there and the last one is none of -1
  have hset := hs.anyUnset_iff A fun v hv => by simpa using (List.mem_filter.mp hv).2
  have hmarked : (((data.map A.ofBits).take i).getLast?.map (History.unset A)).getD false = false ↔
      ∀ w, ((data.map A.ofBits).take i).getLast? = some w → History.unset A w = false := by
    cases ((data.map A.ofBits).take i).getLast? <;> simp
  constructor
  · intro hcode
    unfold byteCode at hcode
    cases hu : (slotsAt A data i).anyUnset A
    · rw [hu, if_neg Bool.false_ne_true] at hcode
      obtain ⟨hlast, hrecent⟩ := hset.mp hu
      split at hcode
      · next hclose => exact ⟨hrecent, hmarked.mp hlast, Option.some.inj hcode, hclose⟩
      · cases hcode
    · rw [hu, if_pos rfl] at hcode
      cases hcode
  · rintro ⟨hrecent, hlast, rfl, hclose⟩
    have hu := hset.mpr ⟨hmarked.mpr hlast, hrecent⟩
    rw [byteCode, hu, if_neg Bool.false_ne_true, if_pos hclose]

theorem Chosen.slotsAt_eq (hneg : History.unset A (A.ofInt (-1)) = true)
    {data : List (BitVec fmt.numBits)} {i : Nat} {v : V} {h : ByteHistory V} {t : Letter}
    (hc : Chosen A ((data.map A.ofBits).take i) v h t) : slotsAt A data i = h := by
  have hs := slots_foldl A hneg ((data.map A.ofBits).take i)
  rw [← MpiApps.Codec.slotsAt_eq] at hs
  have hlast : (((data.map A.ofBits).take i).getLast?.map (History.unset A)).getD false =
      false := by
    cases hl : ((data.map A.ofBits).take i).getLast? with
    | none => rfl
    | some w => exact hc.last w hl
  rw [hlast] at hs
  exact hs.eq_of_firstFour A hc.recent

/-! ## The decompressor's positions -/

theorem firstFour_eq_some {vs : List V} {d : ByteHistory V} (h : firstFour vs = some d) :
    ∃ rest, vs = d.beforeValue1 :: d.beforeValue2 :: d.beforeValue3 :: d.beforeValue4 :: rest := by
  rcases vs with _ | ⟨v₁, _ | ⟨v₂, _ | ⟨v₃, _ | ⟨v₄, rest⟩⟩⟩⟩
  · cases h
  · cases h
  · cases h
  · cases h
  · obtain rfl : (⟨v₁, v₂, v₃, v₄⟩ : ByteHistory V) = d := Option.some.inj h
    exact ⟨rest, rfl⟩

theorem readData_append (front : List V) {back : List V} {j : Nat} {v : V} (h : back[j]? = some v) :
    readData (front ++ back) (front.length + j : Nat) = .ok v := by
  rw [readData, if_pos (Int.natCast_nonneg _), Int.toNat_natCast,
    List.getElem?_append_right (Nat.le_add_right _ _), Nat.add_sub_cancel_left, h]

/-- The decompressor extrapolates from the last four positions. -/
theorem extrapolate_of_firstFour {vs : List V} {i : Nat} (hi : i ≤ vs.length) {d : ByteHistory V}
    (hd : firstFour (vs.take i).reverse = some d) (t : Letter) :
    extrapolate A vs i t = .ok (d.predictValue A t) := by
  obtain ⟨rest, hrest⟩ := firstFour_eq_some hd
  have htake : vs.take i = rest.reverse ++
      [d.beforeValue4, d.beforeValue3, d.beforeValue2, d.beforeValue1] := by
    rw [← List.reverse_reverse (vs.take i), hrest]
    simp
  -- the values are read backwards from `i`, and the markers are not among them
  have hlen : i = rest.reverse.length + 4 := by
    have h := congrArg List.length htake
    rw [List.length_take, Nat.min_eq_left hi] at h
    exact h.trans List.length_append
  have hvs : vs = rest.reverse ++
      ([d.beforeValue4, d.beforeValue3, d.beforeValue2, d.beforeValue1] ++ vs.drop i) := by
    rw [← List.append_assoc, ← htake, List.take_append_drop]
  have hread := fun j v => @readData_append V rest.reverse
    ([d.beforeValue4, d.beforeValue3, d.beforeValue2, d.beforeValue1] ++ vs.drop i) j v
  rw [← hvs] at hread
  have h1 : readData vs (i - 1) = .ok d.beforeValue1 := by
    rw [show (i : Int) - 1 = ((rest.reverse.length + 3 : Nat) : Int) by omega]
    exact hread 3 _ rfl
  have h2 : readData vs (i - 2) = .ok d.beforeValue2 := by
    rw [show (i : Int) - 2 = ((rest.reverse.length + 2 : Nat) : Int) by omega]
    exact hread 2 _ rfl
  have h3 : readData vs (i - 3) = .ok d.beforeValue3 := by
    rw [show (i : Int) - 3 = ((rest.reverse.length + 1 : Nat) : Int) by omega]
    exact hread 1 _ rfl
  have h4 : readData vs (i - 4) = .ok d.beforeValue4 := by
    rw [show (i : Int) - 4 = ((rest.reverse.length + 0 : Nat) : Int) by omega]
    exact hread 0 _ rfl
  cases t
  · exact h1
  · rw [extrapolate, h1, h2]
    rfl
  · rw [extrapolate, h1, h2, h3]
    rfl
  · rw [extrapolate, h1, h2, h3, h4]
    rfl

/-! ## When the two agree -/

/-- No marker stands among the elements that a letter extrapolates from. -/
def MarkersOutOfReach (data : List (BitVec fmt.numBits)) : Prop :=
  ∀ i x h t, data[i]? = some x →
    Chosen A ((data.map A.ofBits).take i) (A.ofBits x) h t →
      ∀ v ∈ ((data.map A.ofBits).take i).reverse.take t.order, History.unset A v = false

/-- The first slots. -/
def ByteHistory.latest (h : ByteHistory V) (k : Nat) : List V :=
  [h.beforeValue1, h.beforeValue2, h.beforeValue3, h.beforeValue4].take k

/-- The slots that a letter is computed from hold the elements right before it. -/
def SlotsArePositions (data : List (BitVec fmt.numBits)) : Prop :=
  ∀ i x t, data[i]? = some x → byteCode A (slotsAt A data i) x = some t →
    (slotsAt A data i).latest t.order = ((data.map A.ofBits).take i).reverse.take t.order

omit A in
theorem latest_of_firstFour {vs : List V} {h : ByteHistory V} (hh : firstFour vs = some h)
    (t : Letter) : h.latest t.order = vs.take t.order := by
  obtain ⟨rest, rfl⟩ := firstFour_eq_some hh
  cases t <;> rfl

omit A in
/-- A filter does not reach into a front that it keeps. -/
theorem take_filter_of_forall {p : V → Bool} {vs : List V} {k : Nat}
    (h : ∀ v ∈ vs.take k, p v = true) : (vs.filter p).take k = vs.take k := by
  induction vs generalizing k with
  | nil => rfl
  | cons v vs ih =>
      cases k with
      | zero => rfl
      | succ k =>
          rw [List.take_succ_cons, List.forall_mem_cons] at h
          rw [List.filter_cons_of_pos h.1, List.take_succ_cons, List.take_succ_cons, ih h.2]

/-- What is compared with an element depends on the slots in reach of the letter only. -/
theorem predictValue_congr {h d : ByteHistory V} {t : Letter}
    (heq : h.latest t.order = d.latest t.order) : h.predictValue A t = d.predictValue A t := by
  cases t with
  | a =>
      simp only [ByteHistory.latest, Letter.order, List.take, List.cons.injEq] at heq
      rw [ByteHistory.predictValue, ByteHistory.predictValue, heq.1]
  | b =>
      simp only [ByteHistory.latest, Letter.order, List.take, List.cons.injEq] at heq
      rw [ByteHistory.predictValue, ByteHistory.predictValue, heq.1, heq.2.1]
  | c =>
      simp only [ByteHistory.latest, Letter.order, List.take, List.cons.injEq] at heq
      rw [ByteHistory.predictValue, ByteHistory.predictValue, heq.1, heq.2.1, heq.2.2.1]
  | d =>
      simp only [ByteHistory.latest, Letter.order, List.take, List.cons.injEq] at heq
      rw [ByteHistory.predictValue, ByteHistory.predictValue, heq.1, heq.2.1, heq.2.2.1,
        heq.2.2.2.1]

theorem exists_firstFour_of_length {vs : List V} (h : 4 ≤ vs.length) :
    ∃ d, firstFour vs = some d := by
  rcases vs with _ | ⟨v₁, _ | ⟨v₂, _ | ⟨v₃, _ | ⟨v₄, rest⟩⟩⟩⟩
  · simp at h
  · simp at h
  · simp at h
  · simp at h
  · exact ⟨_, rfl⟩

theorem length_of_firstFour_keptValues {vs : List V} {h : ByteHistory V}
    (hh : firstFour (keptValues A vs) = some h) : 4 ≤ vs.length := by
  obtain ⟨rest, hrest⟩ := firstFour_eq_some hh
  have h := List.length_filter_le (fun v => !History.unset A v) vs.reverse
  have hkept := congrArg List.length hrest
  rw [keptValues] at hkept
  simp only [List.length_cons] at hkept
  rw [List.length_reverse] at h
  omega

/-- Four values other than the marker are among at least four values. -/
theorem exists_firstFour {vs : List V} {h : ByteHistory V}
    (hh : firstFour (keptValues A vs) = some h) : ∃ d, firstFour vs.reverse = some d :=
  exists_firstFour_of_length
    (by rw [List.length_reverse]; exact length_of_firstFour_keptValues A hh)

/-- The slots behind a letter are the last four values other than the marker, so they are the
    last elements as far as there is no marker among these. -/
theorem slotsArePositions_iff (hneg : History.unset A (A.ofInt (-1)) = true)
    (data : List (BitVec fmt.numBits)) : SlotsArePositions A data ↔ MarkersOutOfReach A data := by
  constructor
  · intro hslots i x h t hx hc v hv
    obtain rfl := hc.slotsAt_eq A hneg
    -- a slot holds no marker
    rw [← hslots i x t hx ((byteCode_eq_some_iff A hneg data i x t).mpr hc),
      latest_of_firstFour hc.recent] at hv
    simpa using (List.mem_filter.mp (List.mem_of_mem_take hv)).2
  · intro hreach i x t hx hcode
    have hc := (byteCode_eq_some_iff A hneg data i x t).mp hcode
    rw [latest_of_firstFour hc.recent, keptValues, take_filter_of_forall]
    intro v hv
    rw [hreach i x _ t hx hc v hv]
    rfl

theorem SlotsArePositions.historyAgrees (hneg : History.unset A (A.ofInt (-1)) = true)
    {data : List (BitVec fmt.numBits)} (hslots : SlotsArePositions A data) :
    HistoryAgrees A data := by
  intro i x t hx hcode
  have hc := (byteCode_eq_some_iff A hneg data i x t).mp hcode
  have hi : i ≤ (data.map A.ofBits).length := by
    obtain ⟨hi, _⟩ := List.getElem?_eq_some_iff.mp hx
    rw [List.length_map]
    exact hi.le
  obtain ⟨d, hd⟩ := exists_firstFour A hc.recent
  -- the decoder extrapolates from the last four values, markers or not
  rw [extrapolate_of_firstFour A hi hd]
  refine congrArg Except.ok (predictValue_congr A ?_)
  rw [latest_of_firstFour hd, hslots i x t hx hcode]

end History

/-- The marker equals itself, for doubles and for floats. -/
theorem unset_marker (eb : ErrorBound) :
    History.unset (FloatArith.ieee double eb) ((FloatArith.ieee double eb).ofInt (-1)) = true ∧
    History.unset (FloatArith.ieee float eb) ((FloatArith.ieee float eb).ofInt (-1)) = true := by
  have h : History.unset (FloatArith.ieee double absErrorBound)
      ((FloatArith.ieee double absErrorBound).ofInt (-1)) = true := by decide +kernel
  have h' : History.unset (FloatArith.ieee float absErrorBound)
      ((FloatArith.ieee float absErrorBound).ofInt (-1)) = true := by decide +kernel
  exact ⟨h, h'⟩

/-- In the code of doubles and of floats: a letter is computed from the elements right before it
    exactly if no `-1` is in its reach, and then what the compressor compares is what the
    decompressor extrapolates. -/
theorem historyAgrees_of_outOfReach (eb : ErrorBound) (data : List (BitVec 64))
    (data' : List (BitVec 32)) :
    ((MarkersOutOfReach (FloatArith.ieee double eb) data →
        HistoryAgrees (FloatArith.ieee double eb) data) ∧
      (SlotsArePositions (FloatArith.ieee double eb) data ↔
        MarkersOutOfReach (FloatArith.ieee double eb) data)) ∧
    ((MarkersOutOfReach (FloatArith.ieee float eb) data' →
        HistoryAgrees (FloatArith.ieee float eb) data') ∧
      (SlotsArePositions (FloatArith.ieee float eb) data' ↔
        MarkersOutOfReach (FloatArith.ieee float eb) data')) := by
  obtain ⟨hdouble, hfloat⟩ := unset_marker eb
  have hiff := slotsArePositions_iff (FloatArith.ieee double eb) hdouble data
  have hiff' := slotsArePositions_iff (FloatArith.ieee float eb) hfloat data'
  exact ⟨⟨fun h => (hiff.mpr h).historyAgrees _ hdouble, hiff⟩,
    ⟨fun h => (hiff'.mpr h).historyAgrees _ hfloat, hiff'⟩⟩

/-- Without a marker in the list there is none in reach. -/
theorem outOfReach_of_forall {fmt : Format} {V : Type} (A : FloatArith fmt V)
    {data : List (BitVec fmt.numBits)}
    (h : ∀ x ∈ data, History.unset A (A.ofBits x) = false) : MarkersOutOfReach A data := by
  intro i _ _ _ _ _ v hv
  obtain ⟨x, hx, rfl⟩ := List.mem_map.mp
    (List.mem_of_mem_take (List.mem_reverse.mp (List.mem_of_mem_take hv)))
  exact h x hx

/-- `1, 2, 3, 4, 5, 6`. -/
def countedData : List (BitVec 64) :=
  [0x3FF0000000000000, 0x4000000000000000, 0x4008000000000000, 0x4010000000000000,
    0x4014000000000000, 0x4018000000000000]

theorem historyAgrees_of_outOfReach_counted :
    HistoryAgrees (FloatArith.ieee double absErrorBound) countedData := by
  have hmarker : ∀ x ∈ countedData,
      History.unset (FloatArith.ieee double absErrorBound) x = false := by
    simp only [countedData, List.forall_mem_cons]
    refine ⟨?_, ?_, ?_, ?_, ?_, ?_, List.forall_mem_nil _⟩ <;> decide +kernel
  exact (historyAgrees_of_outOfReach absErrorBound countedData []).1.1
    (outOfReach_of_forall (FloatArith.ieee double absErrorBound) hmarker)

/-- `1, 2, 3, 4, -1, 5, 6`. -/
def markedData : List (BitVec 64) :=
  [0x3FF0000000000000, 0x4000000000000000, 0x4008000000000000, 0x4010000000000000,
    0xBFF0000000000000, 0x4014000000000000, 0x4018000000000000]

/-- The last element is predicted from `5, 4, 3, 2`. -/
theorem markedData_chosen : Chosen (FloatArith.ieee double absErrorBound)
    ((markedData.map (FloatArith.ieee double absErrorBound).ofBits).take 6)
    0x4018000000000000
    ⟨0x4014000000000000, 0x4010000000000000, 0x4008000000000000, 0x4000000000000000⟩ .b := by
  have hkept : keptValues (FloatArith.ieee double absErrorBound)
      ((markedData.map (FloatArith.ieee double absErrorBound).ofBits).take 6) =
        [0x4014000000000000, 0x4010000000000000, 0x4008000000000000, 0x4000000000000000,
          0x3FF0000000000000] := by decide +kernel
  have hselect : ByteHistory.select (FloatArith.ieee double absErrorBound)
      ⟨0x4014000000000000, 0x4010000000000000, 0x4008000000000000, 0x4000000000000000⟩
        0x4018000000000000 = (.b, 0) := by decide +kernel
  have hlast : History.unset (FloatArith.ieee double absErrorBound) 0x4014000000000000 = false := by
    decide +kernel
  refine ⟨congrArg firstFour hkept, fun w hw => ?_, congrArg Prod.fst hselect, ?_⟩
  · obtain rfl : 0x4014000000000000 = w := Option.some.inj hw
    exact hlast
  · rw [hselect]
    show decide ((0 : ℚ) ≤ absErrorBound.absErrBound) = true
    exact decide_eq_true absErrorBound.pos.le

/-- The last element of `markedData` is predicted by `2 * 5 - 4` and is reconstructed as
    `2 * 5 - (-1)`. -/
theorem history_disagrees :
    ¬ ∀ (eb : ErrorBound) (data : List (BitVec 64)), (∀ x ∈ data, double.Finite (bitsOf x)) →
      HistoryAgrees (FloatArith.ieee double eb) data := by
  intro hall
  have hfinite : ∀ x ∈ markedData, double.Finite (bitsOf x) := by
    simp only [markedData, List.forall_mem_cons]
    refine ⟨?_, ?_, ?_, ?_, ?_, ?_, ?_, List.forall_mem_nil _⟩ <;> decide +kernel
  have hdata : ((markedData.map (FloatArith.ieee double absErrorBound).ofBits).take 6).reverse =
      [0x4014000000000000, 0xBFF0000000000000, 0x4010000000000000, 0x4008000000000000,
        0x4000000000000000, 0x3FF0000000000000] := by decide +kernel
  -- the marker in between makes the linear prediction another one
  have hpredict : ByteHistory.predictValue (FloatArith.ieee double absErrorBound)
      ⟨0x4014000000000000, 0xBFF0000000000000, 0x4010000000000000, 0x4008000000000000⟩ .b ≠
        ByteHistory.predictValue (FloatArith.ieee double absErrorBound)
          ⟨0x4014000000000000, 0x4010000000000000, 0x4008000000000000, 0x4000000000000000⟩ .b := by
    decide +kernel
  have hslots := markedData_chosen.slotsAt_eq _ (unset_marker absErrorBound).1
  have hcode := (byteCode_eq_some_iff (FloatArith.ieee double absErrorBound)
    (unset_marker absErrorBound).1 markedData 6 0x4018000000000000 .b).mpr
      (hslots ▸ markedData_chosen)
  have hpred := hall absErrorBound markedData hfinite 6 0x4018000000000000 .b rfl hcode
  have hextra := @extrapolate_of_firstFour double _ (FloatArith.ieee double absErrorBound)
    (markedData.map (FloatArith.ieee double absErrorBound).ofBits) 6 (by decide) _
    (congrArg firstFour hdata) .b
  rw [hslots] at hpred
  exact hpredict (Except.ok.inj (hextra.symm.trans hpred))

-- behind `1e300` the marker and `4` are both rounded away, and the predictions agree by chance
example :
    ByteHistory.predictValue (FloatArith.ieee double absErrorBound)
        ⟨0x7E37E43C8800759C, 0xBFF0000000000000, 0x4010000000000000, 0x4008000000000000⟩ .b =
      ByteHistory.predictValue (FloatArith.ieee double absErrorBound)
        ⟨0x7E37E43C8800759C, 0x4010000000000000, 0x4008000000000000, 0x4000000000000000⟩ .b := by
  decide +kernel

end MpiApps.Codec
