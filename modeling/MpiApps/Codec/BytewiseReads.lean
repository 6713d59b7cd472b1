/-
  MpiApps.Codec.BytewiseReads

  Which entries of the three arrays the bytewise decompressor reads.

  The position of a letter is the number of elements up to it, so the displacements grow
  and say which elements were sent verbatim (`Partitions`).  The merge follows them with
  three cursors: as long as the displacement cursor points at the next letter, or at
  something that matches no position, every literal and every letter is used once, in order
  (`cursorsAt_eq`).

  The displacement array is read in every iteration.  Behind the last letter its cursor has
  come to the end of the array, and the next iteration reads the entry behind it
  (`readsInside_iff`).
-/

import MpiApps.Codec.BytewiseHistory

namespace MpiApps.Codec

open MpiApps.BinaryFormat

/-! ## Reads -/

/-- A read of one of the three arrays, with its index. -/
inductive ByteRead
  | arrayDouble (k : Nat)
  | arrayChar (k : Nat)
  | arrayCharDisplacement (k : Nat)
  deriving DecidableEq, Repr

/-- The index is that of an entry. -/
def ByteRead.Inside {V : Type} (arrays : ByteArrays V) : ByteRead → Prop
  | .arrayDouble k => k < arrays.arrayDouble.length
  | .arrayChar k => k < arrays.arrayChar.length
  | .arrayCharDisplacement k => k < arrays.arrayCharDisplacement.length

/-- The index of a literal that is read. -/
def ByteRead.literal? : ByteRead → Option Nat
  | .arrayDouble k => some k
  | _ => none

/-- The index of a letter that is read. -/
def ByteRead.letter? : ByteRead → Option Nat
  | .arrayChar k => some k
  | _ => none

section Reads

variable {fmt : Format} {V : Type} (A : FloatArith fmt V)

/-- The reads of iteration `i`: the displacement unless the array is a null pointer, and
    then a letter or a literal. -/
def iterationReads (arrays : ByteArrays V) (past : Int) (s : ByteCursors V) (i : Nat) :
    List ByteRead :=
  if arrays.arrayCharDisplacement ≠ [] then
    .arrayCharDisplacement s.arrayCharDisplacementP ::
      if arrays.arrayCharDisplacement.getD s.arrayCharDisplacementP past - 1 = i then
        [.arrayChar s.arrayCharP]
      else [.arrayDouble s.arrayDoubleP]
  else [.arrayDouble s.arrayDoubleP]

/-- The variables of the decompressor when it comes to iteration `i`. -/
def cursorsAt (arrays : ByteArrays V) (past : Int) (i : Nat) : Except Fault (ByteCursors V) :=
  (List.range i).foldlM (decompressBytesStep A arrays past) ⟨[], 0, 0, 0⟩

/-- The reads of the iterations before `num`, in order. -/
def byteReads (arrays : ByteArrays V) (past : Int) (num : Nat) : List ByteRead :=
  (List.range num).flatMap fun i =>
    match cursorsAt A arrays past i with
    | .ok s => iterationReads arrays past s i
    | .error _ => []

/-- Every iteration is reached and reads entries of the arrays only. -/
def ReadsInside (arrays : ByteArrays V) (past : Int) (num : Nat) : Prop :=
  ∀ i < num, ∃ s, cursorsAt A arrays past i = .ok s ∧
    ∀ r ∈ iterationReads arrays past s i, r.Inside arrays

/-! ## The arrays of a list of decisions -/

section Arrays

variable (ps qs : List (V × Option Letter))

@[simp] theorem verbatim_append : verbatim (ps ++ qs) = verbatim ps ++ verbatim qs :=
  List.filterMap_append

@[simp] theorem letters_append : letters (ps ++ qs) = letters ps ++ letters qs :=
  List.filterMap_append

theorem displacements_append (n : Nat) :
    displacements n (ps ++ qs) = displacements n ps ++ displacements (n + ps.length) qs := by
  induction ps generalizing n with
  | nil => rfl
  | cons p ps ih =>
      obtain ⟨v, code⟩ := p
      have hn : n + 1 + ps.length = n + (ps.length + 1) := by omega
      cases code with
      | none =>
          show displacements (n + 1) (ps ++ qs) = _
          rw [ih, hn]
          rfl
      | some t =>
          show _ :: displacements (n + 1) (ps ++ qs) = _
          rw [ih, hn]
          rfl

@[simp] theorem displacements_length (n : Nat) :
    (displacements n ps).length = (letters ps).length := by
  induction ps generalizing n with
  | nil => rfl
  | cons p ps ih =>
      obtain ⟨v, code⟩ := p
      cases code with
      | none => exact ih (n + 1)
      | some t => exact congrArg (· + 1) (ih (n + 1))

/-- Every element leaves a literal or a letter. -/
theorem verbatim_length_add : (verbatim ps).length + (letters ps).length = ps.length := by
  induction ps with
  | nil => rfl
  | cons p ps ih =>
      obtain ⟨v, code⟩ := p
      cases code with
      | none =>
          show (verbatim ps).length + 1 + (letters ps).length = ps.length + 1
          omega
      | some t =>
          show (verbatim ps).length + ((letters ps).length + 1) = ps.length + 1
          omega

variable {ps}

theorem displacements_eq_nil_iff {n : Nat} : displacements n ps = [] ↔ letters ps = [] := by
  rw [← List.length_eq_zero_iff, displacements_length, List.length_eq_zero_iff]

theorem letters_take_le {i j : Nat} (h : i ≤ j) :
    (letters (ps.take i)).length ≤ (letters (ps.take j)).length := by
  have hsplit : ps.take j = ps.take i ++ (ps.take j).drop i := by
    conv_lhs => rw [← List.take_append_drop i (ps.take j), List.take_take, Nat.min_eq_left h]
  rw [hsplit, letters_append, List.length_append]
  omega

/-- The displacements are the positions, counted from one, of the elements with a letter. -/
theorem mem_displacements {n : Nat} {d : Int} :
    d ∈ displacements n ps ↔
      ∃ i v t, ps[i]? = some (v, some t) ∧ d = ((n + i + 1 : Nat) : Int) := by
  induction ps generalizing n with
  | nil => simp [displacements]
  | cons p ps ih =>
      obtain ⟨u, code⟩ := p
      -- behind the first element everything stands one place further
      have hnext : (∃ i v t, ps[i]? = some (v, some t) ∧ d = ((n + 1 + i + 1 : Nat) : Int)) ↔
          ∃ i v t, ((u, code) :: ps)[i + 1]? = some (v, some t) ∧
            d = ((n + (i + 1) + 1 : Nat) : Int) := by
        simp only [List.getElem?_cons_succ, show ∀ i, n + 1 + i + 1 = n + (i + 1) + 1 by omega]
      cases code with
      | none =>
          show d ∈ displacements (n + 1) ps ↔ _
          rw [ih, hnext]
          constructor
          · rintro ⟨i, h⟩
            exact ⟨i + 1, h⟩
          · rintro ⟨_ | i, v, t, hp, hd⟩
            · cases hp
            · exact ⟨i, v, t, hp, hd⟩
      | some t =>
          show d ∈ _ :: displacements (n + 1) ps ↔ _
          rw [List.mem_cons, ih, hnext]
          constructor
          · rintro (rfl | ⟨i, h⟩)
            · exact ⟨0, u, t, rfl, rfl⟩
            · exact ⟨i + 1, h⟩
          · rintro ⟨_ | i, v, t, hp, hd⟩
            · exact .inl hd
            · exact .inr ⟨i, v, t, hp, hd⟩

theorem displacements_increasing (n : Nat) : (displacements n ps).Pairwise (· < ·) := by
  induction ps generalizing n with
  | nil => exact List.Pairwise.nil
  | cons p ps ih =>
      obtain ⟨v, code⟩ := p
      cases code with
      | none => exact ih (n + 1)
      | some t => exact List.pairwise_cons.mpr ⟨fun d hd => lt_of_mem_displacements hd, ih (n + 1)⟩

/-- The literals are the elements whose position is no displacement. -/
theorem verbatim_eq (n : Nat) (js : List Int)
    (hjs : ∀ i, ((n + i + 1 : Nat) : Int) ∈ js ↔ ((n + i + 1 : Nat) : Int) ∈ displacements n ps) :
    verbatim ps = (ps.zipIdx n).filterMap fun p =>
      if ((p.2 + 1 : Nat) : Int) ∈ js then none else some p.1.1 := by
  induction ps generalizing n with
  | nil => rfl
  | cons p ps ih =>
      obtain ⟨v, code⟩ := p
      -- `js` may hold more: only its entries from the next position on matter
      have hlater : ∀ i, ((n + 1 + i + 1 : Nat) : Int) ∈ js ↔
          ((n + 1 + i + 1 : Nat) : Int) ∈ displacements (n + 1) ps := by
        intro i
        have h := hjs (i + 1)
        rw [show n + (i + 1) + 1 = n + 1 + i + 1 by omega] at h
        rw [h]
        cases code with
        | none => exact Iff.rfl
        | some t =>
            show _ ∈ _ :: displacements (n + 1) ps ↔ _
            rw [List.mem_cons]
            exact or_iff_right (by omega)
      have hnow := hjs 0
      rw [List.zipIdx_cons]
      cases code with
      | none =>
          -- the displacements of what follows are larger
          have hout : ((n + 1 : Nat) : Int) ∉ js := fun hmem => by
            have h : ((n + 1 : Nat) : Int) ∈ displacements (n + 1) ps := hnow.mp hmem
            exact absurd (lt_of_mem_displacements h) (lt_irrefl _)
          show v :: verbatim ps = _
          rw [List.filterMap_cons]
          simp only [if_neg hout]
          rw [ih (n + 1) hlater]
      | some t =>
          have hin : ((n + 1 : Nat) : Int) ∈ js := hnow.mpr List.mem_cons_self
          show verbatim ps = _
          rw [List.filterMap_cons]
          simp only [if_pos hin]
          rw [ih (n + 1) hlater]

end Arrays

/-! ## The merge -/

section Merge

variable (ps : List (V × Option Letter)) (js : List Int) (past : Int)

/-- The variables behind the first `i` decisions. -/
def cursorsBehind (i : Nat) (data : List V) : ByteCursors V :=
  ⟨data, (verbatim (ps.take i)).length, (letters (ps.take i)).length,
    (letters (ps.take i)).length⟩

/-- At element `i` the displacement cursor points at its position exactly if it has a letter. -/
def PointsAt (i : Nat) : Prop :=
  ∀ p, ps[i]? = some p →
    ((js ≠ [] ∧ js.getD (letters (ps.take i)).length past - 1 = i) ↔ p.2 ≠ none)

variable {ps js past}

theorem take_succ_getElem? {α : Type} {l : List α} {i : Nat} {a : α} (h : l[i]? = some a) :
    l.take (i + 1) = l.take i ++ [a] := by
  rw [List.take_add_one, h]
  rfl

theorem getElem?_verbatim {i : Nat} {v : V} (h : ps[i]? = some (v, none)) :
    (verbatim ps)[(verbatim (ps.take i)).length]? = some v := by
  obtain ⟨hi, hp⟩ := List.getElem?_eq_some_iff.mp h
  conv_lhs => rw [← List.take_append_drop i ps]
  rw [List.drop_eq_getElem_cons hi, hp, List.take_left' (by rw [List.length_take]; omega),
    verbatim_append, List.getElem?_append_right (Nat.le_refl _), Nat.sub_self]
  rfl

theorem getElem?_letters {i : Nat} {v : V} {t : Letter} (h : ps[i]? = some (v, some t)) :
    (letters ps)[(letters (ps.take i)).length]? = some t := by
  obtain ⟨hi, hp⟩ := List.getElem?_eq_some_iff.mp h
  conv_lhs => rw [← List.take_append_drop i ps]
  rw [List.drop_eq_getElem_cons hi, hp, List.take_left' (by rw [List.length_take]; omega),
    letters_append, List.getElem?_append_right (Nat.le_refl _), Nat.sub_self]
  rfl

theorem cursorsBehind_literal {i : Nat} {v : V} (h : ps[i]? = some (v, none)) (data : List V) :
    cursorsBehind ps (i + 1) data =
      ⟨data, (verbatim (ps.take i)).length + 1, (letters (ps.take i)).length,
        (letters (ps.take i)).length⟩ := by
  rw [cursorsBehind, take_succ_getElem? h, verbatim_append, letters_append, List.length_append,
    List.length_append]
  rfl

theorem cursorsBehind_letter {i : Nat} {v : V} {t : Letter} (h : ps[i]? = some (v, some t))
    (data : List V) :
    cursorsBehind ps (i + 1) data =
      ⟨data, (verbatim (ps.take i)).length, (letters (ps.take i)).length + 1,
        (letters (ps.take i)).length + 1⟩ := by
  rw [cursorsBehind, take_succ_getElem? h, verbatim_append, letters_append, List.length_append,
    List.length_append]
  rfl

theorem replayStep_letter (data : List V) (v : V) (t : Letter) :
    replayStep A data (v, some t) =
      (extrapolate A data data.length t).map fun w => data ++ [w] := rfl

/-- Step lemma: a decision moves the literal cursor or the two others. -/
theorem decompressBytesStep_eq {i : Nat} {p : V × Option Letter} (hp : ps[i]? = some p)
    (hpoints : PointsAt ps js past i) (data : List V) (hlen : data.length = i) :
    decompressBytesStep A ⟨verbatim ps, letters ps, js⟩ past (cursorsBehind ps i data) i =
      (replayStep A data p).map (cursorsBehind ps (i + 1)) := by
  obtain ⟨v, code⟩ := p
  have hiff := hpoints _ hp
  -- the next displacement decides, and it points at `i` exactly if `i` has a letter
  cases code with
  | none =>
      have hno : ¬ (js ≠ [] ∧ js.getD (letters (ps.take i)).length past - 1 = i) :=
        fun h => hiff.mp h rfl
      simp only [decompressBytesStep, cursorsBehind, if_neg hno, getElem?_verbatim hp]
      rw [replayStep, map_ok, cursorsBehind_literal hp]
      rfl
  | some t =>
      have hyes := hiff.mpr (Option.some_ne_none t)
      simp only [decompressBytesStep, cursorsBehind, if_pos hyes, getElem?_letters hp]
      rw [replayStep_letter, hlen]
      cases extrapolate A data i t with
      | error f => rfl
      | ok w =>
          rw [map_ok, map_ok, cursorsBehind_letter hp]
          rfl

/-- The reads of an iteration, from the decision at its element. -/
theorem iterationReads_eq {i : Nat} {p : V × Option Letter} (hp : ps[i]? = some p)
    (hpoints : PointsAt ps js past i) (data : List V) :
    iterationReads ⟨verbatim ps, letters ps, js⟩ past (cursorsBehind ps i data) i =
      (if js = [] then [] else [.arrayCharDisplacement (letters (ps.take i)).length]) ++
        [if p.2 = none then .arrayDouble (verbatim (ps.take i)).length
          else .arrayChar (letters (ps.take i)).length] := by
  have hiff := hpoints p hp
  unfold iterationReads cursorsBehind
  -- a null pointer is not read, and then there are no letters
  by_cases hjs : js = []
  · have hnone : p.2 = none := by
      by_contra hne
      exact (hiff.mpr hne).1 hjs
    simp [hjs, hnone]
  · simp only [ne_eq, hjs, not_false_eq_true, true_and] at hiff
    rw [if_pos hjs, if_neg hjs]
    by_cases hnone : p.2 = none
    · rw [if_neg fun h => hiff.mp h hnone, if_pos hnone]
      rfl
    · rw [if_pos (hiff.mpr hnone), if_neg hnone]
      rfl

/-- Four values are enough for every letter. -/
theorem extrapolate_ok {data : List V} (h : 4 ≤ data.length) (t : Letter) :
    ∃ v, extrapolate A data data.length t = .ok v := by
  obtain ⟨d, hd⟩ : ∃ d, firstFour (data.take data.length).reverse = some d := by
    rw [List.take_length]
    exact exists_firstFour_of_length (by rw [List.length_reverse]; exact h)
  exact ⟨_, extrapolate_of_firstFour A (Nat.le_refl _) hd t⟩

/-- Run lemma: behind the first `n` decisions, if the cursor pointed right at each of them and
    every letter had four values before it. -/
theorem cursorsAt_eq {n : Nat} (hn : n ≤ ps.length) (hpoints : ∀ i < n, PointsAt ps js past i)
    (hfour : ∀ i p, ps[i]? = some p → p.2 ≠ none → 4 ≤ i) :
    ∃ data, cursorsAt A ⟨verbatim ps, letters ps, js⟩ past n = .ok (cursorsBehind ps n data) ∧
      data.length = n ∧ ∀ i v, i < n → ps[i]? = some (v, none) → data[i]? = some v := by
  induction n with
  | zero => exact ⟨[], rfl, rfl, fun i v hi => absurd hi (Nat.not_lt_zero i)⟩
  | succ n ih =>
      obtain ⟨data, hrun, hlen, hdata⟩ := ih (by omega) fun i hi => hpoints i (by omega)
      have hlt : n < ps.length := by omega
      have hp : ps[n]? = some ps[n] := List.getElem?_eq_getElem hlt
      have hstep := decompressBytesStep_eq A hp (hpoints n (by omega)) data hlen
      have hrun' : cursorsAt A ⟨verbatim ps, letters ps, js⟩ past (n + 1) =
          (replayStep A data ps[n]).map (cursorsBehind ps (n + 1)) := by
        rw [cursorsAt, List.range_succ, List.foldlM_append]
        change (cursorsAt A ⟨verbatim ps, letters ps, js⟩ past n >>= _) = _
        rw [hrun, ok_bind, List.foldlM_cons, hstep]
        cases replayStep A data ps[n] <;> rfl
      -- whatever the decision puts at `n`, the elements before it stay
      have hold : ∀ w i v, i < n + 1 → (i = n → w = v) → ps[i]? = some (v, none) →
          (data ++ [w])[i]? = some v := by
        intro w i v hi hw hv
        rcases Nat.lt_succ_iff_lt_or_eq.mp hi with hlt' | rfl
        · rw [List.getElem?_append_left (by omega)]
          exact hdata i v hlt' hv
        · rw [List.getElem?_append_right (by omega), hlen, Nat.sub_self, hw rfl]
          rfl
      generalize ps[n] = p at hp hrun'
      obtain ⟨u, code⟩ := p
      cases code with
      | none =>
          refine ⟨data ++ [u], hrun', by simp [hlen], fun i v hi hv => hold u i v hi ?_ hv⟩
          rintro rfl
          exact (Prod.mk.inj (Option.some.inj (hp.symm.trans hv))).1
      | some t =>
          have h4 := hfour n _ hp (Option.some_ne_none t)
          obtain ⟨w, hw⟩ := extrapolate_ok A (show 4 ≤ data.length by omega) t
          rw [replayStep_letter, hw] at hrun'
          refine ⟨data ++ [w], hrun', by simp [hlen], fun i v hi hv => hold w i v hi ?_ hv⟩
          rintro rfl
          cases hp.symm.trans hv

/-- Run lemma: every literal and every letter is read once, in order. -/
theorem byteReads_eq {n : Nat} (hn : n ≤ ps.length) (hpoints : ∀ i < n, PointsAt ps js past i)
    (hfour : ∀ i p, ps[i]? = some p → p.2 ≠ none → 4 ≤ i) :
    (byteReads A ⟨verbatim ps, letters ps, js⟩ past n).filterMap ByteRead.literal? =
        List.range (verbatim (ps.take n)).length ∧
      (byteReads A ⟨verbatim ps, letters ps, js⟩ past n).filterMap ByteRead.letter? =
        List.range (letters (ps.take n)).length := by
  induction n with
  | zero => exact ⟨rfl, rfl⟩
  | succ n ih =>
      obtain ⟨hlits, hlets⟩ := ih (by omega) fun i hi => hpoints i (by omega)
      obtain ⟨data, hrun, _⟩ :=
        cursorsAt_eq A (show n ≤ ps.length by omega) (fun i hi => hpoints i (by omega)) hfour
      have hp : ps[n]? = some ps[n] := List.getElem?_eq_getElem (by omega)
      have hreads : byteReads A ⟨verbatim ps, letters ps, js⟩ past (n + 1) =
          byteReads A ⟨verbatim ps, letters ps, js⟩ past n ++
            iterationReads ⟨verbatim ps, letters ps, js⟩ past (cursorsBehind ps n data) n := by
        rw [byteReads, List.range_succ, List.flatMap_append, List.flatMap_singleton, hrun]
        rfl
      rw [hreads, List.filterMap_append, List.filterMap_append, hlits, hlets,
        iterationReads_eq hp (hpoints n (by omega)), take_succ_getElem? hp, verbatim_append,
        letters_append, List.length_append, List.length_append]
      -- the displacement that is read counts as neither
      have hnone : ∀ k, [ByteRead.arrayCharDisplacement k].filterMap ByteRead.literal? = [] ∧
          [ByteRead.arrayCharDisplacement k].filterMap ByteRead.letter? = [] :=
        fun k => ⟨rfl, rfl⟩
      obtain ⟨v, code⟩ := ps[n]
      rw [List.filterMap_append, List.filterMap_append]
      cases code with
      | none =>
          constructor
          · split
            · exact (List.range_succ).symm
            · rw [(hnone _).1]
              exact (List.range_succ).symm
          · split
            · exact List.append_nil _
            · rw [(hnone _).2]
              exact List.append_nil _
      | some t =>
          constructor
          · split
            · exact List.append_nil _
            · rw [(hnone _).1]
              exact List.append_nil _
          · split
            · exact (List.range_succ).symm
            · rw [(hnone _).2]
              exact (List.range_succ).symm

end Merge

/-! ## The compressor's arrays -/

section Compressed

variable {ps : List (V × Option Letter)} {past : Int}

/-- The displacements followed by anything whose first entry is no position still to come
    (`past` if nothing follows) lead the merge. -/
theorem pointsAt_displacements {ends : List Int} {i : Nat}
    (h : (letters (ps.take i)).length < (letters ps).length ∨ displacements 0 ps ++ ends = [] ∨
      ends.headD past - 1 ≠ i) : PointsAt ps (displacements 0 ps ++ ends) past i := by
  intro p hp
  obtain ⟨hi, hpi⟩ := List.getElem?_eq_some_iff.mp hp
  have hsplit : ps = ps.take i ++ p :: ps.drop (i + 1) := by
    conv_lhs => rw [← List.take_append_drop i ps, List.drop_eq_getElem_cons hi, hpi]
  have hjs : displacements 0 ps =
      displacements 0 (ps.take i) ++ displacements i (p :: ps.drop (i + 1)) := by
    conv_lhs => rw [hsplit, displacements_append, List.length_take, Nat.min_eq_left hi.le,
      Nat.zero_add]
  have hget : (displacements 0 ps ++ ends).getD (letters (ps.take i)).length past =
      (displacements i (p :: ps.drop (i + 1)) ++ ends).headD past := by
    rw [hjs, List.append_assoc, List.getD_eq_getElem?_getD,
      List.getElem?_append_right (by rw [displacements_length]), displacements_length,
      Nat.sub_self]
    cases displacements i (p :: ps.drop (i + 1)) ++ ends <;> rfl
  rw [hget]
  obtain ⟨v, code⟩ := p
  cases code with
  | some t =>
      refine iff_of_true ⟨?_, ?_⟩ (Option.some_ne_none t)
      · rw [hjs]
        simp [displacements]
      · show ((i + 1 : Nat) : Int) - 1 = i
        omega
  | none =>
      refine iff_of_false ?_ fun hne => hne rfl
      rintro ⟨hne, hhead⟩
      change (displacements (i + 1) (ps.drop (i + 1)) ++ ends).headD past - 1 = i at hhead
      rcases hrest : displacements (i + 1) (ps.drop (i + 1)) with _ | ⟨d, ds⟩
      · -- no letter is left, so the cursor is at what follows
        rw [hrest] at hhead
        have hnone := letters_eq_nil hrest
        have hall : (letters ps).length = (letters (ps.take i)).length := by
          conv_lhs => rw [hsplit, letters_append]
          show (letters (ps.take i) ++ letters (ps.drop (i + 1))).length = _
          rw [hnone, List.append_nil]
        rcases h with h | h | h
        · omega
        · exact hne h
        · exact h hhead
      · have hlt : ((i + 1 : Nat) : Int) < d := lt_of_mem_displacements (hrest ▸ List.mem_cons_self)
        rw [hrest] at hhead
        change d - 1 = i at hhead
        omega

theorem letters_eq_nil_iff :
    letters ps = [] ↔ ∀ (i : Nat) (p : V × Option Letter), ps[i]? = some p → p.2 = none := by
  rw [letters, List.filterMap_eq_nil_iff]
  constructor
  · exact fun h i p hp => h p (List.mem_of_getElem? hp)
  · intro h p hp
    obtain ⟨i, hi⟩ := List.mem_iff_getElem?.mp hp
    exact h i p hi

/-- The literal at hand is an entry of its array, and so is the letter. -/
theorem cursor_lt {i : Nat} {p : V × Option Letter} (hp : ps[i]? = some p) :
    if p.2 = none then (verbatim (ps.take i)).length < (verbatim ps).length
    else (letters (ps.take i)).length < (letters ps).length := by
  obtain ⟨v, code⟩ := p
  cases code with
  | none =>
      rw [if_pos rfl]
      exact (List.getElem?_eq_some_iff.mp (getElem?_verbatim hp)).1
  | some t =>
      rw [if_neg (Option.some_ne_none t)]
      exact (List.getElem?_eq_some_iff.mp (getElem?_letters hp)).1

/-- While a letter is left, or if there are none, the displacements lead the merge. -/
theorem pointsAt_of_left {i : Nat}
    (h : (letters (ps.take i)).length < (letters ps).length ∨ letters ps = []) :
    PointsAt ps (displacements 0 ps) past i := by
  have hp := @pointsAt_displacements V ps past [] i
  rw [List.append_nil] at hp
  exact hp (h.imp_right fun hnil => .inl (displacements_eq_nil_iff.mpr hnil))

/-- A letter is left before each element if there are none or the last element has one. -/
theorem letter_left
    (h : (∀ (i : Nat) (p : V × Option Letter), ps[i]? = some p → p.2 = none) ∨
      ∃ i p, i + 1 = ps.length ∧ ps[i]? = some p ∧ p.2 ≠ none) :
    ∀ j < ps.length,
      (letters (ps.take j)).length < (letters ps).length ∨ letters ps = [] := by
  intro j hj
  rcases h with hnone | ⟨n, p, hn, hp, hsome⟩
  · exact .inr (letters_eq_nil_iff.mpr hnone)
  · -- the last letter is still to come
    have hlt := cursor_lt hp
    rw [if_neg hsome] at hlt
    have hle := @letters_take_le V ps j n (by omega)
    exact .inl (by omega)

/-- Otherwise there is a first element before which no letter is left. -/
theorem exists_first_exhausted (hne : letters ps ≠ [])
    (hlast : ¬ ∃ i p, i + 1 = ps.length ∧ ps[i]? = some p ∧ p.2 ≠ none) :
    ∃ m < ps.length, (letters (ps.take m)).length = (letters ps).length ∧
      ∀ i < m, (letters (ps.take i)).length < (letters ps).length := by
  have hex : ∃ i, (letters (ps.take i)).length = (letters ps).length :=
    ⟨ps.length, by rw [List.take_length]⟩
  refine ⟨Nat.find hex, ?_, Nat.find_spec hex, ?_⟩
  · obtain ⟨n, hn⟩ : ∃ n, ps.length = n + 1 := by
      refine ⟨ps.length - 1, ?_⟩
      have := List.length_filterMap_le (fun p : V × Option Letter => p.2) ps
      have hpos := List.length_pos_iff.mpr hne
      rw [letters] at hpos
      omega
    have hp : ps[n]? = some ps[n] := List.getElem?_eq_getElem (by omega)
    have hnone : (ps[n]).2 = none := by
      by_contra hsome
      exact hlast ⟨n, _, hn.symm, hp, hsome⟩
    have htake := take_succ_getElem? hp
    rw [← hn, List.take_length] at htake
    -- the last element has no letter, so none is left before it either
    have hle : Nat.find hex ≤ n := by
      refine Nat.find_min' hex ?_
      conv_rhs => rw [htake, letters_append]
      simp [letters, hnone]
    omega
  · intro i hi
    have hfind := Nat.find_spec hex
    have hle := @letters_take_le V ps i (Nat.find hex) (by omega)
    exact lt_of_le_of_ne (by omega) (Nat.find_min hex hi)

/-- A displacement is read past the end where no letter is left. -/
theorem not_readsInside_of_exhausted
    (hfour : ∀ i p, ps[i]? = some p → p.2 ≠ none → 4 ≤ i) (hne : letters ps ≠ [])
    (hlast : ¬ ∃ i p, i + 1 = ps.length ∧ ps[i]? = some p ∧ p.2 ≠ none) :
    ¬ ReadsInside A ⟨verbatim ps, letters ps, displacements 0 ps⟩ past ps.length := by
  intro hinside
  obtain ⟨m, hm, hend, hbefore⟩ := exists_first_exhausted hne hlast
  obtain ⟨data, hrun, _⟩ := cursorsAt_eq A hm.le
    (fun i hi => pointsAt_of_left (.inl (hbefore i hi))) hfour
  obtain ⟨s, hs, hreads⟩ := hinside m hm
  obtain rfl : cursorsBehind ps m data = s := Except.ok.inj (hrun.symm.trans hs)
  have hjs : displacements 0 ps ≠ [] := fun h => hne (displacements_eq_nil_iff.mp h)
  have hread := hreads (.arrayCharDisplacement (letters (ps.take m)).length) (by
    rw [iterationReads, if_pos hjs]
    exact List.mem_cons_self)
  change (letters (ps.take m)).length < (displacements 0 ps).length at hread
  rw [displacements_length] at hread
  omega

/-- Where a letter is left, or there are none, the reads stay inside. -/
theorem readsInside_of_left
    (hfour : ∀ i p, ps[i]? = some p → p.2 ≠ none → 4 ≤ i)
    (hleft : ∀ j < ps.length,
      (letters (ps.take j)).length < (letters ps).length ∨ letters ps = []) :
    ReadsInside A ⟨verbatim ps, letters ps, displacements 0 ps⟩ past ps.length := by
  intro i hi
  obtain ⟨data, hrun, _⟩ := cursorsAt_eq A hi.le
    (fun j hj => pointsAt_of_left (hleft j (by omega))) hfour
  refine ⟨_, hrun, ?_⟩
  have hp : ps[i]? = some ps[i] := List.getElem?_eq_getElem hi
  have hlt := cursor_lt hp
  rw [iterationReads_eq hp (pointsAt_of_left (hleft i hi))]
  intro r hr
  rcases List.mem_append.mp hr with hr | hr
  · -- the displacement
    split at hr
    · cases hr
    · next hjs =>
        rw [List.mem_singleton.mp hr]
        show (letters (ps.take i)).length < (displacements 0 ps).length
        rw [displacements_length]
        exact (hleft i hi).resolve_right fun hnil => hjs (displacements_eq_nil_iff.mpr hnil)
  · -- the literal or the letter
    rw [List.mem_singleton.mp hr]
    split
    · next hnone =>
        rw [if_pos hnone] at hlt
        exact hlt
    · next hsome =>
        rw [if_neg hsome] at hlt
        exact hlt

/-- On the arrays as they are, with anything behind them, the reads stay inside exactly if
    there are no letters or the last element has one. -/
theorem readsInside_decisions_iff
    (hfour : ∀ i p, ps[i]? = some p → p.2 ≠ none → 4 ≤ i) :
    ReadsInside A ⟨verbatim ps, letters ps, displacements 0 ps⟩ past ps.length ↔
      (∀ (i : Nat) (p : V × Option Letter), ps[i]? = some p → p.2 = none) ∨
        ∃ i p, i + 1 = ps.length ∧ ps[i]? = some p ∧ p.2 ≠ none := by
  constructor
  · intro hinside
    by_contra hcond
    rw [not_or] at hcond
    exact not_readsInside_of_exhausted A hfour
      (fun h => hcond.1 (letters_eq_nil_iff.mp h)) hcond.2 hinside
  · exact fun hcond => readsInside_of_left A hfour (letter_left hcond)

/-- The lengths of the compressor's arrays. -/
theorem compressBytes_length (xs : List (BitVec fmt.numBits)) :
    (compressBytes A xs).arrayDouble.length + (compressBytes A xs).arrayChar.length = xs.length ∧
      (compressBytes A xs).arrayCharDisplacement.length =
        (compressBytes A xs).arrayChar.length := by
  rw [compressBytes_eq, verbatim_length_add, byteCodes_length]
  exact ⟨rfl, displacements_length _ 0⟩

end Compressed

section Data

variable (data : List (BitVec fmt.numBits))

/-- There are no letters, or the last element has one. -/
def LettersToTheEnd : Prop :=
  (∀ i x h t, data[i]? = some x → ¬ Chosen A ((data.map A.ofBits).take i) (A.ofBits x) h t) ∨
  ∃ i x h t, i + 1 = data.length ∧ data[i]? = some x ∧
    Chosen A ((data.map A.ofBits).take i) (A.ofBits x) h t

variable {data}

theorem exists_chosen_iff (hneg : History.unset A (A.ofInt (-1)) = true) {i : Nat}
    {x : BitVec fmt.numBits} (hx : data[i]? = some x) :
    (∃ h t, Chosen A ((data.map A.ofBits).take i) (A.ofBits x) h t) ↔
      ∃ p, (byteCodes A (ByteHistory.init A) data)[i]? = some p ∧ p.2 ≠ none := by
  rw [byteCodes_slotsAt, hx, Option.map_some]
  constructor
  · rintro ⟨h, t, hc⟩
    obtain rfl := hc.slotsAt_eq A hneg
    refine ⟨_, rfl, ?_⟩
    rw [(byteCode_eq_some_iff A hneg data i x t).mpr hc]
    exact Option.some_ne_none t
  · rintro ⟨p, hp, hne⟩
    obtain rfl := Option.some.inj hp
    obtain ⟨t, ht⟩ := Option.ne_none_iff_exists'.mp hne
    exact ⟨_, t, (byteCode_eq_some_iff A hneg data i x t).mp ht⟩

/-- A letter has at least four elements before it. -/
theorem four_le_of_letter (hneg : History.unset A (A.ofInt (-1)) = true) {i : Nat}
    {p : V × Option Letter} (hp : (byteCodes A (ByteHistory.init A) data)[i]? = some p)
    (hne : p.2 ≠ none) : 4 ≤ i := by
  have hi : i < data.length := by
    rw [← byteCodes_length A (ByteHistory.init A) data]
    exact (List.getElem?_eq_some_iff.mp hp).1
  obtain ⟨h, t, hc⟩ := (exists_chosen_iff A hneg (List.getElem?_eq_getElem hi)).mpr ⟨p, hp, hne⟩
  have hlen := length_of_firstFour_keptValues A hc.recent
  rw [List.length_take] at hlen
  omega

/-- What the decompressor reads of the compressor's arrays. -/
theorem readsInside_compressBytes_iff (hneg : History.unset A (A.ofInt (-1)) = true) (past : Int) :
    ReadsInside A (compressBytes A data) past data.length ↔ LettersToTheEnd A data := by
  have hlen := byteCodes_length A (ByteHistory.init A) data
  have hiff := @readsInside_decisions_iff fmt V A (byteCodes A (ByteHistory.init A) data) past
    fun i p => four_le_of_letter A hneg
  rw [compressBytes_eq, ← hlen, hiff, LettersToTheEnd, hlen]
  -- letters seen in the codes against letters seen by the compressor
  refine or_congr ?_ ?_
  · constructor
    · intro hnone i x h t hx hc
      obtain ⟨p, hp, hne⟩ := (exists_chosen_iff A hneg hx).mp ⟨h, t, hc⟩
      exact hne (hnone i p hp)
    · intro hnone i p hp
      have hi : i < data.length := by
        rw [← hlen]
        exact (List.getElem?_eq_some_iff.mp hp).1
      by_contra hne
      obtain ⟨h, t, hc⟩ :=
        (exists_chosen_iff A hneg (List.getElem?_eq_getElem hi)).mpr ⟨p, hp, hne⟩
      exact hnone i _ h t (List.getElem?_eq_getElem hi) hc
  · constructor
    · rintro ⟨i, p, hi, hp, hne⟩
      have hx : data[i]? = some data[i] := List.getElem?_eq_getElem (by omega)
      obtain ⟨h, t, hc⟩ := (exists_chosen_iff A hneg hx).mpr ⟨p, hp, hne⟩
      exact ⟨i, _, h, t, hi, hx, hc⟩
    · rintro ⟨i, x, h, t, hi, hx, hc⟩
      obtain ⟨p, hp, hne⟩ := (exists_chosen_iff A hneg hx).mp ⟨h, t, hc⟩
      exact ⟨i, p, hi, hp, hne⟩

/-- The three arrays are a partition of the list: as many entries as elements, displacements
    that grow from the fifth position on, and as literals the elements at all other positions. -/
structure Partitions (data : List (BitVec fmt.numBits)) : Prop where
  count : (compressBytes A data).arrayDouble.length + (compressBytes A data).arrayChar.length =
    data.length
  letterCount : (compressBytes A data).arrayCharDisplacement.length =
    (compressBytes A data).arrayChar.length
  increasing : (compressBytes A data).arrayCharDisplacement.Pairwise (· < ·)
  inside : ∀ d ∈ (compressBytes A data).arrayCharDisplacement, 5 ≤ d ∧ d ≤ data.length
  literals : (compressBytes A data).arrayDouble = data.zipIdx.filterMap fun p =>
    if ((p.2 + 1 : Nat) : Int) ∈ (compressBytes A data).arrayCharDisplacement then none
    else some (A.ofBits p.1)

/-- The arrays with `never` behind the displacements. -/
def withEnd (data : List (BitVec fmt.numBits)) (never : Int) : ByteArrays V :=
  { compressBytes A data with
    arrayCharDisplacement := (compressBytes A data).arrayCharDisplacement ++ [never] }

/-- The merge uses every literal and every letter exactly once, in order, and returns the
    elements at the literal positions unchanged. -/
structure MergesBack (data : List (BitVec fmt.numBits)) (never past : Int) : Prop where
  literals : (byteReads A (withEnd A data never) past data.length).filterMap ByteRead.literal? =
    List.range (compressBytes A data).arrayDouble.length
  letters : (byteReads A (withEnd A data never) past data.length).filterMap ByteRead.letter? =
    List.range (compressBytes A data).arrayChar.length
  returns : ∃ ys, decompressBytes A (withEnd A data never) past data.length = .ok ys ∧
    ys.length = data.length ∧
    ∀ i x, data[i]? = some x →
      ((i + 1 : Nat) : Int) ∉ (compressBytes A data).arrayCharDisplacement →
      ys[i]? = some (A.ofBits x)

variable {A}

/-- At a position that is no displacement there is no letter. -/
theorem byteCodes_of_not_mem {i : Nat} {x : BitVec fmt.numBits} (hx : data[i]? = some x)
    (hi : ((i + 1 : Nat) : Int) ∉ displacements 0 (byteCodes A (ByteHistory.init A) data)) :
    (byteCodes A (ByteHistory.init A) data)[i]? = some (A.ofBits x, none) := by
  have hp := byteCodes_slotsAt A data i
  rw [hx, Option.map_some] at hp
  rw [hp]
  cases hcode : byteCode A (slotsAt A data i) x with
  | none => rfl
  | some t =>
      rw [hcode] at hp
      exact absurd (mem_displacements.mpr ⟨i, _, t, hp, by rw [Nat.zero_add]⟩) hi

theorem partitions (hneg : History.unset A (A.ofInt (-1)) = true)
    (data : List (BitVec fmt.numBits)) : Partitions A data := by
  have hlen := byteCodes_length A (ByteHistory.init A) data
  -- the codes keep the elements
  have hfst : (byteCodes A (ByteHistory.init A) data).map Prod.fst = data.map A.ofBits := by
    apply List.ext_getElem?
    intro i
    rw [List.getElem?_map, byteCodes_slotsAt, List.getElem?_map, Option.map_map]
    rfl
  refine ⟨?_, ?_, ?_, ?_, ?_⟩
  · rw [compressBytes_eq, verbatim_length_add, hlen]
  · rw [compressBytes_eq]
    exact displacements_length _ _
  · rw [compressBytes_eq]
    exact displacements_increasing 0
  · rw [compressBytes_eq]
    intro d hd
    obtain ⟨i, v, t, hp, rfl⟩ := mem_displacements.mp hd
    have h4 := four_le_of_letter A hneg hp (Option.some_ne_none t)
    have hi := (List.getElem?_eq_some_iff.mp hp).1
    omega
  · rw [compressBytes_eq]
    show verbatim _ = _
    -- the literals are the elements whose displacement is not written
    rw [verbatim_eq 0 _ fun i => Iff.rfl]
    have hzip : data.zipIdx.filterMap (fun p =>
          if ((p.2 + 1 : Nat) : Int) ∈ displacements 0 (byteCodes A (ByteHistory.init A) data)
          then none else some (A.ofBits p.1)) =
        ((data.map A.ofBits).zipIdx).filterMap fun p =>
          if ((p.2 + 1 : Nat) : Int) ∈ displacements 0 (byteCodes A (ByteHistory.init A) data)
          then none else some p.1 := by
      rw [List.zipIdx_map, List.filterMap_map]
      rfl
    rw [hzip, ← hfst, List.zipIdx_map, List.filterMap_map]
    rfl

theorem mergesBack (hneg : History.unset A (A.ofInt (-1)) = true)
    (data : List (BitVec fmt.numBits)) {never : Int} (hnever : ∀ i < data.length, never - 1 ≠ i)
    (past : Int) : MergesBack A data never past := by
  have hlen := byteCodes_length A (ByteHistory.init A) data
  -- the entry behind the displacements points at no element
  have hpoints : ∀ i < (byteCodes A (ByteHistory.init A) data).length,
      PointsAt (byteCodes A (ByteHistory.init A) data)
        (displacements 0 (byteCodes A (ByteHistory.init A) data) ++ [never]) past i :=
    fun i hi => pointsAt_displacements (.inr (.inr (hnever i (by omega))))
  have hfour : ∀ i p, (byteCodes A (ByteHistory.init A) data)[i]? = some p → p.2 ≠ none → 4 ≤ i :=
    fun i p => four_le_of_letter A hneg
  have hreads := byteReads_eq A (Nat.le_refl _) hpoints hfour
  obtain ⟨ys, hrun, hys, hval⟩ := cursorsAt_eq A (Nat.le_refl _) hpoints hfour
  rw [List.take_length, hlen] at hreads
  rw [hlen] at hrun hys hval
  rw [show (⟨verbatim _, letters _, displacements 0 _ ++ [never]⟩ : ByteArrays V) =
    withEnd A data never by rw [withEnd, compressBytes_eq]] at hreads hrun
  refine ⟨?_, ?_, ys, ?_, hys, ?_⟩
  · rw [hreads.1, compressBytes_eq]
  · rw [hreads.2, compressBytes_eq]
  · change (cursorsAt A (withEnd A data never) past data.length >>= _) = _
    rw [hrun]
    rfl
  · intro i x hx hi
    rw [compressBytes_eq] at hi
    exact hval i _ (List.getElem?_eq_some_iff.mp hx).1 (byteCodes_of_not_mem hx hi)

variable (A)

end Data

end Reads

/-! ## Partition and merge -/

/-- For doubles and for floats, the arrays are a partition of the list, and with a value behind
    the displacements that matches no position the merge uses every entry once, in order. -/
theorem bytewise_partition (eb : ErrorBound) (past : Int) :
    (∀ (data : List (BitVec 64)) (never : Int), (∀ i < data.length, never - 1 ≠ i) →
      @Partitions double _ (FloatArith.ieee double eb) data ∧
        @MergesBack double _ (FloatArith.ieee double eb) data never past) ∧
    (∀ (data : List (BitVec 32)) (never : Int), (∀ i < data.length, never - 1 ≠ i) →
      @Partitions float _ (FloatArith.ieee float eb) data ∧
        @MergesBack float _ (FloatArith.ieee float eb) data never past) :=
  ⟨fun data _ hnever => ⟨partitions (unset_marker eb).1 data,
      mergesBack (unset_marker eb).1 data hnever past⟩,
    fun data _ hnever => ⟨partitions (unset_marker eb).2 data,
      mergesBack (unset_marker eb).2 data hnever past⟩⟩

/-- Five zeros and `1.0`, with `-1` behind the displacement 5. -/
theorem bytewise_partition_zeros :
    @Partitions double _ (FloatArith.ieee double absErrorBound)
        [0, 0, 0, 0, 0, 0x3FF0000000000000] ∧
      @MergesBack double _ (FloatArith.ieee double absErrorBound)
        [0, 0, 0, 0, 0, 0x3FF0000000000000] (-1) 0 :=
  (bytewise_partition absErrorBound 0).1 [0, 0, 0, 0, 0, 0x3FF0000000000000] (-1)
    (fun i _ => by omega)

/-! ## What is read -/

/-- For doubles and for floats, whatever lies behind the displacements: every read of the
    decompressor is inside the compressor's arrays, in every iteration, exactly if there are no
    letters or the last element has one. -/
theorem readsInside_iff (eb : ErrorBound) (past : Int) (data : List (BitVec 64))
    (data' : List (BitVec 32)) :
    (ReadsInside (FloatArith.ieee double eb) (myCompressDouble (FloatArith.ieee double eb) data)
        past data.length ↔ LettersToTheEnd (FloatArith.ieee double eb) data) ∧
    (ReadsInside (FloatArith.ieee float eb) (myCompress (FloatArith.ieee float eb) data')
        past data'.length ↔ LettersToTheEnd (FloatArith.ieee float eb) data') :=
  ⟨readsInside_compressBytes_iff (FloatArith.ieee double eb) (unset_marker eb).1 past,
    readsInside_compressBytes_iff (FloatArith.ieee float eb) (unset_marker eb).2 past⟩

/-- Five zeros and `1.0`: the fifth zero is an `a`, and the last iteration reads the
    displacement behind the only one. -/
theorem reads_outside :
    (∀ x ∈ [(0 : BitVec 64), 0, 0, 0, 0, 0x3FF0000000000000], double.Finite (bitsOf x)) ∧
    ∀ past, ¬ ReadsInside (FloatArith.ieee double absErrorBound)
      (myCompressDouble (FloatArith.ieee double absErrorBound)
        [0, 0, 0, 0, 0, 0x3FF0000000000000]) past 6 := by
  constructor
  · simp only [List.forall_mem_cons]
    refine ⟨?_, ?_, ?_, ?_, ?_, ?_, List.forall_mem_nil _⟩ <;> decide +kernel
  · intro past hreads
    -- the fifth zero is predicted by the fourth, and nothing predicts the one
    have hcodes : @byteCodes double _ (FloatArith.ieee double absErrorBound)
        (ByteHistory.init (FloatArith.ieee double absErrorBound))
        [0, 0, 0, 0, 0, 0x3FF0000000000000] =
          [(0, none), (0, none), (0, none), (0, none), (0, some .a),
            (0x3FF0000000000000, none)] := by
      decide +kernel
    have harrays : myCompressDouble (FloatArith.ieee double absErrorBound)
        [0, 0, 0, 0, 0, 0x3FF0000000000000] = _ :=
      (compressBytes_eq _ _).trans
        (congrArg (fun ps => (⟨verbatim ps, letters ps, displacements 0 ps⟩ : ByteArrays _)) hcodes)
    rw [harrays] at hreads
    have hiff := (readsInside_decisions_iff (FloatArith.ieee double absErrorBound) ?_).mp hreads
    · rcases hiff with hnone | ⟨i, p, hi, hp, hne⟩
      · cases hnone 4 _ rfl
      · obtain rfl : i = 5 := by
          simp only [List.length_cons, List.length_nil] at hi
          omega
        cases hp
        exact hne rfl
    · intro i p hp hne
      have hp' := (congrArg (fun l : List _ => l[i]?) hcodes).trans hp
      exact four_le_of_letter _ (unset_marker absErrorBound).1 hp' hne

end MpiApps.Codec
