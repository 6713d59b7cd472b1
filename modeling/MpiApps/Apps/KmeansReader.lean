/-
  MpiApps.Apps.KmeansReader

  How the root of the k-means programs reads the data file.

  It counts the newlines, takes half of that number for `numOfElements`, and allocates
  `data_x_points`, `data_y_points` and `k_assignment` for as many points.  It then reads
  two numbers at a time until `fscanf` gives `EOF`, and stores a point after every other
  result: after a single conversion and after none, too.  Nothing compares `i` with
  `numOfElements`.

  The loop ends if and only if the file consists of white space and items, and then makes
  one round for each pair of them (`readSteps_iff`).  So the stores are inside the arrays
  exactly when there are at least twice as many newlines as pairs (`readsExactly_iff`); with
  one number per line, when the lines are even in number and all end with a newline
  (`OnePerLine.fits_iff`).
-/

import MpiApps.Lib.Scanf

namespace MpiApps.KmeansReader

open MpiApps.Scanf

/-! ## The code -/

/-- The loop that counts the newlines. -/
def countLines (content : List Char) : Nat :=
  content.foldl (fun numOfElements c => if c = '\n' then numOfElements + 1 else numOfElements) 0

def numOfElements (content : List Char) : Nat := countLines content / 2

section Code

variable {α : Type} (strtod : List Char → α)

/-- The stores of one round: `data_x_points`, `data_y_points` and `k_assignment` at `index`. -/
structure Store (α : Type) where
  index : Nat
  x : α
  y : α
  assignment : Nat
  deriving DecidableEq, Repr

/-- The file position and the variables of the loop. -/
structure Reader (α : Type) where
  rest : List Char
  pointX : α
  pointY : α
  i : Nat
  stores : List (Store α)
  deriving DecidableEq, Repr

/-- `fscanf(fp, "%lf %lf", &point_x, &point_y)`: the number of conversions made, or `none`
    for `EOF`. -/
def fscanf (s : Reader α) : Option Nat × Reader α :=
  match scanLf strtod s.rest with
  | .eof => (none, { s with rest := [] })
  | .mismatch rest => (some 0, { s with rest := rest })
  | .value x rest =>
    -- the blank in the format
    match scanLf strtod (rest.dropWhile isSpace) with
    | .eof => (some 1, { s with rest := [], pointX := x })
    | .mismatch rest => (some 1, { s with rest := rest, pointX := x })
    | .value y rest => (some 2, { s with rest := rest, pointX := x, pointY := y })

/-- One round of the loop, unless `fscanf` gives `EOF`. -/
def readStep (s : Reader α) : Option (Reader α) :=
  match fscanf strtod s with
  | (none, _) => none
  | (some _, s) => some
    { s with
      stores := s.stores ++ [⟨s.i, s.pointX, s.pointY, 0⟩]
      i := s.i + 1 }

/-- Before the loop; `zero` is what `point_x` and `point_y` start with. -/
def start (zero : α) (content : List Char) : Reader α := ⟨content, zero, zero, 0, []⟩

/-- After `n` rounds, if the loop makes as many. -/
def readSteps : Nat → Reader α → Option (Reader α)
  | 0, s => some s
  | n + 1, s => (readStep strtod s).bind (readSteps n)

end Code

/-! ## The rounds of the loop -/

section Rounds

variable {α : Type} {strtod : List Char → α} {s s' : Reader α} {oks : List Bool}

/-- What is left of the items after a round: an item that is not a number ends the pair. -/
def afterPair : List Bool → List Bool
  | [] => []
  | false :: oks => oks
  | [true] => []
  | true :: _ :: oks => oks

/-- The number of pairs. -/
def pairs : List Bool → Nat
  | [] => 0
  | [_] => 1
  | false :: ok :: oks => pairs (ok :: oks) + 1
  | true :: _ :: oks => pairs oks + 1

theorem pairs_cons (ok : Bool) (oks : List Bool) :
    pairs (ok :: oks) = pairs (afterPair (ok :: oks)) + 1 := by
  cases ok <;> cases oks <;> rfl

theorem pairs_numbers (k : Nat) : pairs (List.replicate k true) = (k + 1) / 2 := by
  induction k using Nat.strongRecOn with
  | ind k ih =>
      match k with
      | 0 => rfl
      | 1 => rfl
      | k + 2 =>
          rw [List.replicate_succ, List.replicate_succ, pairs, ih k (by omega)]
          omega

/-- A round makes one store, at `i`. -/
theorem readStep_store (h : readStep strtod s = some s') :
    s'.i = s.i + 1 ∧ ∃ x y, s'.stores = s.stores ++ [⟨s.i, x, y, 0⟩] := by
  unfold readStep fscanf at h
  split at h
  · cases h
  · next hf =>
      cases h
      split at hf
      · cases hf
      · cases hf; exact ⟨rfl, _, _, rfl⟩
      · split at hf <;> cases hf <;> exact ⟨rfl, _, _, rfl⟩

/-- The loop ends where only white space is left. -/
theorem readStep_eq_none_iff : readStep strtod s = none ↔ Items s.rest [] := by
  rw [← @scanLf_eof_iff α strtod]
  unfold readStep fscanf
  cases hx : scanLf strtod s.rest with
  | eof => simp
  | mismatch rest => simp
  | value x rest => cases hy : scanLf strtod (rest.dropWhile isSpace) <;> simp [hy]

/-- Step lemma: a round reads a pair. -/
theorem readStep_of_items {ok : Bool} (h : Items s.rest (ok :: oks)) :
    ∃ s', readStep strtod s = some s' ∧ Items s'.rest (afterPair (ok :: oks)) := by
  obtain ⟨rest, hrest, ⟨rfl, x, hx⟩ | ⟨rfl, hx⟩⟩ := @scanLf_of_items α strtod _ _ _ h
  · -- the first conversion succeeds, and the second one reads the next item
    cases oks with
    | nil =>
        have heof := @scanLf_eof_iff α strtod _ |>.mpr (items_dropWhile_iff.mpr hrest)
        simp only [readStep, fscanf, hx, heof]
        exact ⟨_, rfl, .done rfl⟩
    | cons ok oks =>
        obtain ⟨rest', hrest', ⟨rfl, y, hy⟩ | ⟨rfl, hy⟩⟩ :=
          @scanLf_of_items α strtod _ _ _ (items_dropWhile_iff.mpr hrest)
        · simp only [readStep, fscanf, hx, hy]
          exact ⟨_, rfl, hrest'⟩
        · simp only [readStep, fscanf, hx, hy]
          exact ⟨_, rfl, hrest'⟩
  · simp only [readStep, fscanf, hx]
    exact ⟨_, rfl, hrest⟩

/-- The other way round: a round before items has read a pair of items. -/
theorem items_of_readStep (h : readStep strtod s = some s') (hi : Items s'.rest oks) :
    ∃ ok oks', Items s.rest (ok :: oks') ∧ afterPair (ok :: oks') = oks := by
  unfold readStep fscanf at h
  cases hx : scanLf strtod s.rest with
  | eof => simp [hx] at h
  | mismatch rest =>
      simp only [hx, Option.some.injEq] at h
      subst h
      exact ⟨false, oks, items_of_mismatch hx hi, rfl⟩
  | value x rest =>
      -- y is read from where the scan of x stopped
      cases hy : scanLf strtod (rest.dropWhile isSpace) with
      | eof =>
          simp only [hx, hy, Option.some.injEq] at h
          subst h
          have hnil : oks = [] := by
            cases hi with
            | done _ => rfl
            | item hscan hne _ => cases hscan; exact absurd rfl hne
          have hrest := items_dropWhile_iff.mp (scanLf_eof_iff.mp hy)
          exact ⟨true, [], items_of_value hx hrest, hnil.symm⟩
      | mismatch rest' =>
          simp only [hx, hy, Option.some.injEq] at h
          subst h
          have hrest := items_dropWhile_iff.mp (items_of_mismatch hy hi)
          exact ⟨true, false :: oks, items_of_value hx hrest, rfl⟩
      | value y rest' =>
          simp only [hx, hy, Option.some.injEq] at h
          subst h
          have hrest := items_dropWhile_iff.mp (items_of_value hy hi)
          exact ⟨true, true :: oks, items_of_value hx hrest, rfl⟩

/-- Run lemma: the loop makes `n` rounds and ends if and only if the file has `n` pairs. -/
theorem readSteps_iff (strtod : List Char → α) (n : Nat) (s : Reader α) :
    (∃ s', readSteps strtod n s = some s' ∧ readStep strtod s' = none) ↔
      ∃ oks, Items s.rest oks ∧ pairs oks = n := by
  induction n generalizing s with
  | zero =>
      refine ⟨fun ⟨s', hs', hend⟩ => ?_, fun ⟨oks, hi, hpairs⟩ => ?_⟩
      · cases hs'
        exact ⟨[], readStep_eq_none_iff.mp hend, rfl⟩
      · cases oks with
        | nil => exact ⟨s, rfl, readStep_eq_none_iff.mpr hi⟩
        | cons ok oks => rw [pairs_cons] at hpairs; omega
  | succ n ih =>
      refine ⟨fun ⟨s', hs', hend⟩ => ?_, fun ⟨oks, hi, hpairs⟩ => ?_⟩
      · -- the first step takes the items of one pair
        obtain ⟨u, hu, hrun⟩ := Option.bind_eq_some_iff.mp hs'
        obtain ⟨oks, hi, hpairs⟩ := (ih u).mp ⟨s', hrun, hend⟩
        obtain ⟨ok, oks', hi', hafter⟩ := items_of_readStep hu hi
        exact ⟨ok :: oks', hi', by rw [pairs_cons, hafter, hpairs]⟩
      · cases oks with
        | nil => cases hpairs
        | cons ok oks =>
            obtain ⟨u, hu, hiu⟩ := @readStep_of_items α strtod s oks ok hi
            rw [pairs_cons] at hpairs
            obtain ⟨s', hs', hend⟩ := (ih u).mpr ⟨_, hiu, by omega⟩
            exact ⟨s', by rw [readSteps, hu]; exact hs', hend⟩

/-- After `n` rounds there have been `n` stores, one at each index from `i` on. -/
theorem readSteps_stores {n : Nat} (h : readSteps strtod n s = some s') :
    s'.i = s.i + n ∧
      s'.stores.map Store.index = s.stores.map Store.index ++ List.range' s.i n := by
  induction n generalizing s with
  | zero => cases h; simp
  | succ n ih =>
      obtain ⟨u, hu, hrun⟩ := Option.bind_eq_some_iff.mp h
      obtain ⟨hi, x, y, hst⟩ := readStep_store hu
      obtain ⟨hlast, hstores⟩ := ih hrun
      rw [hi] at hlast hstores
      refine ⟨by omega, ?_⟩
      rw [hstores, hst, List.map_append, List.map_singleton, List.append_assoc, List.range'_succ]
      rfl

/-- So a run from the start has stored at `0`, `1`, .. in turn. -/
theorem stores_start {zero : α} {content : List Char} {n : Nat}
    (h : readSteps strtod n (start zero content) = some s) :
    s.stores.map Store.index = List.range n := by
  rw [(readSteps_stores h).2, List.range_eq_range']
  rfl

end Rounds

/-! ## Files -/

/-- A line with one number, which blanks may surround. -/
def NumberLine (line : List Char) : Prop :=
  ∃ before text after, line = before ++ (text ++ after) ∧ IsNumber text ∧
    (∀ c ∈ before, isSpace c = true ∧ c ≠ '\n') ∧ ∀ c ∈ after, isSpace c = true ∧ c ≠ '\n'

/-- A file with one number per line; the last line may lack its newline. -/
inductive OnePerLine : List Char → Prop
  | nil : OnePerLine []
  | last {line : List Char} (h : NumberLine line) : OnePerLine line
  | cons {line rest : List Char} (h : NumberLine line) (hrest : OnePerLine rest) :
      OnePerLine (line ++ '\n' :: rest)

theorem countLines_eq_count (content : List Char) : countLines content = content.count '\n' := by
  have h : ∀ n, content.foldl (fun n c => if c = '\n' then n + 1 else n) n =
      n + content.count '\n' := by
    induction content with
    | nil => exact fun n => rfl
    | cons c content ih =>
        intro n
        rw [List.foldl_cons, ih, List.count_cons]
        by_cases hc : c = '\n'
        · simp only [hc, if_true, beq_self_eq_true]
          omega
        · simp [hc]
  exact (h 0).trans (Nat.zero_add _)

theorem NumberLine.count_eq_zero {line : List Char} (h : NumberLine line) :
    line.count '\n' = 0 := by
  obtain ⟨before, text, after, rfl, htext, hbefore, hafter⟩ := h
  refine List.count_eq_zero_of_not_mem fun hmem => ?_
  rcases List.mem_append.mp hmem with hmem | hmem
  · exact (hbefore _ hmem).2 rfl
  · rcases List.mem_append.mp hmem with hmem | hmem
    · exact absurd (htext.not_space _ hmem) (by decide)
    · exact (hafter _ hmem).2 rfl

/-- A line, and what follows it. -/
theorem NumberLine.items {line rest : List Char} {oks : List Bool} (h : NumberLine line)
    (hrest : ∀ c ∈ rest.head?, isSpace c = true) (hi : Items rest oks) :
    Items (line ++ rest) (true :: oks) := by
  obtain ⟨before, text, after, rfl, htext, hbefore, hafter⟩ := h
  rw [List.append_assoc, List.append_assoc]
  refine Items.append_spaces (fun c hc => (hbefore c hc).1) (Items.number htext ?_ ?_)
  · intro c hc
    cases after with
    | nil => exact hrest c hc
    | cons d after =>
        cases hc
        exact (hafter c (List.mem_cons_self ..)).1
  · exact Items.append_spaces (fun c hc => (hafter c hc).1) hi

/-- There is no character behind the last newline. -/
def endsLine (content : List Char) : Bool := content.getLast?.all fun c => decide (c = '\n')

theorem NumberLine.endsLine_eq {line : List Char} (h : NumberLine line) :
    endsLine line = false := by
  have hne : line ≠ [] := by
    obtain ⟨before, text, after, rfl, htext, -⟩ := h
    exact List.append_ne_nil_of_right_ne_nil _ (List.append_ne_nil_of_left_ne_nil htext.ne_nil _)
  have hlast : line.getLast hne ≠ '\n' := fun heq =>
    List.count_eq_zero.mp h.count_eq_zero (heq ▸ List.getLast_mem hne)
  rw [endsLine, List.getLast?_eq_some_getLast hne, Option.all_some]
  exact decide_eq_false hlast

/-- Each line holds a number, and has a newline, but for the last line. -/
theorem OnePerLine.items {content : List Char} (h : OnePerLine content) :
    ∃ k, Items content (List.replicate k true) ∧
      content.count '\n' + (if endsLine content then 0 else 1) = k := by
  induction h with
  | nil => exact ⟨0, .done rfl, rfl⟩
  | @last line h =>
      have hi := @NumberLine.items line [] [] h (by simp) (.done rfl)
      rw [List.append_nil] at hi
      exact ⟨1, hi, by rw [h.count_eq_zero, h.endsLine_eq]; rfl⟩
  | @cons line rest h _ ih =>
      obtain ⟨k, hi, hcount⟩ := ih
      have hnl : ∀ c ∈ ['\n'], isSpace c = true := List.forall_mem_singleton.mpr rfl
      have hends : endsLine (line ++ '\n' :: rest) = endsLine rest := by
        rw [endsLine, List.getLast?_append_of_ne_nil _ (List.cons_ne_nil _ _)]
        cases rest with
        | nil => rfl
        | cons c rest => rw [List.getLast?_cons_cons]; rfl
      refine ⟨k + 1, h.items (fun c hc => hnl c ?_) (hi.append_spaces hnl), ?_⟩
      · cases hc
        exact List.mem_singleton_self _
      rw [hends, List.count_append, h.count_eq_zero, List.count_cons_self]
      omega

/-- So where there is room for all pairs none is left empty. -/
theorem OnePerLine.pairs_eq {content : List Char} {oks : List Bool} (h : OnePerLine content)
    (hi : Items content oks) (hle : pairs oks ≤ content.count '\n' / 2) :
    pairs oks = content.count '\n' / 2 := by
  obtain ⟨k, hk, hcount⟩ := h.items
  have hlines : content.count '\n' ≤ k := hcount ▸ Nat.le_add_right _ _
  rw [hi.unique hk, pairs_numbers] at hle ⊢
  omega

/-- With one number per line there is room for all pairs exactly if the number of lines is
    even and the last line ends with a newline. -/
theorem OnePerLine.fits_iff {content : List Char} (h : OnePerLine content) :
    (∃ oks, Items content oks ∧ pairs oks ≤ content.count '\n' / 2) ↔
      endsLine content = true ∧ content.count '\n' % 2 = 0 := by
  obtain ⟨k, hi, hcount⟩ := h.items
  have hpairs : (∃ oks, Items content oks ∧ pairs oks ≤ content.count '\n' / 2) ↔
      (k + 1) / 2 ≤ content.count '\n' / 2 := by
    rw [← pairs_numbers k]
    refine ⟨fun ⟨oks, hoks, hle⟩ => ?_, fun hle => ⟨_, hi, hle⟩⟩
    rwa [hi.unique hoks]
  rw [hpairs]
  by_cases hends : endsLine content = true
  · rw [if_pos hends] at hcount
    simp only [hends, true_and]
    omega
  · rw [if_neg hends] at hcount
    simp only [hends, Bool.false_eq_true, false_and, iff_false]
    omega

/-! ## Results -/

section Results

variable {α : Type} {strtod : List Char → α} {s s' t : Reader α}

/-- No run is longer than one that ends. -/
theorem readSteps_le {n N : Nat} (h : readSteps strtod n s = some s')
    (hN : readSteps strtod N s = some t) (hend : readStep strtod t = none) : n ≤ N := by
  induction N generalizing s n with
  | zero =>
      cases hN
      cases n with
      | zero => exact Nat.le_refl 0
      | succ n => rw [readSteps, hend] at h; cases h
  | succ N ih =>
      obtain ⟨u, hu, hrun⟩ := Option.bind_eq_some_iff.mp hN
      cases n with
      | zero => exact Nat.zero_le _
      | succ n =>
          rw [readSteps, hu] at h
          exact Nat.succ_le_succ (ih h hrun)

/-- The loop ends, every store is inside the arrays, and a file with one number per line is
    read completely. -/
structure ReadsExactly (strtod : List Char → α) (zero : α) (content : List Char) : Prop where
  terminates : ∃ n s, readSteps strtod n (start zero content) = some s ∧
    readStep strtod s = none
  inside : ∀ n s, readSteps strtod n (start zero content) = some s →
    ∀ st ∈ s.stores, st.index < numOfElements content
  complete : OnePerLine content → ∀ n s, readSteps strtod n (start zero content) = some s →
    readStep strtod s = none → s.stores.length = numOfElements content

/-- For every file: exactly when it consists of white space and items, and has at least
    twice as many newlines as pairs of items. -/
theorem readsExactly_iff (strtod : List Char → α) (zero : α) (content : List Char) :
    ReadsExactly strtod zero content ↔
      ∃ oks, Items content oks ∧ pairs oks ≤ content.count '\n' / 2 := by
  have hnum : numOfElements content = content.count '\n' / 2 :=
    congrArg (· / 2) (countLines_eq_count content)
  constructor
  · rintro ⟨⟨n, s, hs, hend⟩, hinside, -⟩
    obtain ⟨oks, hi, hpairs⟩ := (readSteps_iff strtod n _).mp ⟨s, hs, hend⟩
    refine ⟨oks, hi, ?_⟩
    rw [hpairs, ← hnum]
    cases n with
    | zero => exact Nat.zero_le _
    | succ n =>
        -- the last round stores at `n`
        have hmem : n ∈ s.stores.map Store.index := by
          rw [stores_start hs]
          exact List.self_mem_range_succ
        obtain ⟨st, hst, rfl⟩ := List.mem_map.mp hmem
        exact hinside _ s hs st hst
  · rintro ⟨oks, hi, hle⟩
    obtain ⟨t, ht, hend⟩ := (readSteps_iff strtod (pairs oks) (start zero content)).mpr
      ⟨oks, hi, rfl⟩
    refine ⟨⟨_, t, ht, hend⟩, fun n s hs st hst => ?_, fun hlines n s hs hends => ?_⟩
    · have hmem : st.index ∈ s.stores.map Store.index := List.mem_map_of_mem hst
      rw [stores_start hs, List.mem_range] at hmem
      have hrounds := readSteps_le hs ht hend
      omega
    · -- two runs that end have the same number of rounds
      have hn : n = pairs oks :=
        Nat.le_antisymm (readSteps_le hs ht hend) (readSteps_le ht hs hends)
      rw [← List.length_map Store.index, stores_start hs, List.length_range, hn, hnum]
      exact hlines.pairs_eq hi hle

/-- Three numbers on three lines: the third one is stored at index 1 of arrays for one
    point. -/
theorem stores_outside_three_lines :
    ¬ ∀ content : List Char,
      ReadsExactly (fun text => (text.headD '0').toNat - '0'.toNat) 0 content := by
  intro hall
  have hinside := (hall "1\n2\n3\n".toList).inside 2
    ⟨[], 3, 2, 2, [⟨0, 1, 2, 0⟩, ⟨1, 3, 2, 0⟩]⟩ (by decide) ⟨1, 3, 2, 0⟩ (by decide)
  exact absurd hinside (by decide)

end Results

end MpiApps.KmeansReader
