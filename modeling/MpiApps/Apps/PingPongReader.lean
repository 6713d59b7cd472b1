/-
  MpiApps.Apps.PingPongReader

  How the ping-pong programs read the data file.

  The loop asks `feof` before each number, and so makes one round more when white space
  follows the last one; `data_num` is one less than the number of rounds.  A file that ends
  with a number loses that number, unless no character could continue it (`readsAll_iff`).
-/

import MpiApps.Lib.Scanf

namespace MpiApps.PingPongReader

open MpiApps.Scanf

/-! ## The code -/

section Code

variable {α : Type} (strtod : List Char → α)

/-- The file position, its end-of-file indicator, and `data`; `none` is an element that nothing
    has been stored in. -/
structure Reader (α : Type) where
  rest : List Char
  feof : Bool
  data : List (Option α)

def start (content : List Char) : Reader α := ⟨content, false, []⟩

/-- One round of the loop, unless `feof` ends it. -/
def readStep (s : Reader α) : Option (Reader α) :=
  if s.feof then none
  else
    match scanLf strtod s.rest with
    | .eof => some ⟨[], true, s.data ++ [none]⟩
    | .mismatch rest => some ⟨rest, hitsEnd s.rest, s.data ++ [none]⟩
    | .value x rest => some ⟨rest, hitsEnd s.rest, s.data ++ [some x]⟩

/-- After `n` rounds, if the loop makes as many. -/
def readSteps : Nat → Reader α → Option (Reader α)
  | 0, s => some s
  | n + 1, s => (readStep strtod s).bind (readSteps n)

/-- `n - 1`. -/
def dataNum (s : Reader α) : Nat := s.data.length - 1

end Code

section Rounds

variable {α : Type} {strtod : List Char → α}

/-- The loop is deterministic: where it ends, it has made its number of rounds. -/
theorem readSteps_unique {s t u : Reader α} {m n : Nat} (ht : readSteps strtod m s = some t)
    (hu : readSteps strtod n s = some u) (hendt : readStep strtod t = none)
    (hendu : readStep strtod u = none) : t = u := by
  induction m generalizing s n with
  | zero =>
      cases ht
      cases n with
      | zero => exact Option.some.inj hu
      | succ n =>
          rw [readSteps, hendt] at hu
          cases hu
  | succ m ih =>
      obtain ⟨v, hv, hrun⟩ := Option.bind_eq_some_iff.mp ht
      cases n with
      | zero =>
          cases hu
          rw [hendu] at hv
          cases hv
      | succ n =>
          rw [readSteps, hv] at hu
          exact ih hrun hu

/-- The last character of the file is not white space. -/
def endsOpen (content : List Char) : Bool := content.getLast?.any fun c => !isSpace c

theorem endsOpen_spaces {cs : List Char} (hcs : ∀ c ∈ cs, isSpace c = true) :
    endsOpen cs = false := by
  rw [endsOpen]
  cases hlast : cs.getLast? with
  | none => rfl
  | some c =>
      rw [Option.any_some, hcs c (List.mem_of_getLast? hlast)]
      rfl

theorem endsOpen_append (cs : List Char) {rest : List Char} (hne : rest ≠ []) :
    endsOpen (cs ++ rest) = endsOpen rest := by
  rw [endsOpen, endsOpen, List.getLast?_append_of_ne_nil cs hne]

theorem endsOpen_number {text : List Char} (h : IsNumber text) : endsOpen text = true := by
  rw [endsOpen, List.getLast?_eq_some_getLast h.ne_nil, Option.any_some,
    h.not_space _ (List.getLast_mem h.ne_nil)]
  rfl

/-- Nothing follows the last number, and it could have gone on: the conversion that stores it
    finds the end of the file. -/
def endsInNumber (content : List Char) (texts : List (List Char)) : Bool :=
  endsOpen content && texts.getLast?.all fun text => decide (GoesOn text)

/-- A number with more of the file behind it does not matter. -/
theorem endsInNumber_number {ws text rest : List Char} {texts : List (List Char)}
    (h : Numbers rest texts) (hne : rest ≠ []) :
    endsInNumber (ws ++ (text ++ rest)) (text :: texts) = endsInNumber rest texts := by
  have hopen : endsOpen (ws ++ (text ++ rest)) = endsOpen rest := by
    rw [← List.append_assoc]
    exact endsOpen_append _ hne
  rw [endsInNumber, endsInNumber, hopen]
  cases h with
  | done hcs => rw [endsOpen_spaces hcs, Bool.false_and, Bool.false_and]
  | number => rw [List.getLast?_cons_cons]

/-- Run lemma: the numbers are stored one after the other, and one element is left out behind
    them unless the last conversion has found the end of the file. -/
theorem readSteps_numbers {content : List Char} {texts : List (List Char)}
    (h : Numbers content texts) (data : List (Option α)) :
    ∃ n s, readSteps strtod n ⟨content, false, data⟩ = some s ∧ readStep strtod s = none ∧
      s.data = data ++ texts.map (fun text => some (strtod text)) ++
        if endsInNumber content texts then [] else [none] := by
  induction h generalizing data with
  | @done cs hcs =>
      refine ⟨1, ⟨[], true, data ++ [none]⟩, ?_, rfl, ?_⟩
      · simp [readSteps, readStep, (Numbers.done hcs).scanLf_nil strtod]
      · simp [endsInNumber, endsOpen_spaces hcs]
  | @number ws text rest texts hws htext hrest h ih =>
      have hstep : readStep strtod ⟨ws ++ (text ++ rest), false, data⟩ =
          some ⟨rest, rest.isEmpty && decide (GoesOn text), data ++ [some (strtod text)]⟩ := by
        rw [readStep, if_neg Bool.false_ne_true, scanLf_number strtod hws htext hrest,
          hitsEnd_number hws htext hrest]
      cases rest with
      | nil =>
          -- there are no more numbers
          rw [h.eq_nil]
          have hends : endsInNumber (ws ++ (text ++ [])) [text] = decide (GoesOn text) := by
            rw [endsInNumber, List.append_nil, endsOpen_append ws htext.ne_nil,
              endsOpen_number htext]
            rfl
          rw [hends]
          by_cases hgoesOn : GoesOn text
          · -- `feof` is true now
            rw [decide_eq_true hgoesOn] at hstep ⊢
            exact ⟨1, _, by rw [readSteps, hstep]; rfl, rfl, (List.append_nil _).symm⟩
          · -- one round more, which stores nothing
            rw [decide_eq_false hgoesOn] at hstep ⊢
            refine ⟨2, ⟨[], true, data ++ [some (strtod text)] ++ [none]⟩, ?_, rfl, rfl⟩
            rw [readSteps, hstep]
            rfl
      | cons d rest =>
          obtain ⟨n, s, hrun, hend, hdata⟩ := ih (data ++ [some (strtod text)])
          refine ⟨n + 1, s, by rw [readSteps, hstep]; exact hrun, hend, ?_⟩
          rw [hdata, endsInNumber_number h (List.cons_ne_nil d rest)]
          simp

end Rounds

/-- For every file of numbers between white space: the loop ends with all of them counted by
    `data_num` exactly if white space follows the last of them, or this is an `infinity` or
    `nan(..)` that no character could continue. -/
theorem readsAll_iff {α : Type} (strtod : List Char → α) {content : List Char}
    {texts : List (List Char)} (h : Numbers content texts) :
    (∃ n s, readSteps strtod n (start content) = some s ∧ readStep strtod s = none ∧
      s.data.take (dataNum s) = texts.map fun text => some (strtod text)) ↔
      endsOpen content = false ∨ ∃ text ∈ texts.getLast?, ¬ GoesOn text := by
  have hends : endsInNumber content texts = false ↔
      endsOpen content = false ∨ ∃ text ∈ texts.getLast?, ¬ GoesOn text := by
    rw [endsInNumber, Bool.and_eq_false_iff]
    cases texts.getLast? <;> simp
  obtain ⟨m, t, ht, hend, hdata⟩ := @readSteps_numbers α strtod content texts h []
  rw [List.nil_append] at hdata
  rw [← hends]
  constructor
  · rintro ⟨n, s, hs, hstops, hall⟩
    obtain rfl := readSteps_unique hs ht hstops hend
    refine Bool.eq_false_iff.mpr fun hopen => ?_
    rw [if_pos hopen, List.append_nil] at hdata
    rw [dataNum, hdata] at hall
    have hlen := congrArg List.length hall
    rw [List.length_take, List.length_map] at hlen
    have hnone : texts = [] := List.length_eq_zero_iff.mp (by omega)
    subst hnone
    cases h with
    | done hcs => rw [endsInNumber, endsOpen_spaces hcs] at hopen; cases hopen
  · intro hclosed
    refine ⟨m, t, ht, hend, ?_⟩
    rw [hclosed] at hdata
    simp [dataNum, hdata]

/-- Without the newline at its end, the second number of the file is not counted. -/
theorem readsAll_iff_two :
    (∃ n s, readSteps (·.length) n (start "10\n2".toList) = some s ∧
      readStep (·.length) s = none ∧
      s.data.take (dataNum s) = ["10".toList, "2".toList].map fun text => some text.length) ↔
      endsOpen "10\n2".toList = false ∨
        ∃ text ∈ ["10".toList, "2".toList].getLast?, ¬ GoesOn text :=
  readsAll_iff (·.length) (@Numbers.number [] "10".toList "\n2".toList _ (by simp) (by decide)
    (by simp [isSpace, spaces])
      (@Numbers.number ['\n'] ['2'] [] _ (List.forall_mem_singleton.mpr rfl) (by decide) (by simp)
        (.done (by simp))))

/-- A complete `infinity` is counted in any case. -/
example : ¬ GoesOn "infinity".toList ∧ GoesOn "inf".toList := by decide

end MpiApps.PingPongReader
