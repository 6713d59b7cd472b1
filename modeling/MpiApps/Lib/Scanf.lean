/-
  MpiApps.Lib.Scanf

  The conversion `%lf` of the C function `fscanf`.

  The conversion skips white space and then takes the longest sequence of characters that
  is, or is a prefix of, the text of a floating-point number.  It fails when this item is
  not a number; the item is consumed all the same, so a failing conversion leaves the
  input where it is only if the next character cannot start a number.

  The texts of numbers are those of the C standard in the default locale: decimal and
  hexadecimal numbers, `inf`, `infinity`, `nan` and `nan(..)` in either case, with an
  optional sign.  They are given by an automaton every state of which lies on the way to a
  number (`LfState.exists_completion`).
-/

import Mathlib.Data.List.DropRight
import Mathlib.Data.List.Infix
import Mathlib.Tactic.Common

namespace MpiApps.Scanf

/-! ## The texts of floating-point numbers -/

def spaces : List Char := [' ', '\t', '\n', '\x0b', '\x0c', '\r']

/-- `isspace` in the default locale. -/
def isSpace (c : Char) : Bool := spaces.contains c

def isHexDigit (c : Char) : Bool :=
  c.isDigit || ('a' ≤ c && c ≤ 'f') || ('A' ≤ c && c ≤ 'F')

/-- What of a number has been read. -/
inductive LfState
  | start
  | sign
  /-- a single `0`, which may start `0x` -/
  | zero
  | int
  /-- a point without a digit before it -/
  | point
  | frac
  | exp
  | expSign
  | expDigits
  | hex
  | hexInt
  | hexPoint
  | hexFrac
  /-- a prefix of `infinity`, by the letters that are still to come -/
  | inf (todo : List Char)
  /-- a prefix of `nan` -/
  | nan (todo : List Char)
  | nanOpen
  | nanClosed
  deriving DecidableEq, Repr

namespace LfState

/-- The text is that of a number. -/
def accepts : LfState → Bool
  | .zero | .int | .frac | .expDigits | .hexInt | .hexFrac | .nanClosed => true
  | .inf todo => todo = [] || todo = "inity".toList
  | .nan todo => todo = []
  | _ => false

/-- The next of some letters, in either case. -/
def nextLetter (c : Char) (todo : List Char) : Option (List Char) :=
  if todo.head? = some c.toLower then some todo.tail else none

def nextExp (c : Char) : Option LfState :=
  if c = 'e' ∨ c = 'E' then some .exp else none

def nextHexExp (c : Char) : Option LfState :=
  if c = 'p' ∨ c = 'P' then some .exp else none

/-- After a sign, or where there is none. -/
def nextUnsigned (c : Char) : Option LfState :=
  if c = '0' then some .zero
  else if c.isDigit then some .int
  else if c = '.' then some .point
  else if c.toLower = 'i' then some (.inf "nfinity".toList)
  else if c.toLower = 'n' then some (.nan "an".toList)
  else none

/-- After some digits. -/
def nextInt (c : Char) : Option LfState :=
  if c.isDigit then some .int else if c = '.' then some .frac else nextExp c

def next : LfState → Char → Option LfState
  | .start, c => if c = '+' ∨ c = '-' then some .sign else nextUnsigned c
  | .sign, c => nextUnsigned c
  | .zero, c => if c = 'x' ∨ c = 'X' then some .hex else nextInt c
  | .int, c => nextInt c
  | .point, c => if c.isDigit then some .frac else none
  | .frac, c => if c.isDigit then some .frac else nextExp c
  | .exp, c =>
    if c = '+' ∨ c = '-' then some .expSign else if c.isDigit then some .expDigits else none
  | .expSign, c => if c.isDigit then some .expDigits else none
  | .expDigits, c => if c.isDigit then some .expDigits else none
  | .hex, c => if isHexDigit c then some .hexInt else if c = '.' then some .hexPoint else none
  | .hexInt, c =>
    if isHexDigit c then some .hexInt else if c = '.' then some .hexFrac else nextHexExp c
  | .hexPoint, c => if isHexDigit c then some .hexFrac else none
  | .hexFrac, c => if isHexDigit c then some .hexFrac else nextHexExp c
  | .inf todo, c => (nextLetter c todo).map .inf
  | .nan [], c => if c = '(' then some .nanOpen else none
  | .nan todo, c => (nextLetter c todo).map .nan
  | .nanOpen, c =>
    if c = ')' then some .nanClosed
    else if c.isAlphanum || c = '_' then some .nanOpen else none
  | .nanClosed, _ => none

/-- The state after more characters. -/
def run (s : LfState) (cs : List Char) : Option LfState := cs.foldlM next s

@[simp] theorem run_nil (s : LfState) : s.run [] = some s := rfl

@[simp] theorem run_cons (s : LfState) (c : Char) (cs : List Char) :
    s.run (c :: cs) = (s.next c).bind fun t => t.run cs := rfl

/-- The letters that are still to come are the end of their word. -/
def Live : LfState → Prop
  | .inf todo => todo <:+ "nfinity".toList
  | .nan todo => todo <:+ "an".toList
  | _ => True

theorem live_nextUnsigned {c : Char} {t : LfState} (h : nextUnsigned c = some t) : t.Live := by
  unfold nextUnsigned at h
  split at h
  · cases h; trivial
  split at h
  · cases h; trivial
  split at h
  · cases h; trivial
  split at h
  · cases h; exact List.suffix_refl _
  split at h
  · cases h; exact List.suffix_refl _
  · cases h

theorem suffix_of_nextLetter {c : Char} {todo todo' word : List Char} (hs : todo <:+ word)
    (h : nextLetter c todo = some todo') : todo' <:+ word := by
  unfold nextLetter at h
  split at h
  · cases h
    exact (List.tail_suffix todo).trans hs
  · cases h

theorem Live.next {s t : LfState} {c : Char} (hs : s.Live) (h : s.next c = some t) : t.Live := by
  cases s with
  | start =>
      rw [LfState.next] at h
      split at h
      · cases h; trivial
      · exact live_nextUnsigned h
  | sign => exact live_nextUnsigned h
  | inf todo =>
      obtain ⟨todo', htodo, rfl⟩ := Option.map_eq_some_iff.mp h
      exact suffix_of_nextLetter hs htodo
  | nan todo =>
      cases todo with
      | nil => simp only [LfState.next] at h; split at h <;> cases h; trivial
      | cons d todo =>
          obtain ⟨todo', htodo, rfl⟩ := Option.map_eq_some_iff.mp h
          exact suffix_of_nextLetter hs htodo
  | _ =>
      -- the next state has no letters to come
      simp only [LfState.next, nextInt, nextExp, nextHexExp] at h
      grind [Live]

/-- Every state lies on the way to a number. -/
theorem Live.exists_completion {s : LfState} (hs : s.Live) :
    ∃ cs t, s.run cs = some t ∧ t.accepts := by
  cases s with
  | start | sign | point | exp | expSign | hex | hexPoint => exact ⟨['0'], _, rfl, rfl⟩
  | zero | int | frac | expDigits | hexInt | hexFrac | nanClosed => exact ⟨[], _, rfl, rfl⟩
  | nanOpen => exact ⟨[')'], _, rfl, rfl⟩
  | inf todo =>
      have hall : ∀ todo ∈ "nfinity".toList.tails,
          (LfState.inf todo).run todo = some (.inf []) := by decide
      exact ⟨todo, _, hall todo ((List.mem_tails _ _).mpr hs), rfl⟩
  | nan todo =>
      have hall : ∀ todo ∈ "an".toList.tails,
          (LfState.nan todo).run todo = some (.nan []) := by decide
      exact ⟨todo, _, hall todo ((List.mem_tails _ _).mpr hs), rfl⟩

theorem Live.run {s t : LfState} {cs : List Char} (hs : s.Live) (h : s.run cs = some t) :
    t.Live := by
  induction cs generalizing s with
  | nil => cases h; exact hs
  | cons c cs ih =>
      obtain ⟨u, hu, hrun⟩ := Option.bind_eq_some_iff.mp h
      exact ih (hs.next hu) hrun

theorem run_append (s : LfState) (cs ds : List Char) :
    s.run (cs ++ ds) = (s.run cs).bind fun t => t.run ds :=
  List.foldlM_append

end LfState

/-- The text of a number. -/
def IsNumber (cs : List Char) : Prop := ∃ t, LfState.start.run cs = some t ∧ t.accepts

instance (cs : List Char) : Decidable (IsNumber cs) :=
  decidable_of_iff ((LfState.start.run cs).any LfState.accepts = true)
    (Option.any_eq_true _ _)

/-! ## The conversion -/

/-- The longest item that starts in a state, whether it ends a number, and what follows. -/
def scanItem : LfState → List Char → List Char × Bool × List Char
  | s, [] => ([], s.accepts, [])
  | s, c :: cs =>
    match s.next c with
    | none => ([], s.accepts, c :: cs)
    | some t =>
      let r := scanItem t cs
      (c :: r.1, r.2)

/-- What a conversion does. -/
inductive Conversion (α : Type)
  /-- the input ended before the item -/
  | eof
  /-- the item is not a number -/
  | mismatch (rest : List Char)
  | value (x : α) (rest : List Char)
  deriving DecidableEq

/-- `%lf`; `strtod` is the value of an item. -/
def scanLf {α : Type} (strtod : List Char → α) (cs : List Char) : Conversion α :=
  match cs.dropWhile isSpace with
  | [] => .eof
  | c :: cs =>
    match scanItem .start (c :: cs) with
    | (item, true, rest) => .value (strtod item) rest
    | (_, false, rest) => .mismatch rest

/-! ## Items -/

/-- Input that consists of white space and items: which of the items are numbers. -/
inductive Items : List Char → List Bool → Prop
  | done {cs : List Char} (h : cs.dropWhile isSpace = []) : Items cs []
  | item {cs item rest : List Char} {ok : Bool} {oks : List Bool}
      (hscan : scanItem .start (cs.dropWhile isSpace) = (item, ok, rest)) (hne : item ≠ [])
      (hrest : Items rest oks) : Items cs (ok :: oks)

theorem scanItem_nil (s : LfState) : scanItem s [] = ([], s.accepts, []) := rfl

/-- An item that the next character does not continue. -/
theorem scanItem_append {s t : LfState} {item rest : List Char} (h : s.run item = some t)
    (hrest : ∀ c ∈ rest.head?, t.next c = none) :
    scanItem s (item ++ rest) = (item, t.accepts, rest) := by
  induction item generalizing s with
  | nil =>
      cases h
      cases rest with
      | nil => rfl
      | cons c rest => rw [List.nil_append, scanItem, hrest c rfl]
  | cons c item ih =>
      obtain ⟨u, hu, hrun⟩ := Option.bind_eq_some_iff.mp h
      rw [List.cons_append, scanItem, hu]
      simp only [ih hrun]

/-- Every item is of that form. -/
theorem scanItem_spec (s : LfState) (cs : List Char) :
    ∃ t, s.run (scanItem s cs).1 = some t ∧ (scanItem s cs).2.1 = t.accepts ∧
      (∀ c ∈ (scanItem s cs).2.2.head?, t.next c = none) ∧
      (scanItem s cs).1 ++ (scanItem s cs).2.2 = cs := by
  induction cs generalizing s with
  | nil => exact ⟨s, rfl, rfl, fun c hc => absurd hc (by simp [scanItem]), rfl⟩
  | cons c cs ih =>
      rw [scanItem]
      cases hnext : s.next c with
      | none =>
          refine ⟨s, rfl, rfl, fun d hd => ?_, rfl⟩
          cases hd
          exact hnext
      | some u =>
          obtain ⟨t, hrun, hacc, hstop, heq⟩ := ih u
          refine ⟨t, ?_, hacc, hstop, congrArg (c :: ·) heq⟩
          rw [LfState.run_cons, hnext]
          exact hrun

/-- No longer prefix of the input leads anywhere. -/
theorem scanItem_longest {s : LfState} {w cs : List Char} (hw : w <+: cs)
    (hrun : (s.run w).isSome) : w.length ≤ (scanItem s cs).1.length := by
  induction cs generalizing s w with
  | nil => rw [List.prefix_nil.mp hw]; exact Nat.zero_le _
  | cons c cs ih =>
      cases w with
      | nil => exact Nat.zero_le _
      | cons d w =>
          obtain ⟨rfl, hw'⟩ := List.cons_prefix_cons.mp hw
          rw [scanItem]
          cases hnext : s.next d with
          | none => rw [LfState.run_cons, hnext] at hrun; cases hrun
          | some u =>
              rw [LfState.run_cons, hnext] at hrun
              exact Nat.succ_le_succ (ih hw' hrun)

/-- The prefixes of numbers are what the automaton reads. -/
theorem run_isSome_iff (w : List Char) :
    (LfState.start.run w).isSome ↔ ∃ more, IsNumber (w ++ more) := by
  refine ⟨fun h => ?_, fun ⟨more, t, ht, _⟩ => ?_⟩
  · obtain ⟨s, hs⟩ := Option.isSome_iff_exists.mp h
    have hlive : s.Live := LfState.Live.run (s := .start) trivial hs
    obtain ⟨more, t, ht, hacc⟩ := hlive.exists_completion
    exact ⟨more, t, by rw [LfState.run_append, hs]; exact ht, hacc⟩
  · rw [LfState.run_append] at ht
    obtain ⟨s, hs, _⟩ := Option.bind_eq_some_iff.mp ht
    rw [hs]
    rfl

/-- The item is the longest prefix of the input that is, or is a prefix of, a number. -/
theorem scanItem_isLongest (cs : List Char) :
    (scanItem .start cs).1 <+: cs ∧ (∃ more, IsNumber ((scanItem .start cs).1 ++ more)) ∧
      (∀ w, w <+: cs → (∃ more, IsNumber (w ++ more)) →
        w.length ≤ (scanItem .start cs).1.length) ∧
      ((scanItem .start cs).2.1 = true ↔ IsNumber (scanItem .start cs).1) := by
  obtain ⟨t, hrun, hacc, _, heq⟩ := scanItem_spec .start cs
  refine ⟨⟨_, heq⟩, (run_isSome_iff _).mp (by rw [hrun]; rfl),
    fun w hw hmore => scanItem_longest hw ((run_isSome_iff w).mpr hmore), ?_⟩
  rw [hacc]
  refine ⟨fun h => ⟨t, hrun, h⟩, fun ⟨u, hu, h⟩ => ?_⟩
  rw [hrun] at hu
  cases hu
  exact h

/-! ## Conversions and items -/

theorem items_dropWhile_iff {cs : List Char} {oks : List Bool} :
    Items (cs.dropWhile isSpace) oks ↔ Items cs oks := by
  refine ⟨fun h => ?_, fun h => ?_⟩
  · cases h with
    | done h => exact .done (by rwa [List.dropWhile_idempotent] at h)
    | item hscan hne hrest =>
        exact .item (by rwa [List.dropWhile_idempotent] at hscan) hne hrest
  · cases h with
    | done h => exact .done (by rwa [List.dropWhile_idempotent])
    | item hscan hne hrest =>
        exact .item (by rwa [List.dropWhile_idempotent]) hne hrest

theorem items_nil_iff {cs : List Char} : Items cs [] ↔ cs.dropWhile isSpace = [] :=
  ⟨fun h => by cases h; assumption, .done⟩

/-- The items of an input are determined. -/
theorem Items.unique {cs : List Char} {oks oks' : List Bool} (h : Items cs oks)
    (h' : Items cs oks') : oks = oks' := by
  induction h generalizing oks' with
  | done hdrop =>
      cases h' with
      | done => rfl
      | item hscan hne =>
          rw [hdrop, scanItem_nil] at hscan
          cases hscan
          exact absurd rfl hne
  | item hscan hne _ ih =>
      cases h' with
      | done hdrop =>
          rw [hdrop, scanItem_nil] at hscan
          cases hscan
          exact absurd rfl hne
      | item hscan' _ hrest' =>
          rw [hscan] at hscan'
          cases hscan'
          rw [ih hrest']

/-- Input at which the scanner is stuck does not consist of items. -/
theorem not_items_of_stuck {cs : List Char} {ok : Bool} {rest : List Char}
    (hscan : scanItem .start (cs.dropWhile isSpace) = ([], ok, rest))
    (hne : cs.dropWhile isSpace ≠ []) (oks : List Bool) : ¬ Items rest oks := by
  obtain ⟨t, -, -, -, heq⟩ := scanItem_spec .start (cs.dropWhile isSpace)
  rw [hscan, List.nil_append] at heq
  have heq : rest = cs.dropWhile isSpace := heq
  rw [heq, items_dropWhile_iff]
  intro h
  cases h with
  | done h => exact hne h
  | item hscan' hne' _ =>
      rw [hscan] at hscan'
      cases hscan'
      exact hne' rfl

/-- White space continues no item. -/
theorem LfState.Live.next_space {s : LfState} (hs : s.Live) {c : Char} (hc : isSpace c = true) :
    s.next c = none := by
  have hspaces : (spaces.all fun c => (s.next c).isNone) = true := by
    cases s with
    | inf todo =>
        have hall : ("nfinity".toList.tails.all fun todo =>
            spaces.all fun c => ((LfState.inf todo).next c).isNone) = true := by decide
        exact List.all_eq_true.mp hall todo ((List.mem_tails _ _).mpr hs)
    | nan todo =>
        have hall : ("an".toList.tails.all fun todo =>
            spaces.all fun c => ((LfState.nan todo).next c).isNone) = true := by decide
        exact List.all_eq_true.mp hall todo ((List.mem_tails _ _).mpr hs)
    | _ => rfl
  exact Option.isNone_iff_eq_none.mp
    (List.all_eq_true.mp hspaces c (List.contains_iff_mem.mp hc))

/-- There is no white space in an item. -/
theorem LfState.Live.not_space_of_run {s t : LfState} (hs : s.Live) {w : List Char}
    (h : s.run w = some t) : ∀ c ∈ w, isSpace c = false := by
  induction w generalizing s with
  | nil => exact fun c hc => absurd hc List.not_mem_nil
  | cons d w ih =>
      obtain ⟨u, hu, hrun⟩ := Option.bind_eq_some_iff.mp h
      intro c hc
      rcases List.mem_cons.mp hc with rfl | hc
      · refine Bool.eq_false_iff.mpr fun hspace => ?_
        rw [hs.next_space hspace] at hu
        cases hu
      · exact ih (hs.next hu) hrun c hc

theorem IsNumber.not_space {text : List Char} (h : IsNumber text) :
    ∀ c ∈ text, isSpace c = false := by
  obtain ⟨t, hrun, -⟩ := h
  exact LfState.Live.not_space_of_run (s := .start) trivial hrun

/-- White space before the items. -/
theorem Items.append_spaces {ws cs : List Char} {oks : List Bool}
    (hws : ∀ c ∈ ws, isSpace c = true) (h : Items cs oks) : Items (ws ++ cs) oks := by
  rw [← items_dropWhile_iff, List.dropWhile_append_of_pos hws, items_dropWhile_iff]
  exact h

/-- A number before white space, or at the end. -/
theorem Items.number {text rest : List Char} {oks : List Bool} (htext : IsNumber text)
    (hrest : ∀ c ∈ rest.head?, isSpace c = true) (h : Items rest oks) :
    Items (text ++ rest) (true :: oks) := by
  obtain ⟨t, hrun, hacc⟩ := htext
  have hlive : t.Live := LfState.Live.run (s := .start) trivial hrun
  have hne : text ≠ [] := by
    rintro rfl
    cases hrun
    cases hacc
  have hspaces := IsNumber.not_space ⟨t, hrun, hacc⟩
  refine @Items.item _ text rest _ _ ?_ hne h
  have hdrop : (text ++ rest).dropWhile isSpace = text ++ rest := by
    cases text with
    | nil => exact absurd rfl hne
    | cons c text =>
        rw [List.cons_append, List.dropWhile_cons_of_neg]
        rw [hspaces c (List.mem_cons_self ..)]
        exact Bool.false_ne_true
  rw [hdrop, scanItem_append hrun fun c hc => hlive.next_space (hrest c hc), hacc]

section Conversions

variable {α : Type} {strtod : List Char → α} {cs rest : List Char} {oks : List Bool}

/-- The cases of a conversion. -/
theorem scanLf_cases (strtod : List Char → α) (cs : List Char) :
    (cs.dropWhile isSpace = [] ∧ scanLf strtod cs = .eof) ∨
    ∃ item ok rest, cs.dropWhile isSpace ≠ [] ∧
      scanItem .start (cs.dropWhile isSpace) = (item, ok, rest) ∧
      scanLf strtod cs = if ok then .value (strtod item) rest else .mismatch rest := by
  unfold scanLf
  cases hdrop : cs.dropWhile isSpace with
  | nil => exact .inl ⟨rfl, rfl⟩
  | cons c cs' =>
      rcases hscan : scanItem .start (c :: cs') with ⟨item, ok, rest⟩
      refine .inr ⟨item, ok, rest, List.cons_ne_nil c cs', rfl, ?_⟩
      cases ok with
      | false => simp only [hscan, Bool.false_eq_true, if_false]
      | true => simp only [hscan, if_true]

theorem scanLf_eof_iff : scanLf strtod cs = .eof ↔ Items cs [] := by
  rw [items_nil_iff]
  obtain ⟨hdrop, h⟩ | ⟨item, ok, rest, hne, -, h⟩ := scanLf_cases strtod cs
  · exact ⟨fun _ => hdrop, fun _ => h⟩
  · refine ⟨fun h' => ?_, fun hdrop => absurd hdrop hne⟩
    rw [h] at h'
    split at h' <;> cases h'

/-- What has been read in front of items is an item: a scan that reads nothing is stuck. -/
theorem items_of_scan {item : List Char} {ok : Bool} (hne : cs.dropWhile isSpace ≠ [])
    (hscan : scanItem .start (cs.dropWhile isSpace) = (item, ok, rest)) (hi : Items rest oks) :
    Items cs (ok :: oks) := by
  refine .item hscan (fun hnil => ?_) hi
  subst hnil
  exact not_items_of_stuck hscan hne oks hi

/-- A conversion that succeeds has read an item that is a number. -/
theorem items_of_value {x : α} (h : scanLf strtod cs = .value x rest) (hi : Items rest oks) :
    Items cs (true :: oks) := by
  obtain ⟨-, h'⟩ | ⟨item, ok, rest', hne, hscan, h'⟩ := scanLf_cases strtod cs
  · rw [h] at h'
    cases h'
  · rw [h] at h'
    cases ok with
    | false => cases h'
    | true =>
        cases h'
        exact items_of_scan hne hscan hi

/-- A conversion that fails, where items follow, has read an item that is not a number. -/
theorem items_of_mismatch (h : scanLf strtod cs = .mismatch rest) (hi : Items rest oks) :
    Items cs (false :: oks) := by
  obtain ⟨-, h'⟩ | ⟨item, ok, rest', hne, hscan, h'⟩ := scanLf_cases strtod cs
  · rw [h] at h'
    cases h'
  · rw [h] at h'
    cases ok with
    | true => cases h'
    | false =>
        cases h'
        exact items_of_scan hne hscan hi

theorem scanLf_of_items {ok : Bool} (h : Items cs (ok :: oks)) :
    ∃ rest, Items rest oks ∧
      (ok = true ∧ (∃ x, scanLf strtod cs = .value x rest) ∨
        ok = false ∧ scanLf strtod cs = .mismatch rest) := by
  cases h with
  | @item _ item rest _ _ hscan hne hrest =>
      refine ⟨rest, hrest, ?_⟩
      obtain ⟨hdrop, -⟩ | ⟨item', ok', rest', -, hscan', h'⟩ := scanLf_cases strtod cs
      · rw [hdrop, scanItem_nil] at hscan
        cases hscan
        exact absurd rfl hne
      · rw [hscan] at hscan'
        cases hscan'
        cases ok with
        | true => exact .inl ⟨rfl, _, h'⟩
        | false => exact .inr ⟨rfl, h'⟩

end Conversions

/-! ## Numbers -/

/-- Input that consists of white space and the texts of numbers. -/
inductive Numbers : List Char → List (List Char) → Prop
  | done {cs : List Char} (h : ∀ c ∈ cs, isSpace c = true) : Numbers cs []
  | number {ws text rest : List Char} {texts : List (List Char)}
      (hws : ∀ c ∈ ws, isSpace c = true) (htext : IsNumber text)
      (hrest : ∀ c ∈ rest.head?, isSpace c = true) (h : Numbers rest texts) :
      Numbers (ws ++ (text ++ rest)) (text :: texts)

theorem IsNumber.ne_nil {text : List Char} (h : IsNumber text) : text ≠ [] := by
  rintro rfl
  exact absurd h (by decide)

theorem Numbers.eq_nil {texts : List (List Char)} (h : Numbers [] texts) : texts = [] := by
  generalize hcs : ([] : List Char) = cs at h
  cases h with
  | done _ => rfl
  | number _ htext _ _ =>
      exact absurd (List.append_eq_nil_iff.mp (List.append_eq_nil_iff.mp hcs.symm).2).1 htext.ne_nil

/-- White space before the numbers. -/
theorem Numbers.append_spaces {ws cs : List Char} {texts : List (List Char)}
    (hws : ∀ c ∈ ws, isSpace c = true) (h : Numbers cs texts) : Numbers (ws ++ cs) texts := by
  have hboth : ∀ {cs : List Char}, (∀ c ∈ cs, isSpace c = true) →
      ∀ c ∈ ws ++ cs, isSpace c = true := by
    intro cs hcs c hc
    exact (List.mem_append.mp hc).elim (hws c) (hcs c)
  cases h with
  | done hcs => exact .done (hboth hcs)
  | number hws' htext hrest h =>
      rw [← List.append_assoc]
      exact .number (hboth hws') htext hrest h

section Conversions

variable {α : Type} {cs text : List Char} {texts : List (List Char)}

/-- Behind the last number there is the end of the input. -/
theorem Numbers.scanLf_nil (strtod : List Char → α) (h : Numbers cs []) :
    scanLf strtod cs = .eof := by
  cases h with
  | done h => exact scanLf_eof_iff.mpr (.done (List.dropWhile_eq_nil_iff.mpr h))

/-- The next number is the item. -/
theorem scanItem_number {ws text rest : List Char} (hws : ∀ c ∈ ws, isSpace c = true)
    (htext : IsNumber text) (hrest : ∀ c ∈ rest.head?, isSpace c = true) :
    (ws ++ (text ++ rest)).dropWhile isSpace = text ++ rest ∧
      scanItem .start (text ++ rest) = (text, true, rest) := by
  obtain ⟨t, hrun, hacc⟩ := id htext
  have hlive : t.Live := LfState.Live.run (s := .start) trivial hrun
  constructor
  · rw [List.dropWhile_append_of_pos hws]
    cases text with
    | nil => exact absurd rfl htext.ne_nil
    | cons c text =>
        rw [List.cons_append, List.dropWhile_cons_of_neg]
        rw [htext.not_space c List.mem_cons_self]
        exact Bool.false_ne_true
  · rw [scanItem_append hrun fun c hc => hlive.next_space (hrest c hc), hacc]

theorem scanLf_number (strtod : List Char → α) {ws text rest : List Char}
    (hws : ∀ c ∈ ws, isSpace c = true) (htext : IsNumber text)
    (hrest : ∀ c ∈ rest.head?, isSpace c = true) :
    scanLf strtod (ws ++ (text ++ rest)) = .value (strtod text) rest := by
  obtain ⟨hdrop, hitem⟩ := scanItem_number hws htext hrest
  obtain ⟨hnil, -⟩ | ⟨item, ok, rest', -, hscan, hvalue⟩ :=
    scanLf_cases strtod (ws ++ (text ++ rest))
  · rw [hdrop] at hnil
    exact absurd (List.append_eq_nil_iff.mp hnil).1 htext.ne_nil
  · rw [hdrop, hitem] at hscan
    cases hscan
    rw [hvalue, if_pos rfl]

/-- A conversion reads the next number. -/
theorem Numbers.scanLf_cons (strtod : List Char → α) (h : Numbers cs (text :: texts)) :
    ∃ rest, scanLf strtod cs = .value (strtod text) rest ∧ Numbers rest texts := by
  cases h with
  | number hws htext hrest h => exact ⟨_, scanLf_number strtod hws htext hrest, h⟩

end Conversions

/-! ## The end of the input -/

/-- Some character continues the item. -/
def LfState.goesOn : LfState → Bool
  | .inf [] | .nanClosed => false
  | _ => true

theorem LfState.Live.goesOn_iff {s : LfState} (hs : s.Live) :
    s.goesOn = true ↔ ∃ c, (s.next c).isSome = true := by
  cases s with
  | start | sign | zero | int | point | frac | exp | expSign | expDigits | hex | hexInt
  | hexPoint | hexFrac => exact ⟨fun _ => ⟨'1', rfl⟩, fun _ => rfl⟩
  | nanOpen => exact ⟨fun _ => ⟨')', rfl⟩, fun _ => rfl⟩
  | nanClosed => exact ⟨fun h => absurd h (by decide), fun ⟨_, h⟩ => absurd h Bool.false_ne_true⟩
  | inf todo =>
      have hall : ∀ todo ∈ "nfinity".toList.tails, (LfState.inf todo).goesOn = true →
          ((LfState.inf todo).next (todo.headD 'n')).isSome = true := by decide
      refine ⟨fun h => ⟨_, hall todo ((List.mem_tails _ _).mpr hs) h⟩, fun ⟨c, h⟩ => ?_⟩
      cases todo with
      | nil => exact absurd h (by simp [LfState.next, LfState.nextLetter])
      | cons => rfl
  | nan todo =>
      have hall : ∀ todo ∈ "an".toList.tails,
          ((LfState.nan todo).next (todo.headD '(')).isSome = true := by decide
      exact ⟨fun _ => ⟨_, hall todo ((List.mem_tails _ _).mpr hs)⟩, fun _ => rfl⟩

/-- The item may go on behind its last character. -/
def GoesOn (text : List Char) : Prop := (LfState.start.run text).any LfState.goesOn = true

instance (text : List Char) : Decidable (GoesOn text) := inferInstanceAs (Decidable (_ = true))

/-- Whether a conversion looks for a character behind the last one, so that `feof` is true
    afterwards. -/
def hitsEnd (cs : List Char) : Bool :=
  match cs.dropWhile isSpace with
  | [] => true
  | c :: cs =>
    let r := scanItem .start (c :: cs)
    r.2.2.isEmpty && (LfState.start.run r.1).any LfState.goesOn

theorem hitsEnd_number {ws text rest : List Char} (hws : ∀ c ∈ ws, isSpace c = true)
    (htext : IsNumber text) (hrest : ∀ c ∈ rest.head?, isSpace c = true) :
    hitsEnd (ws ++ (text ++ rest)) = (rest.isEmpty && decide (GoesOn text)) := by
  obtain ⟨hdrop, hitem⟩ := scanItem_number hws htext hrest
  rw [hitsEnd, hdrop]
  obtain ⟨c, cs, hcons⟩ := List.exists_cons_of_ne_nil
    (List.append_ne_nil_of_left_ne_nil htext.ne_nil rest)
  simp only [hcons]
  rw [← hcons, hitem]
  exact congrArg (rest.isEmpty && ·) Bool.decide_eq_true.symm

end MpiApps.Scanf
