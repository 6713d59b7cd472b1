/-
  MpiApps.Apps.MatMulFiles

  The files of the matrix multiplication.

  `get_matrix_struct` counts the newlines of a file and the tabs in its first line, and then
  reads one number after the other, wherever the lines end.  So it gets back the matrices of
  `gen_matrices.py`, which puts tabs between the numbers (`getMatrixStruct_genMatrices`).
  `print_matrix` and the result file have a tab behind every number: what is read back from
  them has one column more, and its rows are shifted (`getMatrixStruct_printMatrix`).
-/

import MpiApps.Apps.MatMul
import MpiApps.Lib.Scanf

namespace MpiApps.MatMulFiles

open MpiApps.Fault MpiApps.MatMul MpiApps.MessagePassing MpiApps.Scanf

/-! ## The code -/

section Code

variable {α : Type}

/-- `rows` and `cols` in the loop over `fgetc`. -/
def countChar (s : Nat × Nat) (ch : Char) : Nat × Nat :=
  (if ch = '\n' then s.1 + 1 else s.1, if s.1 = 0 ∧ ch = '\t' then s.2 + 1 else s.2)

variable (strtod : List Char → α)

/-- The loop over `y` for the rest of a row: the row and what is left of the file. -/
def fillRow : List α → List Char → List α × List Char
  | [], content => ([], content)
  | x :: row, content =>
    match scanLf strtod content with
    -- `fscanf` gives `EOF`, which is not 0
    | .eof =>
      let s := fillRow row []
      (x :: s.1, s.2)
    | .mismatch content => (x :: row, content)
    | .value x content =>
      let s := fillRow row content
      (x :: s.1, s.2)

/-- The loop over `x`. -/
def fillRows : List (List α) → List Char → List (List α) × List Char
  | [], content => ([], content)
  | row :: rows, content =>
    let s := fillRow strtod row content
    let t := fillRows rows s.2
    (s.1 :: t.1, t.2)

theorem fillRow_length (row : List α) (content : List Char) :
    (fillRow strtod row content).1.length = row.length := by
  induction row generalizing content with
  | nil => rfl
  | cons x row ih =>
      rw [fillRow]
      split
      · exact congrArg (· + 1) (ih _)
      · rfl
      · exact congrArg (· + 1) (ih _)

theorem fillRows_shape (rows : List (List α)) (content : List Char) :
    (fillRows strtod rows content).1.map List.length = rows.map List.length := by
  induction rows generalizing content with
  | nil => rfl
  | cons row rows ih => rw [fillRows, List.map_cons, List.map_cons, fillRow_length, ih]

theorem fillRows_replicate (m n : Nat) (zero : α) (content : List Char) :
    (fillRows strtod (List.replicate m (List.replicate n zero)) content).1.map List.length =
      List.replicate m n := by
  rw [fillRows_shape, List.map_replicate, List.length_replicate]

/-- `get_matrix_struct`; `calloc` has filled the rows with `zero`. -/
def getMatrixStruct (zero : α) (content : List Char) : MatrixStruct α :=
  let size := content.foldl countChar (0, 0)
  let rows := size.1
  let cols := size.2 + 1
  let shape := fillRows_replicate strtod rows cols zero content
  { rows := rows
    cols := cols
    matData := (fillRows strtod (List.replicate rows (List.replicate cols zero)) content).1
    length_rows := by simpa using congrArg List.length shape
    length_cols := fun row hrow =>
      List.eq_of_mem_replicate (shape ▸ List.mem_map_of_mem hrow) }

/-- The output of `gen_matrices.py` for the texts of the numbers. -/
def genMatrices (texts : List (List (List Char))) : List Char :=
  texts.flatMap fun row => ['\t'].intercalate row ++ ['\n']

variable (toText : α → List Char)

/-- `print_matrix`; `toText` is `%lf`. -/
def printMatrix (m : MatrixStruct α) : List Char :=
  m.matData.flatMap fun row => (row.flatMap fun x => toText x ++ ['\t']) ++ ['\n']

/-- The loop of `main` that writes the result, from entry `i` on. -/
def writeResult (cols : Nat) : Nat → List α → List Char
  | _, [] => []
  | i, x :: finalMatrix =>
    toText x ++ '\t' :: (if (i + 1) % cols = 0 then ['\n'] else []) ++
      writeResult cols (i + 1) finalMatrix

end Code

/-! ## Reading -/

section Reading

variable {α : Type} {strtod : List Char → α}

theorem foldl_countChar (content : List Char) (rows cols : Nat) :
    content.foldl countChar (rows, cols) = (rows + content.count '\n',
      cols + if rows = 0 then (content.takeWhile (· ≠ '\n')).count '\t' else 0) := by
  induction content generalizing rows cols with
  | nil => simp
  | cons c content ih =>
      rw [List.foldl_cons, countChar, ih]
      by_cases hnl : c = '\n'
      · subst hnl
        simp
        omega
      · by_cases htab : c = '\t'
        · subst htab
          by_cases hrows : rows = 0
          · simp [hrows]
            omega
          · simp [hrows]
        · simp [hnl, htab]

theorem getMatrixStruct_rows (zero : α) (content : List Char) :
    (getMatrixStruct strtod zero content).rows = content.count '\n' := by
  simp [getMatrixStruct, foldl_countChar]

theorem getMatrixStruct_cols (zero : α) (content : List Char) :
    (getMatrixStruct strtod zero content).cols =
      (content.takeWhile (· ≠ '\n')).count '\t' + 1 := by
  simp [getMatrixStruct, foldl_countChar]

/-- A row takes the next numbers, and keeps what it has behind the last one. -/
theorem fillRow_numbers (row : List α) {content : List Char} {texts : List (List Char)}
    (h : Numbers content texts) :
    (fillRow strtod row content).1 =
        (texts.map strtod).take row.length ++ row.drop texts.length ∧
      Numbers (fillRow strtod row content).2 (texts.drop row.length) := by
  induction row generalizing content texts with
  | nil => exact ⟨by simp [fillRow], h⟩
  | cons x row ih =>
      cases texts with
      | nil =>
          have hempty : Numbers [] [] := .done (by simp)
          obtain ⟨hrow, hrest⟩ := ih hempty
          simp only [fillRow, h.scanLf_nil strtod, hrow]
          exact ⟨by simp, by simpa using hrest⟩
      | cons text texts =>
          obtain ⟨rest, hvalue, hrest⟩ := h.scanLf_cons strtod
          obtain ⟨hrow, hnumbers⟩ := ih hrest
          simp only [fillRow, hvalue, hrow]
          exact ⟨by simp, by simpa using hnumbers⟩

/-- The rows take the numbers one after the other, wherever the lines end. -/
theorem fillRows_numbers (rows : List (List α)) {content : List Char} {texts : List (List Char)}
    (h : Numbers content texts) :
    (fillRows strtod rows content).1.flatten =
      (texts.map strtod).take rows.flatten.length ++ rows.flatten.drop texts.length := by
  induction rows generalizing content texts with
  | nil => simp [fillRows]
  | cons row rows ih =>
      obtain ⟨hrow, hrest⟩ := @fillRow_numbers α strtod row content texts h
      have hnone : row.drop texts.length ++ ((texts.map strtod).drop row.length).take
          rows.flatten.length = ((texts.map strtod).drop row.length).take rows.flatten.length ++
            row.drop texts.length := by
        rcases Nat.le_total texts.length row.length with hle | hle
        · have hdrop : (texts.map strtod).drop row.length = [] :=
            List.drop_eq_nil_of_le (by simpa using hle)
          simp [hdrop]
        · simp [List.drop_eq_nil_of_le hle]
      rw [fillRows, List.flatten_cons, List.flatten_cons, hrow, ih hrest, List.map_drop,
        List.length_append, List.take_add, List.drop_append, List.length_drop]
      simp only [List.append_assoc]
      rw [← List.append_assoc (row.drop _), hnone, List.append_assoc]

theorem takeD_eq (n : Nat) (l : List α) (zero : α) :
    l.takeD n zero = l.take n ++ List.replicate (n - l.length) zero := by
  induction n generalizing l with
  | zero => simp
  | succ n ih =>
      cases l with
      | nil => simp [List.replicate_succ]
      | cons x l => simp [ih]

/-- The numbers of the file one after the other, and zeros behind them. -/
theorem entries_getMatrixStruct (zero : α) {content : List Char} {texts : List (List Char)}
    (h : Numbers content texts) :
    (getMatrixStruct strtod zero content).entries = (texts.map strtod).takeD
      ((getMatrixStruct strtod zero content).rows * (getMatrixStruct strtod zero content).cols)
      zero := by
  have hfill := fun rows => @fillRows_numbers α strtod rows content texts h
  simp only [MatrixStruct.entries, getMatrixStruct, hfill, List.flatten_replicate_replicate,
    List.length_replicate, List.drop_replicate, takeD_eq, List.length_map]

/-- Rows of one length are told by their entries. -/
theorem matData_eq (m : MatrixStruct α) {rows : List (List α)}
    (hrows : rows.length = m.rows) (hcols : ∀ row ∈ rows, row.length = m.cols)
    (h : m.entries = rows.flatten) : m.matData = rows := by
  have hshape : ∀ l : List (List α), (∀ row ∈ l, row.length = m.cols) →
      l.map List.length = List.replicate l.length m.cols := by
    intro l hl
    refine List.eq_replicate_iff.mpr ⟨List.length_map _, fun n hn => ?_⟩
    obtain ⟨row, hrow, rfl⟩ := List.mem_map.mp hn
    exact hl row hrow
  refine List.eq_iff_flatten_eq.mpr ⟨h, ?_⟩
  rw [hshape _ m.length_cols, hshape _ hcols, m.length_rows, hrows]

end Reading

/-! ## Lines -/

section Lines

theorem count_eq_zero_of_number {text : List Char} (h : IsNumber text) {c : Char}
    (hc : isSpace c = true) : text.count c = 0 :=
  List.count_eq_zero_of_not_mem fun hmem =>
    absurd hc (Bool.eq_false_iff.mp (h.not_space c hmem))

/-- A file that begins with a line. -/
theorem takeWhile_line {line rest : List Char} (h : line.count '\n' = 0) :
    (line ++ '\n' :: rest).takeWhile (· ≠ '\n') = line := by
  have hline : ∀ c ∈ line, decide (c ≠ '\n') = true := by
    intro c hc
    refine decide_eq_true fun hnl => ?_
    subst hnl
    exact List.count_eq_zero.mp h hc
  rw [List.takeWhile_append_of_pos hline]
  simp

/-- A line with numbers and tabs. -/
structure Line (line : List Char) (texts : List (List Char)) (tabs : Nat) : Prop where
  newlines : line.count '\n' = 0
  tabs : line.count '\t' = tabs
  numbers : ∀ {rest : List Char} {more : List (List Char)}, Numbers rest more →
    Numbers (line ++ '\n' :: rest) (texts ++ more)

theorem line_nil : Line [] [] 0 where
  newlines := rfl
  tabs := rfl
  numbers h := @Numbers.append_spaces ['\n'] _ _ (List.forall_mem_singleton.mpr rfl) h

variable {text line : List Char} {texts : List (List Char)} {tabs : Nat}

theorem line_number (h : IsNumber text) : Line text [text] 0 where
  newlines := count_eq_zero_of_number h rfl
  tabs := count_eq_zero_of_number h rfl
  numbers hrest :=
    @Numbers.number [] _ _ _ (by simp) h (by simp [isSpace, spaces])
      (@Numbers.append_spaces ['\n'] _ _ (List.forall_mem_singleton.mpr rfl) hrest)

theorem Line.cons (hline : Line line texts tabs) (h : IsNumber text) :
    Line (text ++ '\t' :: line) (text :: texts) (tabs + 1) where
  newlines := by simp [count_eq_zero_of_number h, isSpace, spaces, hline.newlines]
  tabs := by simp [count_eq_zero_of_number h, isSpace, spaces, hline.tabs]
  numbers hrest := by
    rw [List.append_assoc]
    exact @Numbers.number [] _ _ _ (by simp) h (by simp [isSpace, spaces])
      (@Numbers.append_spaces ['\t'] _ _ (List.forall_mem_singleton.mpr rfl) (hline.numbers hrest))

/-- A line of `gen_matrices.py`. -/
theorem line_intercalate {row : List (List Char)} (hnumber : ∀ text ∈ row, IsNumber text) :
    Line (['\t'].intercalate row) row (row.length - 1) := by
  induction row with
  | nil => exact line_nil
  | cons text row ih =>
      have htext := hnumber text List.mem_cons_self
      cases row with
      | nil => simpa [List.intercalate] using line_number htext
      | cons text' row =>
          have hline := (ih fun text h => hnumber text (.tail _ h)).cons htext
          simpa [List.intercalate] using hline

/-- A line of `print_matrix`. -/
theorem line_flatMap {row : List (List Char)} (hnumber : ∀ text ∈ row, IsNumber text) :
    Line (row.flatMap fun text => text ++ ['\t']) row row.length := by
  induction row with
  | nil => exact line_nil
  | cons text row ih =>
      have hline := (ih fun text h => hnumber text (.tail _ h)).cons
        (hnumber text List.mem_cons_self)
      simpa using hline

end Lines

/-! ## Files -/

section Files

variable {α : Type} {strtod : List Char → α} {write : List (List Char) → List Char}
  {texts : List (List (List Char))} {tabs : Nat}

theorem numbers_lines (hlines : ∀ row ∈ texts, Line (write row) row tabs) :
    Numbers (texts.flatMap fun row => write row ++ ['\n']) texts.flatten := by
  induction texts with
  | nil => exact .done (by simp)
  | cons row texts ih =>
      have hrest := (hlines row List.mem_cons_self).numbers (ih fun row h => hlines row (.tail _ h))
      simpa using hrest

theorem count_lines (hlines : ∀ row ∈ texts, Line (write row) row tabs) :
    (texts.flatMap fun row => write row ++ ['\n']).count '\n' = texts.length := by
  induction texts with
  | nil => rfl
  | cons row texts ih =>
      rw [List.flatMap_cons, List.count_append, List.count_append,
        (hlines row List.mem_cons_self).newlines, ih fun row h => hlines row (.tail _ h),
        List.length_cons, Nat.add_comm]
      rfl

/-- What is read from lines with the same number of tabs. -/
theorem getMatrixStruct_lines (zero : α) (hne : texts ≠ [])
    (hlines : ∀ row ∈ texts, Line (write row) row tabs) :
    let m := getMatrixStruct strtod zero (texts.flatMap fun row => write row ++ ['\n'])
    m.rows = texts.length ∧ m.cols = tabs + 1 ∧
      m.entries = (texts.flatten.map strtod).takeD (texts.length * (tabs + 1)) zero := by
  intro m
  have hrows : m.rows = texts.length :=
    (getMatrixStruct_rows zero _).trans (count_lines hlines)
  have hcols : m.cols = tabs + 1 := by
    cases texts with
    | nil => exact absurd rfl hne
    | cons row texts =>
        have hline := hlines row List.mem_cons_self
        rw [getMatrixStruct_cols, List.flatMap_cons, List.append_assoc, List.singleton_append,
          takeWhile_line hline.newlines, hline.tabs]
  refine ⟨hrows, hcols, ?_⟩
  rw [← hrows, ← hcols]
  exact entries_getMatrixStruct zero (numbers_lines hlines)

/-- The matrix of `gen_matrices.py` is read back exactly if it has a column, and, if it has no
    rows, only one. -/
theorem getMatrixStruct_genMatrices (strtod : List Char → α) (zero : α) {cols : Nat}
    (hcols : ∀ row ∈ texts, row.length = cols)
    (hnumber : ∀ row ∈ texts, ∀ text ∈ row, IsNumber text) :
    ((getMatrixStruct strtod zero (genMatrices texts)).rows = texts.length ∧
      (getMatrixStruct strtod zero (genMatrices texts)).cols = cols ∧
      (getMatrixStruct strtod zero (genMatrices texts)).matData = texts.map (·.map strtod)) ↔
      1 ≤ cols ∧ (texts = [] → cols = 1) := by
  rcases eq_or_ne texts [] with rfl | hne
  · constructor
    · rintro ⟨-, hone, -⟩
      have hone : 1 = cols := hone
      exact ⟨hone.le, fun _ => hone.symm⟩
    · rintro ⟨-, hone⟩
      exact ⟨rfl, (hone rfl).symm, rfl⟩
  · have hlines : ∀ row ∈ texts, Line (['\t'].intercalate row) row (cols - 1) := by
      intro row hrow
      rw [← hcols row hrow]
      exact line_intercalate (hnumber row hrow)
    obtain ⟨hrows, hcols', hdata⟩ := @getMatrixStruct_lines α strtod _ _ _ zero hne hlines
    rw [← genMatrices] at hrows hcols' hdata
    refine ⟨fun h => ⟨by omega, fun h => absurd h hne⟩, fun ⟨hpos, _⟩ => ?_⟩
    have hcols'' : (getMatrixStruct strtod zero (genMatrices texts)).cols = cols := by omega
    refine ⟨hrows, hcols'', matData_eq _ (by rw [hrows, List.length_map]) ?_ ?_⟩
    · intro row hrow
      obtain ⟨row', hrow', rfl⟩ := List.mem_map.mp hrow
      rw [hcols'', List.length_map, hcols row' hrow']
    · have hsize : (texts.flatten.map strtod).length = texts.length * (cols - 1 + 1) := by
        rw [List.length_map, length_flatten_of_rows hcols, Nat.sub_add_cancel hpos]
      rw [hdata, List.takeD_eq_take zero hsize.ge, List.take_of_length_le hsize.le,
        List.map_flatten]

/-- The value of a number with one digit. -/
def digitValue (text : List Char) : Nat := (text.headD '0').toNat - '0'.toNat

/-- Two lines with two numbers. -/
theorem getMatrixStruct_genMatrices_two :
    ((getMatrixStruct digitValue 0 (genMatrices [[['1'], ['2']], [['3'], ['4']]])).rows = 2 ∧
      (getMatrixStruct digitValue 0 (genMatrices [[['1'], ['2']], [['3'], ['4']]])).cols = 2 ∧
      (getMatrixStruct digitValue 0 (genMatrices [[['1'], ['2']], [['3'], ['4']]])).matData =
        [[['1'], ['2']], [['3'], ['4']]].map (·.map digitValue)) ↔
      1 ≤ 2 ∧ ([[['1'], ['2']], [['3'], ['4']]] = [] → 2 = 1) :=
  getMatrixStruct_genMatrices digitValue 0 (by decide) (by decide)

/-- What is read back from a printed matrix has one column more, and the entries of the matrix
    one after the other in these longer rows. -/
theorem getMatrixStruct_printMatrix (strtod : List Char → α) (zero : α) {toText : α → List Char}
    (m : MatrixStruct α) (hrows : 1 ≤ m.rows) (hnumber : ∀ x ∈ m.entries, IsNumber (toText x)) :
    (getMatrixStruct strtod zero (printMatrix toText m)).rows = m.rows ∧
      (getMatrixStruct strtod zero (printMatrix toText m)).cols = m.cols + 1 ∧
      (getMatrixStruct strtod zero (printMatrix toText m)).entries =
        (m.entries.map fun x => strtod (toText x)).takeD (m.rows * (m.cols + 1)) zero := by
  let texts := m.matData.map (·.map toText)
  have hlines : ∀ row ∈ texts,
      Line (row.flatMap fun text => text ++ ['\t']) row m.cols := by
    intro row hrow
    obtain ⟨row', hrow', rfl⟩ := List.mem_map.mp hrow
    rw [← m.length_cols row' hrow', ← @List.length_map _ _ _ toText]
    refine line_flatMap fun text htext => ?_
    obtain ⟨x, hx, rfl⟩ := List.mem_map.mp htext
    exact hnumber x (List.mem_flatten_of_mem hrow' hx)
  have hlen : texts.length = m.rows := by rw [List.length_map, m.length_rows]
  have hne : texts ≠ [] := List.length_pos_iff.mp (by omega)
  have hprint : printMatrix toText m =
      texts.flatMap fun row => (row.flatMap fun text => text ++ ['\t']) ++ ['\n'] := by
    simp only [printMatrix, texts, List.flatMap_map]
  have hmap : texts.flatten.map strtod = m.entries.map fun x => strtod (toText x) := by
    rw [← List.map_flatten, List.map_map]
    rfl
  have h := @getMatrixStruct_lines α strtod _ _ _ zero hne hlines
  rwa [← hprint, hlen, hmap] at h

/-- A number with one digit. -/
def digitText (x : Nat) : List Char := [Char.ofNat ('0'.toNat + x)]

/-- `[[3], [4]]`. -/
def columnMatrix : MatrixStruct Nat := ⟨2, 1, [[3], [4]], rfl, by decide⟩

/-- It is read back as `[[3, 4], [0, 0]]`. -/
theorem getMatrixStruct_printMatrix_column :
    (getMatrixStruct digitValue 0 (printMatrix digitText columnMatrix)).rows = 2 ∧
      (getMatrixStruct digitValue 0 (printMatrix digitText columnMatrix)).cols = 1 + 1 ∧
      (getMatrixStruct digitValue 0 (printMatrix digitText columnMatrix)).entries =
        (columnMatrix.entries.map fun x => digitValue (digitText x)).takeD (2 * (1 + 1)) 0 :=
  getMatrixStruct_printMatrix digitValue 0 columnMatrix (by decide) (by decide)

end Files

/-! ## The result file -/

section Result

variable {α : Type} {toText : α → List Char} {cols : Nat}

/-- The end of a row. -/
theorem writeResult_row {row : List α} (hne : row ≠ []) (hlen : row.length ≤ cols) {i : Nat}
    (hend : (i + row.length) % cols = 0) (rest : List α) :
    writeResult toText cols i (row ++ rest) =
      (row.flatMap fun x => toText x ++ ['\t']) ++
        '\n' :: writeResult toText cols (i + row.length) rest := by
  induction row generalizing i with
  | nil => exact absurd rfl hne
  | cons x row ih =>
      have hshift : i + (x :: row).length = i + 1 + row.length := by
        rw [List.length_cons]
        omega
      rw [hshift] at hend ⊢
      have hlt : row.length < cols := hlen
      rw [List.cons_append, writeResult]
      cases row with
      | nil => simp [show (i + 1) % cols = 0 from hend]
      | cons y row =>
          have hinside : (i + 1) % cols ≠ 0 := by
            intro h
            have hdvd := (Nat.dvd_add_right (Nat.dvd_of_mod_eq_zero h)).mp
              (Nat.dvd_of_mod_eq_zero hend)
            exact absurd (Nat.le_of_dvd (Nat.succ_pos _) hdvd) (Nat.not_le.mpr hlt)
          rw [if_neg hinside, ih (List.cons_ne_nil y row) hlt.le hend]
          simp

/-- The rows one after the other are written as `print_matrix` prints them. -/
theorem writeResult_flatten {rows : List (List α)} (hcols : 1 ≤ cols)
    (hrows : ∀ row ∈ rows, row.length = cols) {i : Nat} (hstart : i % cols = 0) :
    writeResult toText cols i rows.flatten =
      rows.flatMap fun row => (row.flatMap fun x => toText x ++ ['\t']) ++ ['\n'] := by
  induction rows generalizing i with
  | nil => rfl
  | cons row rows ih =>
      have hrow := hrows row List.mem_cons_self
      have hend : (i + row.length) % cols = 0 := by
        rw [hrow, Nat.add_mod_right]
        exact hstart
      have hne : row ≠ [] := List.length_pos_iff.mp (by omega)
      rw [List.flatten_cons, writeResult_row hne hrow.le hend,
        ih (fun row h => hrows row (.tail _ h)) hend, List.flatMap_cons, List.append_assoc]
      rfl

end Result

section Run

variable {V : Type} [Zero V] [Add V] [Mul V]

/-- For every two files that `main` of `mm` does not exit with, and sizes that fit an `int`, in
    every interleaving, the root writes the product of the matrices it has read, in the way of
    `print_matrix`. -/
theorem mm_writes_product (strtod : List Char → V) (toText : V → List Char) (p : Nat) [NeZero p]
    (content₁ content₂ : List Char) (malloc : Fin p → Nat → Nat → V)
    (hshape : (getMatrixStruct strtod 0 content₁).cols = (getMatrixStruct strtod 0 content₂).rows)
    (hp : p ∣ (getMatrixStruct strtod 0 content₁).rows)
    (hfits : FitsInt (getMatrixStruct strtod 0 content₁).rows
      (getMatrixStruct strtod 0 content₁).cols (getMatrixStruct strtod 0 content₂).cols) :
    let m₁ := getMatrixStruct strtod 0 content₁
    let m₂ := getMatrixStruct strtod 0 content₂
    ∃ F, Yields (withBcast (main p malloc m₁ m₂)) F ∧
      writeResult toText m₂.cols 0 (F 0) = printMatrix toText (productMatrix m₁ m₂) := by
  intro m₁ m₂
  obtain ⟨F, hyields, hroot⟩ := @main_yields V _ _ _ p _ m₁ m₂ hshape hp hfits malloc
  refine ⟨F, hyields, ?_⟩
  have hcols : 1 ≤ m₂.cols := by
    rw [getMatrixStruct_cols]
    omega
  rw [hroot, printMatrix]
  exact writeResult_flatten hcols (productMatrix m₁ m₂).length_cols (Nat.zero_mod _)

end Run

/-- A column of two rows for two ranks, times 5. -/
theorem mm_writes_product_two : ∃ F,
    Yields (withBcast (main 2 (fun _ _ _ => 0)
        (getMatrixStruct digitValue 0 "2\n3\n".toList)
        (getMatrixStruct digitValue 0 "5\n".toList))) F ∧
      writeResult digitText 1 0 (F 0) = printMatrix digitText (productMatrix
        (getMatrixStruct digitValue 0 "2\n3\n".toList)
        (getMatrixStruct digitValue 0 "5\n".toList)) :=
  mm_writes_product digitValue digitText 2 "2\n3\n".toList "5\n".toList _ (by decide) (by decide)
    (by constructor <;> decide)

end MpiApps.MatMulFiles
