import RevisedSimplex.Proofs.Matrix
import RevisedSimplex.Tableau.Text

/-! # Rendered tableaux

The widths of a sheet leave room for every text of its columns. So its lines are equally long, and
what belongs to one column starts at one offset in all of them.
-/

namespace RevisedSimplex

/-- The text with spaces on both sides up to the width. -/
def IsPadded (width : ℕ) (text : String) (field : List Char) : Prop :=
  ∃ left right : ℕ, left + text.length + right = width ∧
    field = List.replicate left ' ' ++ text.toList ++ List.replicate right ' '

/-- The padded text starts at the offset. -/
def HasField (chars : List Char) (offset width : ℕ) (text : String) : Prop :=
  ∃ before field after : List Char, chars = before ++ field ++ after ∧ before.length = offset ∧
    IsPadded width text field

section Fields

variable {width offset : ℕ} {text : String} {field chars : List Char}

theorem IsPadded.length_eq (h : IsPadded width text field) : field.length = width := by
  obtain ⟨left, right, hwidth, rfl⟩ := h
  simp only [List.length_append, List.length_replicate, String.length_toList, hwidth]

theorem isPadded_alignRight (h : text.length ≤ width) :
    IsPadded width text (alignRight width text).toList :=
  ⟨width - text.length, 0, by omega, by simp [alignRight, spaces]⟩

theorem isPadded_centred (h : text.length ≤ width) :
    IsPadded width text (centred width text).toList :=
  ⟨(width - text.length) / 2, width - text.length - (width - text.length) / 2, by omega,
    by simp [centred, spaces]⟩

theorem HasField.append_left (h : HasField chars offset width text) (before : List Char) :
    HasField (before ++ chars) (before.length + offset) width text := by
  obtain ⟨before', field, after, rfl, rfl, hfield⟩ := h
  exact ⟨before ++ before', field, after, by simp, by simp, hfield⟩

theorem HasField.append_right (h : HasField chars offset width text) (after : List Char) :
    HasField (chars ++ after) offset width text := by
  obtain ⟨before, field, after', rfl, rfl, hfield⟩ := h
  exact ⟨before, field, after' ++ after, by simp, rfl, hfield⟩

theorem IsPadded.hasField (h : IsPadded width text field) : HasField field 0 width text :=
  ⟨[], field, [], by simp, rfl, h⟩

end Fields

namespace Sheet

variable {s : Sheet} {label value : String} {cells : List String} {widths : List ℕ}

def cellText (widths : List ℕ) (cells : List String) : List Char :=
  (List.zipWith (fun width cell => ' ' :: (centred width cell).toList) widths cells).flatten

def span (widths : List ℕ) : ℕ := (widths.map (1 + ·)).sum

@[simp] theorem span_cons (width : ℕ) (widths : List ℕ) :
    span (width :: widths) = 1 + width + span widths := by
  simp [span]

theorem cellText_cons (width : ℕ) (widths : List ℕ) (cell : String) (cells : List String) :
    cellText (width :: widths) (cell :: cells) =
      ' ' :: (centred width cell).toList ++ cellText widths cells := rfl

theorem length_cellText
    (h : List.Forall₂ (fun width cell => cell.length ≤ width) widths cells) :
    (cellText widths cells).length = span widths := by
  induction h with
  | nil => rfl
  | cons hcell _ ih =>
    rw [cellText_cons, span_cons, List.length_append, List.length_cons, ih,
      (isPadded_centred hcell).length_eq]
    omega

theorem hasField_cellText
    (h : List.Forall₂ (fun width cell => cell.length ≤ width) widths cells) (j : ℕ)
    (hj : j < cells.length) :
    HasField (cellText widths cells) (span (widths.take j) + 1) (widths.getD j 0) cells[j] := by
  induction h generalizing j with
  | nil => cases hj
  | @cons width cell widths cells hcell _ ih =>
    cases j with
    | zero => exact ((isPadded_centred hcell).hasField.append_left [' ']).append_right _
    | succ j =>
      have hfield := (ih j (by simpa using hj)).append_left (' ' :: (centred width cell).toList)
      have hoffset : span ((width :: widths).take (j + 1)) + 1 =
          (' ' :: (centred width cell).toList).length + (span (widths.take j) + 1) := by
        rw [List.take_succ_cons, span_cons, List.length_cons, (isPadded_centred hcell).length_eq]
        omega
      rwa [← hoffset] at hfield

structure Fits (s : Sheet) (label value : String) (cells : List String) : Prop where
  label : label.length ≤ s.labelWidth
  value : value.length ≤ s.valueWidth
  cells : List.Forall₂ (fun width cell => cell.length ≤ width) s.columnWidths cells

def labelBar (s : Sheet) : ℕ := s.labelWidth + 1

def valueOffset (s : Sheet) : ℕ := s.labelWidth + 3

def valueBar (s : Sheet) : ℕ := s.labelWidth + s.valueWidth + 4

def columnOffset (s : Sheet) (j : ℕ) : ℕ :=
  s.labelWidth + s.valueWidth + 6 + span (s.columnWidths.take j)

/-- The line is as long as its sheet is wide, and each field starts at the offset that the sheet
has for it. -/
structure IsAligned (s : Sheet) (label value : String) (cells : List String)
    (chars : List Char) : Prop where
  length_eq : chars.length = s.totalWidth
  bar_label : chars[s.labelBar]? = some '|'
  bar_value : chars[s.valueBar]? = some '|'
  field_label : HasField chars 0 s.labelWidth label
  field_value : HasField chars s.valueOffset s.valueWidth value
  field_cell : ∀ (j : ℕ) (hj : j < cells.length),
    HasField chars (s.columnOffset j) (s.columnWidths.getD j 0) cells[j]

theorem toList_line (s : Sheet) (label value : String) (cells : List String) :
    (s.line label value cells).toList = (alignRight s.labelWidth label).toList ++
      ([' ', '|', ' '] ++ ((centred s.valueWidth value).toList ++
        ([' ', '|'] ++ cellText s.columnWidths cells))) := by
  simp [line, cellText, List.flatMap_def, List.map_zipWith]

theorem totalWidth_eq (s : Sheet) :
    s.totalWidth = s.labelWidth + s.valueWidth + 5 + span s.columnWidths := by
  rw [totalWidth, span, List.sum, List.foldr_map]
  omega

theorem isAligned_line (h : s.Fits label value cells) :
    s.IsAligned label value cells (s.line label value cells).toList := by
  have hlabel := isPadded_alignRight h.label
  have hvalue := isPadded_centred h.value
  have hcells := length_cellText h.cells
  rw [toList_line]
  constructor
  · simp only [List.length_append, hlabel.length_eq, hvalue.length_eq, hcells, List.length_cons,
      List.length_nil, totalWidth_eq]
    omega
  · simp [labelBar, hlabel.length_eq]
  · rw [valueBar, Nat.add_assoc]
    simp [hlabel.length_eq, hvalue.length_eq]
  · exact hlabel.hasField.append_right _
  · have hfield := ((hvalue.hasField.append_right ([' ', '|'] ++
      cellText s.columnWidths cells)).append_left [' ', '|', ' ']).append_left
        (alignRight s.labelWidth label).toList
    rwa [hlabel.length_eq] at hfield
  · intro j hj
    have hfield := (((hasField_cellText h.cells j hj).append_left [' ', '|']).append_left
      (centred s.valueWidth value).toList).append_left [' ', '|', ' ']
    have hfield := hfield.append_left (alignRight s.labelWidth label).toList
    have hoffset : s.columnOffset j = (alignRight s.labelWidth label).toList.length +
        (3 + ((centred s.valueWidth value).toList.length +
          (2 + (span (s.columnWidths.take j) + 1)))) := by
      rw [columnOffset, hlabel.length_eq, hvalue.length_eq]
      omega
    rw [hoffset]
    exact hfield

theorem le_foldl_max {l : List ℕ} {bound k : ℕ} (h : k ≤ bound ∨ k ∈ l) :
    k ≤ l.foldl max bound := by
  induction l generalizing bound with
  | nil => simpa using h
  | cons a l ih =>
    apply ih
    rcases h with h | h
    · exact .inl (le_max_of_le_left h)
    · rcases List.mem_cons.mp h with rfl | h
      · exact .inl (le_max_right ..)
      · exact .inr h

theorem length_le_widest {texts : List String} {text : String} (h : text ∈ texts) :
    text.length ≤ widest texts :=
  le_foldl_max (.inr (List.mem_map_of_mem h))

theorem forall₂_columnWidths (hlength : s.columns.length = cells.length)
    (h : ∀ (j : ℕ) (hj : j < s.columns.length), cells[j] = "" ∨
      cells[j] ∈ Nat.repr j :: s.columns[j].1 :: s.columns[j].2) :
    List.Forall₂ (fun width cell => cell.length ≤ width) s.columnWidths cells := by
  rw [List.forall₂_iff_get]
  constructor
  · simpa [columnWidths] using hlength
  · intro j hj hj'
    simp only [columnWidths, List.get_eq_getElem, List.getElem_mapIdx]
    rcases h j (hlength ▸ hj') with h | h
    · simp [h]
    · exact length_le_widest h

/-- A smaller number does not have more digits. So there is room for the labels in a width that
is computed from the number of rows, which is not a label itself. -/
theorem length_repr_mono {i k : ℕ} (h : i ≤ k) : (Nat.repr i).length ≤ (Nat.repr k).length := by
  rw [Nat.length_repr_le_iff Nat.length_repr_pos]
  exact h.trans_lt ((Nat.length_repr_le_iff Nat.length_repr_pos).mp le_rfl)

theorem fits_header (h : s.objective ≠ "") :
    s.Fits "" "b" (s.columns.mapIdx fun j _ => Nat.repr j) where
  label := Nat.zero_le _
  value := by
    have hpos : 0 < s.objective.length := by
      simpa [Nat.pos_iff_ne_zero] using h
    exact le_max_of_le_right hpos
  cells := forall₂_columnWidths (by simp) (by simp)

theorem fits_costLine : s.Fits "cost" s.objective (s.columns.map (·.1)) where
  label := le_max_left ..
  value := le_max_right ..
  cells := forall₂_columnWidths (by simp) (by simp)

theorem fits_row {i : ℕ} (hi : i < s.values.length) :
    s.Fits (Nat.repr i) s.values[i] (s.columns.map (·.2.getD i "")) where
  label := le_max_of_le_right (length_repr_mono hi.le)
  value := le_max_of_le_left (length_le_widest (List.getElem_mem hi))
  cells := by
    apply forall₂_columnWidths (by simp)
    intro j hj
    rw [List.getElem_map, List.getD_eq_getElem?_getD]
    cases helement : s.columns[j].2[i]? with
    | none => exact .inl rfl
    | some element =>
      exact .inr (List.mem_cons_of_mem _ (List.mem_cons_of_mem _ (List.mem_of_getElem? helement)))

theorem newline_notMem_cellText (h : ∀ cell ∈ cells, '\n' ∉ cell.toList) (widths : List ℕ) :
    '\n' ∉ cellText widths cells := by
  induction widths generalizing cells with
  | nil => simp [cellText]
  | cons width widths ih =>
    cases cells with
    | nil => simp [cellText]
    | cons cell cells =>
      obtain ⟨hcell, hcells⟩ := List.forall_mem_cons.mp h
      simp [cellText_cons, centred, spaces, hcell, ih hcells]

theorem newline_notMem_line (hlabel : '\n' ∉ label.toList) (hvalue : '\n' ∉ value.toList)
    (hcells : ∀ cell ∈ cells, '\n' ∉ cell.toList) (s : Sheet) :
    '\n' ∉ (s.line label value cells).toList := by
  simp [toList_line, alignRight, centred, spaces, hlabel, hvalue,
    newline_notMem_cellText hcells]

end Sheet

@[simp] theorem newline_notMem_toDigits (k : ℕ) : '\n' ∉ Nat.toDigits 10 k :=
  fun h => absurd (Nat.isDigit_of_mem_toDigits (by decide) (by decide) h) (by decide)

theorem splitOn_join_lines {lines : List String} (h : ∀ text ∈ lines, '\n' ∉ text.toList)
    (rest : List Char) :
    ((String.join (lines.map (· ++ "\n"))).toList ++ rest).splitOn '\n' =
      lines.map String.toList ++ rest.splitOn '\n' := by
  induction lines with
  | nil => simp
  | cons text lines ih =>
    obtain ⟨htext, hlines⟩ := List.forall_mem_cons.mp h
    have hfirst : ∀ c ∈ text.toList, (c == '\n') = false := by
      rintro c hc
      rw [beq_eq_false_iff_ne]
      rintro rfl
      exact htext hc
    have hsplit := List.splitOnP_append_cons_of_forall_mem hfirst '\n' (beq_self_eq_true _)
      ((String.join (lines.map (· ++ "\n"))).toList ++ rest)
    rw [← List.splitOn_eq_splitOnP, ← List.splitOn_eq_splitOnP, ih hlines] at hsplit
    simpa using hsplit

/-- In a table of this precision each number is written in one line and at least one character. -/
structure NumberText.IsInline (F : Type) [NumberText F] (places : ℕ) : Prop where
  ne_empty : ∀ x : F, NumberText.fixed places x ≠ ""
  newline_notMem : ∀ x : F, '\n' ∉ (NumberText.fixed places x).toList

theorem newline_notMem_positional (places : ℕ) (d : Decimal) :
    '\n' ∉ (d.positional places).toList := by
  have hzero (width k : ℕ) : '\n' ∉ (Decimal.zeroPadded width k).toList := by
    simp [Decimal.zeroPadded]
  rw [Decimal.positional]
  split
  · simp
  · simp [hzero]

theorem positional_ne_empty (places : ℕ) (d : Decimal) : d.positional places ≠ "" := by
  have hrepr (k : ℕ) : Nat.repr k ≠ "" := by
    intro h
    have hpos : 0 < (Nat.repr k).length := Nat.length_repr_pos
    simp [h] at hpos
  rw [Decimal.positional]
  split
  · exact hrepr _
  · simp [hrepr]

namespace BinaryNumber

variable {write : Neighbourhood → String}

theorem text_ne_empty (h : ∀ v, write v ≠ "") (x : BinaryNumber) : x.text write ≠ "" := by
  cases x with
  | undefined => simp [text]
  | infinite negative => simp [text]
  | finite negative magnitude => simp [text, h]

theorem newline_notMem_text (h : ∀ v, '\n' ∉ (write v).toList) (x : BinaryNumber) :
    '\n' ∉ (x.text write).toList := by
  cases x with
  | undefined => simp [text]
  | infinite negative => cases negative <;> simp [text]
  | finite negative magnitude => cases negative <;> simp [text, h]

end BinaryNumber

/-- Binary numbers are written so, undefined and infinite values included. -/
theorem BinaryFormat.isInline {F : Type} (f : BinaryFormat) (bits : F → ℕ) (places : ℕ) :
    @NumberText.IsInline F (f.numberText bits) places :=
  @NumberText.IsInline.mk F (f.numberText bits) places
    (fun x => (f.read (bits x)).text_ne_empty fun _ => positional_ne_empty _ _)
    (fun x => (f.read (bits x)).newline_notMem_text fun _ => newline_notMem_positional _ _)

namespace Tableau

variable {F : Type} [Scalar F] [NumberText F] {m n : ℕ}

def indexTexts (_ : Tableau F m n) : List String := List.ofFn fun j : Fin n => Nat.repr j

def costTexts (t : Tableau F m n) : List String :=
  List.ofFn fun j => NumberText.fixed 4 (t.reducedCosts.get j)

def elementTexts (t : Tableau F m n) (i : Fin m) : List String :=
  List.ofFn fun j => NumberText.fixed 4 ((t.column j).get i)

theorem indexTexts_eq (t : Tableau F m n) :
    (t.sheet.columns.mapIdx fun j _ => Nat.repr j) = t.indexTexts := by
  apply List.ext_getElem <;> simp [sheet, indexTexts]

theorem costTexts_eq (t : Tableau F m n) : t.sheet.columns.map (·.1) = t.costTexts := by
  apply List.ext_getElem <;> simp [sheet, costTexts]

theorem elementTexts_eq (t : Tableau F m n) (i : Fin m) :
    t.sheet.columns.map (·.2.getD i "") = t.elementTexts i := by
  apply List.ext_getElem <;> simp [sheet, elementTexts, get_eq_getElem]

theorem values_eq (t : Tableau F m n) :
    t.sheet.values = List.ofFn fun i => NumberText.fixed 4 (t.basicValues.get i) := by
  simp [sheet, toList_eq_ofFn, List.map_ofFn, Function.comp_def]

def rowLine (t : Tableau F m n) (i : Fin m) : String :=
  t.sheet.line (Nat.repr i) (NumberText.fixed 4 (t.basicValues.get i)) (t.elementTexts i)

theorem rowLines_eq (t : Tableau F m n) : t.sheet.rowLines = List.ofFn t.rowLine := by
  apply List.ext_getElem
  · simp [Sheet.rowLines, values_eq]
  · intro i hi hi'
    rw [List.length_ofFn] at hi'
    simp [Sheet.rowLines, values_eq, rowLine, ← elementTexts_eq]

theorem isAligned_rowLine (t : Tableau F m n) (i : Fin m) :
    t.sheet.IsAligned (Nat.repr i) (NumberText.fixed 4 (t.basicValues.get i)) (t.elementTexts i)
      (t.rowLine i).toList := by
  have hi : i < t.sheet.values.length := by simp [values_eq]
  have hfits := Sheet.fits_row hi
  rw [elementTexts_eq] at hfits
  simp only [values_eq, List.getElem_ofFn] at hfits
  exact Sheet.isAligned_line hfits

theorem isAligned_header (hF : NumberText.IsInline F 4) (t : Tableau F m n) :
    t.sheet.IsAligned "" "b" t.indexTexts t.sheet.header.toList := by
  rw [← indexTexts_eq]
  exact Sheet.isAligned_line (Sheet.fits_header (hF.ne_empty _))

theorem isAligned_costLine (t : Tableau F m n) :
    t.sheet.IsAligned "cost" (NumberText.fixed 4 t.objective) t.costTexts
      t.sheet.costLine.toList := by
  rw [← costTexts_eq]
  exact Sheet.isAligned_line Sheet.fits_costLine

theorem newline_notMem_lines (hF : NumberText.IsInline F 4) (t : Tableau F m n) :
    ∀ text ∈ t.sheet.lines, '\n' ∉ text.toList := by
  have hindex : ∀ cell ∈ t.indexTexts, '\n' ∉ cell.toList := by
    simp [indexTexts, List.mem_ofFn]
  have hcost : ∀ cell ∈ t.costTexts, '\n' ∉ cell.toList := by
    simp [costTexts, List.mem_ofFn, hF.newline_notMem]
  have helement (i : Fin m) : ∀ cell ∈ t.elementTexts i, '\n' ∉ cell.toList := by
    simp [elementTexts, List.mem_ofFn, hF.newline_notMem]
  have hrule : '\n' ∉ t.sheet.rule.toList := by simp [Sheet.rule]
  rw [Sheet.lines, Sheet.header, Sheet.costLine, indexTexts_eq, costTexts_eq, rowLines_eq]
  rintro text htext
  simp only [List.cons_append, List.nil_append, List.mem_cons, List.mem_ofFn] at htext
  rcases htext with rfl | rfl | rfl | rfl | ⟨i, rfl⟩
  · exact Sheet.newline_notMem_line (by simp) (by simp) hindex _
  · exact hrule
  · exact Sheet.newline_notMem_line (by simp) (hF.newline_notMem _) hcost _
  · exact hrule
  · exact Sheet.newline_notMem_line (by simp) (hF.newline_notMem _) (helement i) _

/-- Below its title and up to an empty line the text of a tableau has a header, the costs between
two rules and a line per row. They are equally long, and in all of them the bars and the fields
have the same offsets. -/
theorem text_isAligned (hF : NumberText.IsInline F 4) (t : Tableau F m n) :
    ∃ (header costs : List Char) (rows : Fin m → List Char) (rest : List (List Char)),
      t.text.toList.splitOn '\n' =
        "=== Tableau ===".toList :: header :: List.replicate t.sheet.totalWidth '-' ::
          costs :: List.replicate t.sheet.totalWidth '-' :: (List.ofFn rows ++ [] :: rest) ∧
      t.sheet.IsAligned "" "b" t.indexTexts header ∧
      t.sheet.IsAligned "cost" (NumberText.fixed 4 t.objective) t.costTexts costs ∧
      ∀ i : Fin m, t.sheet.IsAligned (Nat.repr i) (NumberText.fixed 4 (t.basicValues.get i))
        (t.elementTexts i) (rows i) := by
  obtain ⟨after, hlines⟩ : ∃ after, t.lines = "=== Tableau ===" :: t.sheet.lines ++ [""] ++ after :=
    ⟨_, (List.append_assoc _ [""] _).symm⟩
  have htable : ∀ text ∈ "=== Tableau ===" :: t.sheet.lines ++ [""], '\n' ∉ text.toList := by
    rw [List.cons_append, List.forall_mem_cons, List.forall_mem_append, List.forall_mem_singleton]
    exact ⟨by decide, t.newline_notMem_lines hF, by decide⟩
  have hsplit := splitOn_join_lines htable (String.join (after.map (· ++ "\n"))).toList
  refine ⟨t.sheet.header.toList, t.sheet.costLine.toList, fun i => (t.rowLine i).toList,
    (String.join (after.map (· ++ "\n"))).toList.splitOn '\n', ?_,
    t.isAligned_header hF, t.isAligned_costLine, t.isAligned_rowLine⟩
  calc t.text.toList.splitOn '\n' =
        ("=== Tableau ===" :: t.sheet.lines ++ [""]).map String.toList ++
          (String.join (after.map (· ++ "\n"))).toList.splitOn '\n' := by
        rw [← hsplit, text, hlines]
        simp
    _ = _ := by simp [Sheet.lines, Sheet.rule, rowLines_eq, List.map_ofFn, Function.comp_def]

def wideCost : Tableau Float 1 2 where
  program := ⟨.ofFn ![1, -1250.5], .ofFn fun _ => ![2, 10], .ofFn ![4]⟩
  basis := .ofFn ![0]
  evaluation := ⟨.ofFn fun _ => ![0.5], .ofFn ![2], .ofFn ![0.5]⟩
  tolerance := 0
  artificial := 0

/-- Its second column takes nine characters in each line. -/
theorem text_isAligned_wideCost :
    NumberText.IsInline Float 4 ∧ ∃ (header costs row : List Char) (rest : List (List Char)),
      wideCost.text.toList.splitOn '\n' =
        "=== Tableau ===".toList :: header :: List.replicate 32 '-' :: costs ::
          List.replicate 32 '-' :: row :: [] :: rest ∧
      (header.length = 32 ∧ costs.length = 32 ∧ row.length = 32) ∧
      HasField header 23 9 "1" ∧ HasField costs 23 9 "1255.5000" ∧
      HasField row 23 9 "5.0000" := by
  have hF : NumberText.IsInline Float 4 := BinaryFormat.isInline ..
  obtain ⟨header, costs, rows, rest, hsplit, hheader, hcosts, hrows⟩ := text_isAligned hF wideCost
  have hwidth : wideCost.sheet.totalWidth = 32 := by decide +kernel
  have hoffset : wideCost.sheet.columnOffset 1 = 23 := by decide +kernel
  have hcolumn : wideCost.sheet.columnWidths.getD 1 0 = 9 := by decide +kernel
  have hfield {label value : String} {cells : List String} {chars : List Char} {cell : String}
      (h : wideCost.sheet.IsAligned label value cells chars) (hcell : cells[1]? = some cell) :
      HasField chars 23 9 cell := by
    obtain ⟨hlength, rfl⟩ := List.getElem?_eq_some_iff.mp hcell
    rw [← hoffset, ← hcolumn]
    exact h.field_cell 1 hlength
  refine ⟨hF, header, costs, rows 0, rest, ?_, ?_, ?_⟩
  · rw [hwidth] at hsplit
    exact hsplit
  · rw [← hwidth]
    exact ⟨hheader.length_eq, hcosts.length_eq, (hrows 0).length_eq⟩
  · constructor
    · exact hfield hheader (by decide +kernel)
    · exact ⟨hfield hcosts (by decide +kernel), hfield (hrows 0) (by decide +kernel)⟩

end Tableau
end RevisedSimplex
