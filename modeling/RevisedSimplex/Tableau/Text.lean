import RevisedSimplex.Tableau.Basic

/-! # Tableau text

A table with the relative costs above the rows of the tableau, followed by the basis
and the shadow prices. Numbers have four places; every column is as wide as its
widest entry and centred.
-/

namespace RevisedSimplex

/-- The texts of a table: one column of right-hand sides, then the numbered columns. -/
structure Sheet where
  objective : String
  values : List String
  /-- The relative cost of each column with the elements below it. -/
  columns : List (String × List String)

namespace Sheet

def widest (texts : List String) : Nat := (texts.map (·.length)).foldl max 0

def labelWidth (s : Sheet) : Nat := max "cost".length (Nat.repr s.values.length).length

def valueWidth (s : Sheet) : Nat := max (widest s.values) s.objective.length

def columnWidths (s : Sheet) : List Nat :=
  s.columns.mapIdx fun j (cost, elements) =>
    widest (Nat.repr j :: cost :: elements)

def totalWidth (s : Sheet) : Nat :=
  s.labelWidth + 1 + 1 + (1 + s.valueWidth + 1) + 1 +
    s.columnWidths.foldr (fun width total => 1 + width + total) 0

def line (s : Sheet) (label value : String) (cells : List String) : String :=
  alignRight s.labelWidth label ++ " | " ++ centred s.valueWidth value ++ " |" ++
    String.join (List.zipWith (fun width cell => " " ++ centred width cell) s.columnWidths cells)

def header (s : Sheet) : String := s.line "" "b" (s.columns.mapIdx fun j _ => Nat.repr j)

def rule (s : Sheet) : String := String.ofList (List.replicate s.totalWidth '-')

def costLine (s : Sheet) : String := s.line "cost" s.objective (s.columns.map (·.1))

def rowLines (s : Sheet) : List String :=
  s.values.mapIdx fun i value => s.line (Nat.repr i) value (s.columns.map (·.2.getD i ""))

def lines (s : Sheet) : List String :=
  [s.header, s.rule, s.costLine, s.rule] ++ s.rowLines

end Sheet

namespace Tableau

variable {F : Type} [Scalar F] [NumberText F] {m n : Nat}

def sheet (t : Tableau F m n) : Sheet :=
  let costs := t.reducedCosts
  { objective := NumberText.fixed 4 t.objective
    values := t.basicValues.toList.map (NumberText.fixed 4)
    columns := (List.finRange n).map fun j =>
      (NumberText.fixed 4 (costs.get j), (t.column j).toList.map (NumberText.fixed 4)) }

def lines (t : Tableau F m n) : List String :=
  "=== Tableau ===" :: t.sheet.lines ++
    ["",
      "=== Basis Columns ===", indexList t.basis.indices,
      "=== Shadow Prices ===", bracketed (t.shadowPrice.toList.map NumberText.general)]

def text (t : Tableau F m n) : String := String.join (t.lines.map (· ++ "\n"))

end Tableau
end RevisedSimplex
