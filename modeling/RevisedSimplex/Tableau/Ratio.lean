import RevisedSimplex.Options
import RevisedSimplex.Tableau.Basic

/-! # Ratio tests

The row that leaves the basis in the primal method, the row and the column of the
dual method. Two ratios tie when a step by either moves every other value past its
bound by no more than the tolerance.
-/

namespace RevisedSimplex

variable {F α : Type} [Scalar F] {m n : Nat}

def largest (values : List F) : F := values.foldl (fun best v => if best < v then v else best) 0

/-- The smallest of the values that can be compared. -/
def least? (values : List F) : Option F :=
  values.foldl
    (fun best v => if v ≤ v then
        match best with
        | some b => if v < b then some v else best
        | none => some v
      else best)
    none

/-- The distance from the minimal ratio within which a ratio ties with it. -/
def tieWindow (tolerance : F) (magnitudes : List F) : F := tolerance / largest magnitudes

/-- The candidates whose value is at most `window` above the minimum, in their order. -/
def minimizers (window : F) (value : α → F) (candidates : List α) : List α :=
  let valued := candidates.map fun a => (a, value a)
  match least? (valued.map (·.2)) with
  | some minimum => (valued.filter fun (_, v) => v ≤ minimum + window).map (·.1)
  | none => []

namespace Tableau

def smallestBasic (t : Tableau F m n) (rows : List (Fin m)) : Option (Fin m) :=
  rows.foldl
    (fun best i => match best with
      | some b => if t.basis.get i < t.basis.get b then some i else best
      | none => some i)
    none

/-- The rows whose entry in the column is above the tolerance. -/
def pivotRows (t : Tableau F m n) (column : Vector F m) : List (Fin m) :=
  (List.finRange m).filter fun i => t.tolerance < column.get i

def ratioWindow (t : Tableau F m n) (column : Vector F m) : F :=
  tieWindow t.tolerance ((t.pivotRows column).map column.get)

def minimalRatio (t : Tableau F m n) (column values : Vector F m) (rows : List (Fin m)) :
    List (Fin m) :=
  minimizers (t.ratioWindow column) (fun i => values.get i / column.get i) rows

def tiedRows (t : Tableau F m n) (column : Vector F m) : List (Fin m) :=
  t.minimalRatio column t.basicValues (t.pivotRows column)

/-- Narrows down the tied rows by the ratios of one tableau column after the other, until one row
is left. -/
def separate (t : Tableau F m n) (column : Vector F m) :
    List (Fin n) → List (Fin m) → List (Fin m)
  | [], tied => tied
  | k :: columns, tied =>
    if tied.length = 1 then tied
    else t.separate column columns (t.minimalRatio column (t.column k) tied)

/-- The row that leaves the basis for a column, or none if no entry of the column is above the
tolerance. -/
def leavingRow (t : Tableau F m n) (rule : LeavingRule) (column : Vector F m) :
    Option (Fin m) :=
  match rule with
  | .firstMinimum => (t.tiedRows column).head?
  | .smallestIndex => t.smallestBasic (t.tiedRows column)
  | .lexicographic => (t.separate column (List.finRange n) (t.tiedRows column)).head?

def infeasibleRows (t : Tableau F m n) : List (Fin m) :=
  (List.finRange m).filter fun i => t.basicValues.get i < -t.tolerance

/-- The row with the most negative basic value; of tied rows the one with the smallest basic
column. -/
def dualLeavingRow (t : Tableau F m n) : Option (Fin m) :=
  t.smallestBasic (minimizers t.tolerance t.basicValues.get t.infeasibleRows)

def rowEntry (t : Tableau F m n) (i : Fin m) (j : Fin n) : F :=
  t.rowElement (t.inverseRow i).toList j

def pivotColumns (t : Tableau F m n) (i : Fin m) : List (Fin n) :=
  t.nonbasicCandidates.filter fun j => t.rowEntry i j < -t.tolerance

/-- The first column with the minimal ratio of its relative cost to its element in row `i`, or
none if no candidate has a negative element. -/
def dualEnteringColumn (t : Tableau F m n) (i : Fin m) : Option (Fin n) :=
  let columns := t.pivotColumns i
  let window := tieWindow t.tolerance (columns.map fun j => -t.rowEntry i j)
  (minimizers window (fun j => t.relativeCost j / t.rowEntry i j) columns).head?

end Tableau
end RevisedSimplex
