import RevisedSimplex.Basis.Evaluation

/-! # Tableaux

A program with a basis, its evaluation and the tolerance of the pivots. The last
columns may be artificial: such a column can leave the basis but not enter it.
-/

namespace RevisedSimplex

variable {F : Type} {m n : Nat}

structure Tableau (F : Type) (m n : Nat) where
  program : Program F m n
  basis : Basis m n
  evaluation : Evaluation F m
  tolerance : F
  /-- The number of artificial columns. -/
  artificial : Nat

namespace Tableau

variable [Scalar F]

/-- The tableau of a basis, which is refused if its matrix is singular. -/
def ofBasis (program : Program F m n) (basis : Basis m n) (tolerance : F) (artificial : Nat) :
    Except (Failure F) (Tableau F m n) :=
  match program.evaluate? basis tolerance with
  | some evaluation => .ok { program, basis, evaluation, tolerance, artificial }
  | none => .error (.singularBasis basis.indices)

def ofIndices (program : Program F m n) (indices : List Nat) (tolerance : F)
    (artificial : Nat) : Except (Failure F) (Tableau F m n) :=
  match Basis.ofIndices indices with
  | .ok basis => ofBasis program basis tolerance artificial
  | .error fault => .error (.invalidInitialBasis fault)

/-- The tableau in which column `j` is basic in row `i`. -/
def pivot (t : Tableau F m n) (i : Fin m) (j : Fin n) : Except (Failure F) (Tableau F m n) :=
  ofBasis t.program (t.basis.set i j i.isLt) t.tolerance t.artificial

def isBasic (t : Tableau F m n) (j : Fin n) : Bool := t.basis.toList.contains j

def basicValues (t : Tableau F m n) : Vector F m := t.evaluation.basicValues

def shadowPrice (t : Tableau F m n) : Vector F m := t.evaluation.shadowPrice

def relativeCost (t : Tableau F m n) (j : Fin n) : F := t.program.reducedCost t.shadowPrice j

/-- The relative costs, with zero for the basic columns. -/
def reducedCosts (t : Tableau F m n) : Vector F n :=
  .ofFn fun j => if t.isBasic j then 0 else t.relativeCost j

def column (t : Tableau F m n) (j : Fin n) : Vector F m :=
  t.program.tableauColumn t.evaluation.inverse j

def element (t : Tableau F m n) (i : Fin m) (j : Fin n) : F :=
  t.program.tableauElement t.evaluation.inverse i j

def inverseRow (t : Tableau F m n) (i : Fin m) : Vector F m := t.evaluation.inverse.row i

def rowElement (t : Tableau F m n) (inverseRow : List F) (j : Fin n) : F :=
  t.program.rowElement inverseRow j

def objective (t : Tableau F m n) : F := t.program.objective t.basis t.basicValues

def point (t : Tableau F m n) : Vector F n := Program.basicPoint t.basis t.basicValues

def structural (t : Tableau F m n) : Nat := n - t.artificial

def candidates (t : Tableau F m n) : List (Fin n) :=
  (List.finRange n).filter (·.val < t.structural)

def nonbasicCandidates (t : Tableau F m n) : List (Fin n) :=
  t.candidates.filter fun j => !t.isBasic j

def isPrimalFeasible (t : Tableau F m n) : Bool := isNonnegative t.tolerance t.basicValues.toList

/-- No column that may enter has a relative cost above the tolerance. -/
def isDualFeasible (t : Tableau F m n) : Bool :=
  t.nonbasicCandidates.all fun j => t.relativeCost j ≤ t.tolerance

end Tableau
end RevisedSimplex
