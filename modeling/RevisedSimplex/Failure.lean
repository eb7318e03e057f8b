import RevisedSimplex.AlignedText

/-! # Failures

Why malformed data, an unusable basis or a run gives no verdict. The causes are data;
their wording is in one place.
-/

namespace RevisedSimplex

inductive DimensionFault
  | noRows
  | noVariables
  | rowLength (row length columns : Nat)
  | rightHandSide (length rows : Nat)
  | notFinite
  deriving DecidableEq, Repr

inductive BasisFault
  | size (indices rows : Nat)
  | outOfRange (column columns : Nat)
  | duplicates (basis : List Nat)
  | notPrimalFeasible (basis : List Nat)
  | notDualFeasible
  deriving DecidableEq, Repr

inductive NumericalFault (F : Type)
  /-- The artificial cost has no minimum. -/
  | artificialUnbounded
  | artificialNotBasic (column : Nat)
  | artificialWithoutPivot (column : Nat) (value : F)
  deriving DecidableEq, Repr

inductive Failure (F : Type)
  | dimension (fault : DimensionFault)
  | singularBasis (basis : List Nat)
  | invalidInitialBasis (fault : BasisFault)
  | iterationLimit (limit : Nat)
  | numerical (fault : NumericalFault F)
  /-- A run without a limit came back to a state and repeats itself for ever. -/
  | endless
  deriving DecidableEq, Repr

def DimensionFault.text : DimensionFault → String
  | .noRows => "at least one constraint row is required"
  | .noVariables => "at least one variable is required"
  | .rowLength row length columns =>
    s!"constraint row {row} has {length} values, but there are {columns} variables"
  | .rightHandSide length rows =>
    s!"right-hand side has {length} values, but there are {rows} constraint rows"
  | .notFinite => "all values should be finite"

def BasisFault.text : BasisFault → String
  | .size indices rows => s!"basis has {indices} indices, but there are {rows} rows"
  | .outOfRange column columns =>
    s!"column index {column} is out of range for {columns} variables"
  | .duplicates basis => s!"basis {indexList basis} contains duplicate indices"
  | .notPrimalFeasible basis => s!"basis {indexList basis} is not primal feasible"
  | .notDualFeasible => "initial basis is not dual feasible"

variable {F : Type} [NumberText F]

def NumericalFault.text : NumericalFault F → String
  | .artificialUnbounded => "artificial cost can not be unbounded"
  | .artificialNotBasic column => s!"artificial {column} left the basis"
  | .artificialWithoutPivot column value =>
    s!"artificial {column} remains basic at value {NumberText.plain value} without a positive pivot"

namespace Failure

inductive Kind
  | dimension | singularBasis | invalidInitialBasis | iterationLimit | numerical | endless
  deriving DecidableEq, Repr

def Kind.sentence (detail : String) : Kind → String
  | .dimension => "inconsistent problem dimensions: " ++ detail
  | .singularBasis => "basis matrix for columns " ++ detail ++ " is singular"
  | .invalidInitialBasis => "invalid initial basis: " ++ detail
  | .iterationLimit => "iteration limit of " ++ detail ++ " pivots reached"
  | .numerical => "numerical trouble: " ++ detail
  | .endless => "the run never ends" ++ detail

omit [NumberText F] in
def kind : Failure F → Kind
  | dimension _ => .dimension
  | singularBasis _ => .singularBasis
  | invalidInitialBasis _ => .invalidInitialBasis
  | iterationLimit _ => .iterationLimit
  | numerical _ => .numerical
  | endless => .endless

def detail : Failure F → String
  | dimension fault => fault.text
  | singularBasis basis => indexList basis
  | invalidInitialBasis fault => fault.text
  | iterationLimit limit => Nat.repr limit
  | numerical fault => fault.text
  | endless => ""

def message (e : Failure F) : String := e.kind.sentence e.detail

end Failure
end RevisedSimplex
