/-! # Options

Tolerances, pivot rules and the limit of a solve.
-/

namespace RevisedSimplex

/-- How the column that enters the basis is chosen among the profitable ones. -/
inductive EnteringRule
  /-- The largest relative cost. -/
  | dantzig
  | firstProfitable
  /-- The first one after the column that entered last, from the start again after the end. -/
  | firstProfitableWithMemory
  deriving DecidableEq, Repr

/-- How the row that leaves the basis is chosen among those with the minimal ratio. -/
inductive LeavingRule
  /-- By the ratios of the tableau columns in turn. -/
  | lexicographic
  /-- The row with the smallest basic column. -/
  | smallestIndex
  | firstMinimum
  deriving DecidableEq, Repr

structure Options (F : Type) where
  /-- What lies this close to zero counts as zero. -/
  tolerance : F
  /-- The artificial cost up to which a program counts as feasible. -/
  feasibilityTolerance : F
  entering : EnteringRule := .dantzig
  leaving : LeavingRule := .lexicographic
  /-- The number of pivots that each phase may use. -/
  iterationLimit : Option Nat := none

def Options.standard {F : Type} [OfScientific F] : Options F where
  tolerance := 1e-9
  feasibilityTolerance := 1e-6

end RevisedSimplex
