import RevisedSimplex.Tableau.Basic

/-! # Events of a run

What a run reports while it goes on, and the snapshots among the reports.
-/

namespace RevisedSimplex

inductive Phase
  | one
  | two
  | dual
  deriving DecidableEq, Repr

inductive Method
  | primal
  | dual
  deriving DecidableEq, Repr

inductive Event (F : Type)
  | opening (method : Method) (rows columns : Nat)
  /-- The tableau at the start of an iteration, after `iteration` pivots of the phase. -/
  | visit {m n : Nat} (phase : Phase) (iteration : Nat) (tableau : Tableau F m n)
  /-- A pivot of a phase: `entering` takes the place of `leaving`, which was basic in `row`. -/
  | pivot (phase : Phase) (entering row leaving : Nat) (cost : F)
  | unboundedDirection (phase : Phase) (column : Nat)
  /-- No element of the row is negative although its basic value is. -/
  | infeasibleRow (phase : Phase) (row : Nat)
  /-- The basis makes a search for a feasible one unnecessary. -/
  | givenBasis (basis : List Nat)
  /-- The artificial cost that remains shows that the program is infeasible. -/
  | artificialCost (cost : F)
  | exchange (artificial : Nat) (value : F) (column : Nat)
  | redundantRow (artificial row : Nat)
  | removedRows (rows : List Nat)

/-- The state of a run at the start of an iteration, in terms of the minimisation that is being
solved. -/
structure Snapshot (F : Type) where
  phase : Phase
  iteration : Nat
  basis : List Nat
  shadowPrice : List F
  reducedCosts : List F
  objective : F
  solution : List F

variable {F : Type} [Scalar F]

def Tableau.snapshot {m n : Nat} (t : Tableau F m n) (phase : Phase) (iteration : Nat) :
    Snapshot F where
  phase
  iteration
  basis := t.basis.indices
  shadowPrice := t.shadowPrice.toList
  reducedCosts := t.reducedCosts.toList
  objective := t.objective
  solution := t.point.toList

def Event.snapshot? : Event F → Option (Snapshot F)
  | visit phase iteration t => some (t.snapshot phase iteration)
  | _ => none

end RevisedSimplex
