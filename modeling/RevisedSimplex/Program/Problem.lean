import RevisedSimplex.Program.Basic

/-! # Problems

A linear program in equality form with a direction of optimisation. The data of a
problem are finite, and there is at least one row and one variable.
-/

namespace RevisedSimplex

inductive Objective
  | minimize
  | maximize
  deriving DecidableEq, Repr, Inhabited

variable {F : Type} [Scalar F]

/-- The factor between this direction and minimisation. -/
def Objective.sign : Objective → F
  | .minimize => 1
  | .maximize => -1

/-- Optimise `program.cost · x` over the `x ≥ 0` with `program.constraints x = program.rhs`. -/
structure Problem (F : Type) [Scalar F] where
  {rows columns : Nat}
  objective : Objective
  program : Program F rows columns
  rows_pos : 0 < rows
  columns_pos : 0 < columns
  isFinite : program.isFinite

namespace Problem

/-- Of several faults the first in this order is reported: no rows, no variables, a row of wrong
length, a right-hand side of wrong length, a value that is not finite. -/
def ofLists (objective : Objective) (cost : List F) (rows : List (List F)) (rhs : List F) :
    Except DimensionFault (Problem F) :=
  if hm : 0 < rows.length then
    if hn : 0 < cost.length then
      (Program.ofLists cost rows rhs).bind fun program =>
        if hf : program.isFinite then .ok ⟨objective, program, hm, hn, hf⟩
        else .error .notFinite
    else .error .noVariables
  else .error .noRows

def withSlacks (rows : List (List F)) : List (List F) :=
  rows.mapIdx fun i row => row ++ (List.range rows.length).map fun k => if k = i then 1 else 0

/-- The problem with `rows x ≤ rhs`. Each row gets a slack variable, which costs nothing. -/
def ofInequalities (objective : Objective) (cost : List F) (rows : List (List F))
    (rhs : List F) : Except DimensionFault (Problem F) :=
  ofLists objective (cost ++ List.replicate rows.length 0) (withSlacks rows) rhs

/-- The minimisation with the same optimal points. -/
def standardForm (p : Problem F) : Program F p.rows p.columns :=
  match p.objective with
  | .minimize => p.program
  | .maximize => { p.program with cost := p.program.cost.map (-·) }

end Problem
end RevisedSimplex
