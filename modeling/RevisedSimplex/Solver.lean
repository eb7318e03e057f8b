import RevisedSimplex.Program.Problem
import RevisedSimplex.Run.Feasibility

/-! # Solver

The primal method from a given basis or from one that phase one finds, and the dual
method from a given basis. The final tableau is expressed in terms of the problem.
-/

namespace RevisedSimplex

variable {F : Type} [Scalar F]

/-- Inserts a zero at each of the listed positions in turn. -/
def insertZeros (positions : List Nat) (values : List F) : List F :=
  positions.foldl (fun values i => values.insertIdx i 0) values

namespace Problem

def verdict {m : Nat} (p : Problem F) (status : Status) (t : Tableau F m p.columns)
    (removed : List Nat) : Verdict F :=
  match status with
  | .optimal => .optimal {
      objective := p.objective.sign * t.objective
      point := t.point.toList
      basis := t.basis.indices
      shadowPrice := insertZeros removed (t.shadowPrice.toList.map (p.objective.sign * ·))
      removedRows := removed }
  | .unbounded => .unbounded
  | .infeasible => .infeasible

/-- Phase two, after phase one made `before` pivots. -/
def optimize {m : Nat} (p : Problem F) (options : Options F) (t : Tableau F m p.columns)
    (removed : List Nat) (before : Nat) : Run F (Solution F) := do
  let stop ← t.primal .two options
  return {
    verdict := p.verdict stop.status stop.tableau removed
    pivots := fun
      | .one => before
      | .two => stop.pivots
      | .dual => 0 }

def solveFrom (p : Problem F) (options : Options F) (basis : List Nat) : Run F (Solution F) := do
  let t ← Run.ofExcept (Tableau.ofIndices p.standardForm basis options.tolerance 0)
  if t.isPrimalFeasible then
    Run.emit (.givenBasis basis)
    p.optimize options t [] 0
  else Run.fail (.invalidInitialBasis (.notPrimalFeasible basis))

def solveTwoPhase (p : Problem F) (options : Options F) : Run F (Solution F) := do
  match ← p.standardForm.feasibility options with
  | (.infeasible, pivots) =>
    return {
      verdict := .infeasible
      pivots := fun
        | .one => pivots
        | _ => 0 }
  | (.feasible basis redundant, pivots) =>
    let removed := redundant.map Fin.val
    unless removed.isEmpty do Run.emit (.removedRows removed)
    let remaining := p.standardForm.withoutRows redundant
    let t ← Run.ofExcept (Tableau.ofIndices remaining basis options.tolerance 0)
    p.optimize options t removed pivots

/-- The primal method from the given basis or, if none is given, in two phases. -/
def solve (p : Problem F) (options : Options F) (basis : Option (List Nat)) :
    Run F (Solution F) := do
  Run.emit (.opening .primal p.rows p.columns)
  match basis with
  | some basis => p.solveFrom options basis
  | none => p.solveTwoPhase options

/-- The dual method from the given basis. -/
def solveDual (p : Problem F) (options : Options F) (basis : List Nat) : Run F (Solution F) := do
  Run.emit (.opening .dual p.rows p.columns)
  let t ← Run.ofExcept (Tableau.ofIndices p.standardForm basis options.tolerance 0)
  let stop ← t.dual options
  return {
    verdict := p.verdict stop.status stop.tableau []
    pivots := fun
      | .dual => stop.pivots
      | _ => 0 }

end Problem
end RevisedSimplex
