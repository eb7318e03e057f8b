import RevisedSimplex.Program.Auxiliary
import RevisedSimplex.Run.Pivoting

/-! # Search for a feasible basis

Minimises the artificial cost of the auxiliary program. Artificial variables that
remain basic are exchanged for structural ones; a row where this is impossible
depends on the others.
-/

namespace RevisedSimplex

variable {F : Type} [Scalar F] {m n : Nat}

/-- A tableau of an auxiliary program with the rows that were found to be redundant. -/
structure Repair (F : Type) (m n : Nat) where
  tableau : Tableau F m (n + m)
  redundant : List (Fin m)

namespace Repair

def basicArtificials (t : Tableau F m (n + m)) : List (Fin m) :=
  (List.finRange m).filter fun i => t.isBasic (artificialColumn n i)

def pivots (t : Tableau F m (n + m)) (r : Fin m) : List (Priced F (n + m)) :=
  (t.nonbasicCandidates.map fun j => (j, t.element r j)).filter fun (_, element) =>
    t.tolerance < magnitude element

/-- Exchanges the artificial variable of row `i` or finds that row redundant. At zero level any
nonzero element will do; above it the element must be positive, or the variable that enters would
become negative. -/
def step (s : Repair F m n) (i : Fin m) : Run F (Repair F m n) := do
  let t := s.tableau
  let artificial := artificialColumn n i
  match t.basis.finIdxOf? artificial with
  | none => Run.fail (.numerical (.artificialNotBasic artificial))
  | some r =>
    let value := t.basicValues.get r
    let elements := pivots t r
    let choice :=
      if value ≤ t.tolerance then elements.head?
      else elements.find? fun (_, element) => 0 < element
    match choice with
    | some (j, _) =>
      Run.emit (.exchange artificial value j)
      let next ← Run.ofExcept (t.pivot r j)
      return { s with tableau := next }
    | none =>
      if elements.isEmpty then
        Run.emit (.redundantRow artificial i)
        return { s with redundant := s.redundant ++ [i] }
      else Run.fail (.numerical (.artificialWithoutPivot artificial value))

def ofTableau (t : Tableau F m (n + m)) : Run F (Repair F m n) :=
  (basicArtificials t).foldlM step ⟨t, []⟩

def structuralBasis (s : Repair F m n) : List Nat :=
  s.tableau.basis.indices.filter (· < n)

end Repair

/-- A basis for the rows that are not redundant, unless the program is infeasible. -/
inductive Feasibility (m : Nat)
  | infeasible
  | feasible (basis : List Nat) (redundant : List (Fin m))

/-- Phase one with its number of pivots. -/
def Program.feasibility (P : Program F m n) (options : Options F) :
    Run F (Feasibility m × Nat) := do
  let start ← Run.ofExcept (Tableau.ofBasis P.auxiliary (artificialBasis m n) options.tolerance m)
  let stop ← start.primal .one options
  if stop.status ≠ .optimal then Run.fail (.numerical .artificialUnbounded)
  else if options.feasibilityTolerance < stop.tableau.objective then
    Run.emit (.artificialCost stop.tableau.objective)
    return (.infeasible, stop.pivots)
  else
    let repair ← Repair.ofTableau stop.tableau
    return (.feasible repair.structuralBasis repair.redundant, stop.pivots)

end RevisedSimplex
