import Mathlib.Data.Finset.Basic
import RevisedSimplex.Tableau.Basic

/-! # Tableaux that change in place

A workspace keeps its basic columns twice, by row and as a set in which members are looked up,
and beside them the evaluation that follows from them. An exchange rewrites the three one after
the other.
-/

namespace RevisedSimplex

variable {F : Type} {m n : Nat}

/-- A tableau with the set of its basic columns. -/
structure Workspace (F : Type) (m n : Nat) extends Tableau F m n where
  columns : Finset (Fin n)

namespace Workspace

/-- A change of a workspace that may fail. What was written before a failure stays. -/
abbrev Update (F : Type) (m n : Nat) (α : Type) :=
  ExceptT (Failure F) (StateM (Workspace F m n)) α

def Update.perform {α : Type} (u : Update F m n α) (w : Workspace F m n) :
    Except (Failure F) α × Workspace F m n :=
  u.run w

def isBasic (w : Workspace F m n) (j : Fin n) : Bool := j ∈ w.columns

variable [Scalar F]

def ofIndices (program : Program F m n) (indices : List Nat) (tolerance : F)
    (artificial : Nat) : Except (Failure F) (Workspace F m n) :=
  (Tableau.ofIndices program indices tolerance artificial).map fun t =>
    { t with columns := t.basis.toList.toFinset }

/-- Makes column `j` basic in row `i` and answers with the column that was basic there. -/
def exchange (i : Fin m) (j : Fin n) : Update F m n (Fin n) := do
  let w ← get
  let leaving := w.basis.get i
  let basis : Basis m n := w.basis.set i j i.isLt
  match w.program.evaluate? basis w.tolerance with
  | some evaluation =>
    modify fun w => { w with evaluation }
    modify fun w => { w with basis }
    modify fun w => { w with columns := insert j (w.columns.erase leaving) }
    return leaving
  | none => throw (.singularBasis basis.indices)

end Workspace
end RevisedSimplex
