import RevisedSimplex.Run.Event
import RevisedSimplex.Tableau.Text

/-! # Log of a run

The messages of the events. The rendering of a tableau is a message of the more
detailed level.
-/

namespace RevisedSimplex

inductive LogLevel
  | debug
  | trace
  deriving DecidableEq, Repr

structure LogRecord where
  level : LogLevel
  message : String
  deriving DecidableEq, Repr

def Phase.text : Phase → String
  | one => "phase one"
  | two => "phase two"
  | dual => "dual"

namespace Event

variable {F : Type} [Scalar F] [NumberText F]

def pivotText (phase : Phase) (entering row leaving : Nat) (cost : F) : String :=
  match phase with
  | .dual => s!"{phase.text}: column {leaving} leaves from row {row}, column {entering} enters"
  | _ =>
    s!"{phase.text}: column {entering} (relative cost {NumberText.plain cost}) enters in row " ++
      s!"{row}, column {leaving} leaves"

def message : Event F → String
  | opening .primal rows columns =>
    s!"Solving a problem with {rows} rows and {columns} columns"
  | opening .dual rows columns =>
    s!"Solving a problem with {rows} rows and {columns} columns using the dual method"
  | visit phase iteration t =>
    s!"{phase.text} iteration {iteration}: basis {indexList t.basis.indices}, " ++
      s!"objective {NumberText.plain t.objective}"
  | pivot phase entering row leaving cost => pivotText phase entering row leaving cost
  | unboundedDirection phase column => s!"{phase.text}: column {column} is an unbounded direction"
  | infeasibleRow phase row =>
    s!"{phase.text}: row {row} has no negative value, primal infeasible"
  | givenBasis basis => s!"Skipping phase one, starting from basis {indexList basis}"
  | artificialCost cost =>
    s!"Phase one ended with artificial cost {NumberText.plain cost}, infeasible"
  | exchange artificial value column =>
    s!"Exchanging artificial {artificial} at value {NumberText.plain value} for column {column}"
  | redundantRow artificial row =>
    s!"Artificial {artificial} can't be exchanged, row {row} is redundant"
  | removedRows rows => s!"Removing redundant rows {indexList rows}"

def records (e : Event F) : List LogRecord :=
  ⟨.debug, e.message⟩ ::
    match e with
    | visit _ _ t => [⟨.trace, t.text⟩]
    | _ => []

end Event
end RevisedSimplex
