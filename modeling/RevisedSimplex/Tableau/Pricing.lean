import RevisedSimplex.Options
import RevisedSimplex.Tableau.Basic

/-! # Pricing

The column that enters the basis. Every rule takes it from the nonbasic candidates
whose relative cost is above the tolerance, and finds none exactly when there is none.
-/

namespace RevisedSimplex

variable {F : Type} [Scalar F] {m n : Nat}

abbrev Priced (F : Type) (n : Nat) := Fin n × F

/-- What a rule in use remembers: the column that it chose last, nothing at the start. -/
structure Memory where
  last : Option Nat := none
  deriving DecidableEq, Repr

def Memory.column? (memory : Memory) (n : Nat) : Option (Fin n) :=
  memory.last.bind fun last => if h : last < n then some ⟨last, h⟩ else none

namespace Tableau

/-- The profitable ones of the given columns. -/
def profitable (t : Tableau F m n) (columns : List (Fin n)) : List (Priced F n) :=
  ((columns.filter fun j => !t.isBasic j).map fun j => (j, t.relativeCost j)).filter
    fun (_, cost) => t.tolerance < cost

def largestCost (columns : List (Priced F n)) : Option (Priced F n) :=
  columns.foldl
    (fun best column => match best with
      | some (_, cost) => if column.2 ≤ cost then best else some column
      | none => some column)
    none

/-- The first profitable column in the cyclic order that starts after `last`. -/
def profitableAfter (t : Tableau F m n) (last : Fin n) : Option (Priced F n) :=
  (t.profitable (t.candidates.filter (last < ·))).head? <|>
    (t.profitable (t.candidates.filter (· ≤ last))).head?

/-- The column that enters, where `last` is the column that the rule chose before. Only the rule
with memory looks at it. -/
def enteringColumn (t : Tableau F m n) (rule : EnteringRule) (last : Option (Fin n)) :
    Option (Priced F n) :=
  match rule with
  | .dantzig => largestCost (t.profitable t.candidates)
  | .firstProfitable => (t.profitable t.candidates).head?
  | .firstProfitableWithMemory =>
    match last with
    | none => (t.profitable t.candidates).head?
    | some last => t.profitableAfter last

def select (t : Tableau F m n) (rule : EnteringRule) (memory : Memory) :
    Option (Priced F n) × Memory :=
  let choice := t.enteringColumn rule (memory.column? n)
  match rule with
  | .firstProfitableWithMemory => (choice, ⟨choice.map (·.1.val)⟩)
  | _ => (choice, memory)

end Tableau
end RevisedSimplex
