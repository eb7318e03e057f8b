import RevisedSimplex.Run.Basic
import RevisedSimplex.Solution
import RevisedSimplex.Tableau.Pricing
import RevisedSimplex.Tableau.Ratio

/-! # Pivoting

The iteration that the primal and the dual method share. Both visit a tableau, and
either stop there or exchange one column of the basis.
-/

namespace RevisedSimplex

variable {F : Type} {m n : Nat}

inductive Move (F : Type) (m n : Nat)
  | optimal
  | unbounded (column : Fin n)
  | infeasible (row : Fin m)
  | pivot (row : Fin m) (column : Fin n) (cost : F)

/-- The last tableau of a phase, why the phase stopped there, and its number of pivots. -/
structure Stop (F : Type) (m n : Nat) where
  status : Status
  tableau : Tableau F m n
  pivots : Nat

/-- The number of states of an iteration, which is a basis with the column that entered last. An
iteration that uses so many pivots and wants another one has been in some state twice. -/
def stateCount (m n : Nat) : Nat := Nat.pow n m * (n + 1)

def allowance (limit : Option Nat) (m n : Nat) : Nat := limit.getD (stateCount m n)

def outOfPivots : Option Nat → Failure F
  | some limit => .iterationLimit limit
  | none => .endless

variable [Scalar F]

namespace Tableau

def primalMove (options : Options F) (last : Option (Fin n)) (t : Tableau F m n) : Move F m n :=
  match t.enteringColumn options.entering last with
  | none => .optimal
  | some (j, cost) =>
    match t.leavingRow options.leaving (t.column j) with
    | none => .unbounded j
    | some i => .pivot i j cost

def dualMove (t : Tableau F m n) : Move F m n :=
  match t.dualLeavingRow with
  | none => .optimal
  | some i =>
    match t.dualEnteringColumn i with
    | none => .infeasible i
    | some j => .pivot i j (t.relativeCost j)

/-- The iteration from a tableau that was reached by `iteration` pivots, the last of which brought
in the column `last`. -/
def iterate (phase : Phase) (limit : Option Nat)
    (move : Option (Fin n) → Tableau F m n → Move F m n) :
    (remaining iteration : Nat) → Option (Fin n) → Tableau F m n → Run F (Stop F m n)
  | remaining, iteration, last, t => do
    Run.emit (.visit phase iteration t)
    match move last t with
    | .optimal => return ⟨.optimal, t, iteration⟩
    | .unbounded j =>
      Run.emit (.unboundedDirection phase j)
      return ⟨.unbounded, t, iteration⟩
    | .infeasible i =>
      Run.emit (.infeasibleRow phase i)
      return ⟨.infeasible, t, iteration⟩
    | .pivot i j cost =>
      match remaining with
      | 0 => Run.fail (outOfPivots limit)
      | remaining + 1 =>
        let next ← Run.ofExcept (t.pivot i j)
        Run.emit (.pivot phase j i (t.basis.get i) cost)
        iterate phase limit move remaining (iteration + 1) (some j) next

def primal (t : Tableau F m n) (phase : Phase) (options : Options F) : Run F (Stop F m n) :=
  t.iterate phase options.iterationLimit (primalMove options)
    (allowance options.iterationLimit m n) 0 none

/-- The dual method, which refuses a tableau with a relative cost above the tolerance. -/
def dual (t : Tableau F m n) (options : Options F) : Run F (Stop F m n) :=
  if t.isDualFeasible then
    t.iterate .dual options.iterationLimit (fun _ => dualMove)
      (allowance options.iterationLimit m n) 0 none
  else Run.fail (.invalidInitialBasis .notDualFeasible)

end Tableau
end RevisedSimplex
