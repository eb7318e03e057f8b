import RevisedSimplex.Run.Event

/-! # Solutions

The verdict of a solve with the number of pivots in each phase. An optimum is
expressed in the direction and the rows of the problem.
-/

namespace RevisedSimplex

inductive Status
  | optimal
  | unbounded
  | infeasible
  deriving DecidableEq, Repr

def Status.text : Status → String
  | optimal => "OPTIMAL"
  | unbounded => "UNBOUNDED"
  | infeasible => "INFEASIBLE"

structure Optimum (F : Type) where
  objective : F
  point : List F
  /-- The basic column of each row that was not removed. -/
  basis : List Nat
  /-- The price of each row, zero for the removed ones. -/
  shadowPrice : List F
  removedRows : List Nat

inductive Verdict (F : Type)
  | optimal (optimum : Optimum F)
  | unbounded
  | infeasible

structure Solution (F : Type) where
  verdict : Verdict F
  pivots : Phase → Nat

variable {F : Type}

def Verdict.status : Verdict F → Status
  | optimal _ => .optimal
  | unbounded => .unbounded
  | infeasible => .infeasible

def Verdict.optimum? : Verdict F → Option (Optimum F)
  | optimal optimum => some optimum
  | _ => none

def Solution.totalPivots (s : Solution F) : Nat := s.pivots .one + s.pivots .two + s.pivots .dual

end RevisedSimplex
