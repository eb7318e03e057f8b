import RevisedSimplex.Failure
import RevisedSimplex.RowMatrix.Basic

/-! # Linear programs in standard form

Minimise `cost · x` over the `x ≥ 0` with `constraints x = rhs`.
-/

namespace RevisedSimplex

variable {F : Type} {m n : Nat}

structure Program (F : Type) (m n : Nat) where
  cost : Vector F n
  constraints : RowMatrix F m n
  rhs : Vector F m

def remainingRows (removed : List (Fin m)) : List (Fin m) :=
  (List.finRange m).filter (· ∉ removed)

namespace Program

/-- A program whose rows have one entry per cost and one right-hand side each. -/
def ofLists (cost : List F) (rows : List (List F)) (rhs : List F) :
    Except DimensionFault (Program F rows.length cost.length) :=
  match hr : rows.findFinIdx? (·.length != cost.length) with
  | some i => .error (.rowLength i (rows.get i).length cost.length)
  | none =>
    if hb : rhs.length = rows.length then
      .ok {
        cost := ⟨cost.toArray, rfl⟩
        constraints := .ofRows rows (by simpa using hr)
        rhs := ⟨rhs.toArray, hb⟩ }
    else .error (.rightHandSide rhs.length rows.length)

def withoutRows (P : Program F m n) (removed : List (Fin m)) :
    Program F (remainingRows removed).length n where
  cost := P.cost
  constraints := P.constraints.selectRows (remainingRows removed)
  rhs := .ofFn fun i => P.rhs.get ((remainingRows removed).get i)

def isFinite [Scalar F] (P : Program F m n) : Bool :=
  P.constraints.isFinite && P.cost.all Scalar.isFinite && P.rhs.all Scalar.isFinite

end Program
end RevisedSimplex
