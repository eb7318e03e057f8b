import RevisedSimplex.Basis
import RevisedSimplex.Program.Basic
import RevisedSimplex.RowMatrix.Inverse

/-! # Evaluation of a basis

The inverse of the basis matrix with the basic values and the shadow prices, always
computed from the program, and the tableau that follows from them.
-/

namespace RevisedSimplex

variable {F : Type} {m n : Nat}

structure Evaluation (F : Type) (m : Nat) where
  /-- The inverse `B⁻¹` of the basis matrix. -/
  inverse : RowMatrix F m m
  /-- The values `B⁻¹ b` of the basic variables, by row. -/
  basicValues : Vector F m
  /-- The prices `c_B B⁻¹` of the rows. -/
  shadowPrice : Vector F m

namespace Program

variable [Scalar F]

def basicCosts (P : Program F m n) (basis : Basis m n) : Vector F m := basis.map P.cost.get

/-- The evaluation, or nothing if the basis matrix is singular up to the tolerance. -/
def evaluate? (P : Program F m n) (basis : Basis m n) (tolerance : F) :
    Option (Evaluation F m) :=
  ((P.constraints.selectColumns basis).inverse? tolerance).map fun inverse =>
    { inverse
      basicValues := inverse.mulVec P.rhs
      shadowPrice := inverse.vecMul (P.basicCosts basis) }

/-- The value of column `j` at the given prices less its cost. -/
def reducedCost (P : Program F m n) (price : Vector F m) (j : Fin n) : F :=
  dot price.toList (P.constraints.column j).toList - P.cost.get j

def objective (P : Program F m n) (basis : Basis m n) (values : Vector F m) : F :=
  dot (P.basicCosts basis).toList values.toList

def basicPoint (basis : Basis m n) (values : Vector F m) : Vector F n :=
  (List.finRange m).foldl
    (fun (x : Vector F n) (i : Fin m) => x.set (basis.get i) (values.get i)) (.replicate n 0)

/-- The tableau column `B⁻¹ A_j`. -/
def tableauColumn (P : Program F m n) (inverse : RowMatrix F m m) (j : Fin n) : Vector F m :=
  inverse.mulVec (P.constraints.column j)

def tableauElement (P : Program F m n) (inverse : RowMatrix F m m) (i : Fin m) (j : Fin n) : F :=
  inverse.rowTimesColumn i P.constraints j

/-- The element in column `j` of the tableau row that belongs to a row of `B⁻¹`. -/
def rowElement (P : Program F m n) (inverseRow : List F) (j : Fin n) : F :=
  dot inverseRow ((List.finRange m).map fun i => P.constraints.get i j)

end Program
end RevisedSimplex
