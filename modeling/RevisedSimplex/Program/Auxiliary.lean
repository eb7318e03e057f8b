import RevisedSimplex.Basis
import RevisedSimplex.Program.Basic

/-! # Auxiliary programs

Every row of a program gets an artificial variable of cost one, and the costs of the
program are dropped. The artificial variables form a feasible basis, and the least
cost is zero exactly when the program is feasible.
-/

namespace RevisedSimplex

variable {F : Type} [Scalar F] {m n : Nat}

def artificialColumn (n : Nat) (i : Fin m) : Fin (n + m) := i.natAdd n

namespace Program

/-- The rows with a negative right-hand side change their sign. -/
def signed (P : Program F m n) : Program F m n where
  cost := P.cost
  constraints := ⟨.ofFn fun i =>
    if P.rhs.get i < 0 then (P.constraints.row i).map (· * -1) else P.constraints.row i⟩
  rhs := P.rhs.map magnitude

def auxiliary (P : Program F m n) : Program F m (n + m) where
  cost := Vector.replicate n (0 : F) ++ Vector.replicate m (1 : F)
  constraints := P.signed.constraints.beside (.identity m)
  rhs := P.signed.rhs

end Program

def artificialBasis (m n : Nat) : Basis m (n + m) := .ofFn (artificialColumn n)

end RevisedSimplex
