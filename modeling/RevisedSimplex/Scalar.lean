/-! # Scalars

The number operations that the simplex method uses, with no law attached. Binary
floating-point numbers and exact rationals are scalars alike; a theorem that needs
a law of arithmetic asks for it.
-/

namespace RevisedSimplex

class Scalar (F : Type) extends Zero F, One F, Add F, Sub F, Mul F, Div F, Neg F, BEq F,
    LE F, LT F where
  [decidableLE : DecidableLE F]
  [decidableLT : DecidableLT F]
  /-- Neither infinite nor the outcome of an undefined operation. -/
  isFinite : F → Bool

attribute [reducible, instance] Scalar.decidableLE Scalar.decidableLT

instance : Scalar Float where
  isFinite := Float.isFinite

instance : Scalar Float32 where
  isFinite := Float32.isFinite

/-- Every rational number is finite. -/
instance : Scalar Rat where
  toZero := ⟨0⟩
  toOne := ⟨1⟩
  isFinite _ := true

variable {F : Type} [Scalar F]

/-- The absolute value. A value that is not below zero is its own magnitude. -/
def magnitude (x : F) : F := if x < 0 then -x else x

end RevisedSimplex
