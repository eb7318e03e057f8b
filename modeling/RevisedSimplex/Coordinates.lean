import RevisedSimplex.Scalar

/-! # Coordinate lists

Inner product, negation and sign of a list of coordinates. Sums start at zero and
run from the left, which fixes their value where addition is not associative.
-/

namespace RevisedSimplex

variable {F : Type} [Scalar F]

/-- The sum from the left of the products of coordinates; surplus coordinates of the longer
list count for nothing. -/
def dot (x y : List F) : F := (List.zipWith (· * ·) x y).foldl (· + ·) 0

def negated (x : List F) : List F := x.map (-·)

def isNonnegative (tolerance : F) (x : List F) : Bool := x.all fun v => -tolerance ≤ v

end RevisedSimplex
