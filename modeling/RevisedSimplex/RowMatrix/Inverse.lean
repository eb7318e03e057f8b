import RevisedSimplex.RowMatrix.Basic

/-! # Inversion

Gauss-Jordan elimination with partial pivoting. The operations that reduce the
matrix to the identity turn the identity into the inverse.
-/

namespace RevisedSimplex

variable {F : Type} [Scalar F] {n : Nat}

namespace RowMatrix

/-- The row from `k` on with the greatest magnitude in column `k`, the last one if several tie. -/
def pivotRow (M : RowMatrix F n n) (k : Fin n) : Fin n :=
  ((List.finRange n).filter (k < ·)).foldl
    (fun best i => if magnitude (M.get i k) < magnitude (M.get best k) then best else i) k

/-- Subtracts from every other row its multiple of row `k`. A row whose multiple is zero stays
as it is. -/
def clear (M : RowMatrix F n n) (k : Fin n) (multiples : Vector F n) : RowMatrix F n n :=
  ⟨.ofFn fun i =>
    if i = k ∨ multiples.get i == 0 then M.row i
    else .zipWith (· + -multiples.get i * ·) (M.row i) (M.row k)⟩

end RowMatrix

structure Reduction (F : Type) (n : Nat) where
  matrix : RowMatrix F n n
  operations : RowMatrix F n n

namespace Reduction

def start (M : RowMatrix F n n) : Reduction F n := ⟨M, .identity n⟩

def apply (r : Reduction F n) (f : RowMatrix F n n → RowMatrix F n n) : Reduction F n :=
  ⟨f r.matrix, f r.operations⟩

def step (tolerance : F) (r : Reduction F n) (k : Fin n) : Option (Reduction F n) :=
  let p := r.matrix.pivotRow k
  let pivot := r.matrix.get p k
  if magnitude pivot ≤ tolerance || !Scalar.isFinite pivot then none
  else
    let scaled := (r.apply (·.swapRows k p)).apply (·.scaleRow k (1 / pivot))
    some (scaled.apply (·.clear k (scaled.matrix.column k)))

end Reduction

/-- The inverse, or nothing if some pivot does not exceed the tolerance. -/
def RowMatrix.inverse? (M : RowMatrix F n n) (tolerance : F) : Option (RowMatrix F n n) :=
  ((List.finRange n).foldlM (Reduction.step tolerance) (.start M)).map (·.operations)

end RevisedSimplex
