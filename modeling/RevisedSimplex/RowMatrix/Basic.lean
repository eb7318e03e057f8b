import RevisedSimplex.Coordinates

/-! # Matrices stored by rows

Entries are evaluated once and stored. The row operations are those of elimination,
the products those of the simplex method.
-/

namespace RevisedSimplex

variable {F : Type} {m n k : Nat}

structure RowMatrix (F : Type) (m n : Nat) where
  rows : Vector (Vector F n) m

namespace RowMatrix

def get (M : RowMatrix F m n) (i : Fin m) (j : Fin n) : F := (M.rows.get i).get j

def row (M : RowMatrix F m n) (i : Fin m) : Vector F n := M.rows.get i

def column (M : RowMatrix F m n) (j : Fin n) : Vector F m := M.rows.map (·.get j)

def toLists (M : RowMatrix F m n) : List (List F) := M.rows.toList.map (·.toList)

def ofFn (f : Fin m → Fin n → F) : RowMatrix F m n :=
  ⟨.ofFn fun i => .ofFn (f i)⟩

def ofRows (rows : List (List F)) (h : ∀ row ∈ rows, row.length = n) :
    RowMatrix F rows.length n :=
  ⟨.ofFn fun i => ⟨(rows.get i).toArray, h _ (rows.get_mem i)⟩⟩

def selectColumns (M : RowMatrix F m n) (columns : Vector (Fin n) k) : RowMatrix F m k :=
  ⟨M.rows.map fun row => columns.map row.get⟩

def selectRows (M : RowMatrix F m n) (rows : List (Fin m)) : RowMatrix F rows.length n :=
  ⟨.ofFn fun i => M.row (rows.get i)⟩

def beside (M : RowMatrix F m n) (N : RowMatrix F m k) : RowMatrix F m (n + k) :=
  ⟨.zipWith (· ++ ·) M.rows N.rows⟩

def swapRows (M : RowMatrix F m n) (i k : Fin m) : RowMatrix F m n := ⟨M.rows.swap i k i.isLt k.isLt⟩

variable [Scalar F]

def zero (m n : Nat) : RowMatrix F m n := ofFn fun _ _ => 0

def identity (n : Nat) : RowMatrix F n n := ofFn fun i j => if i = j then 1 else 0

def scaleRow (M : RowMatrix F m n) (i : Fin m) (factor : F) : RowMatrix F m n :=
  ⟨M.rows.set i ((M.row i).map (· * factor)) i.isLt⟩

def addScaledRow (M : RowMatrix F m n) (source target : Fin m) (factor : F) :
    RowMatrix F m n :=
  ⟨M.rows.set target (.zipWith (· + factor * ·) (M.row target) (M.row source)) target.isLt⟩

def mulVec (M : RowMatrix F m n) (x : Vector F n) : Vector F m :=
  M.rows.map fun row => dot row.toList x.toList

/-- The combination of the rows with the coefficients `y`. A row with coefficient zero takes no
part, whatever its entries are. -/
def vecMul (M : RowMatrix F m n) (y : Vector F m) : Vector F n :=
  (List.finRange m).foldl
    (fun (total : Vector F n) (i : Fin m) =>
      if y.get i == 0 then total else .zipWith (· + y.get i * ·) total (M.row i))
    (.replicate n 0)

/-- Entry `(i, j)` of the product with `N`, read off in place. -/
def rowTimesColumn (M : RowMatrix F m n) (i : Fin m) (N : RowMatrix F n k) (j : Fin k) : F :=
  (List.finRange n).foldl (fun total l => total + M.get i l * N.get l j) 0

def isFinite (M : RowMatrix F m n) : Bool := M.rows.all fun row => row.all Scalar.isFinite

def agrees {m' n' : Nat} (M : RowMatrix F m n) (N : RowMatrix F m' n') : Bool :=
  m == m' && n == n' && M.toLists == N.toLists

end RowMatrix
end RevisedSimplex
