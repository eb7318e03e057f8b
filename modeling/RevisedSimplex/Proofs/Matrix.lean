import RevisedSimplex.Proofs.Loops
import RevisedSimplex.Basis.Evaluation
import RevisedSimplex.RowMatrix.Lemmas

/-! # Stored matrices over the rationals

Over the rationals the folds of the simplex method are sums. Each product of stored
matrices and coordinate lists is the product of the matrices and vectors they stand for.
-/

namespace RevisedSimplex

open Matrix

variable {m n k : ℕ}

theorem magnitude_eq_abs (x : ℚ) : magnitude x = |x| := by
  unfold magnitude
  split
  · rename_i h
    exact (abs_of_neg h).symm
  · rename_i h
    exact (abs_of_nonneg (not_lt.mp h)).symm

theorem get_injective {α : Type} : Function.Injective (Vector.get : Vector α n → Fin n → α) := by
  intro x y h
  apply Vector.ext
  intro i hi
  exact congrFun h ⟨i, hi⟩

theorem toList_eq_ofFn {α : Type} (x : Vector α n) : x.toList = List.ofFn x.get := by
  apply List.ext_getElem <;> simp [get_eq_getElem]

theorem dot_ofFn_eq_foldl {F : Type} [Scalar F] (x y : Fin n → F) :
    dot (List.ofFn x) (List.ofFn y) =
      (List.finRange n).foldl (fun total l => total + x l * y l) 0 := by
  have hproducts : List.zipWith (· * ·) (List.ofFn x) (List.ofFn y) =
      (List.finRange n).map fun l => x l * y l := by
    apply List.ext_getElem <;> simp
  rw [dot, hproducts, List.foldl_map]

theorem dot_ofFn (x y : Fin n → ℚ) : dot (List.ofFn x) (List.ofFn y) = x ⬝ᵥ y := by
  rw [dot_ofFn_eq_foldl]
  exact foldl_finRange_eq_sum fun l => x l * y l

theorem dot_toList (x y : Vector ℚ n) : dot x.toList y.toList = x.get ⬝ᵥ y.get := by
  rw [toList_eq_ofFn, toList_eq_ofFn, dot_ofFn]

namespace RowMatrix

def toMatrix {F : Type} (M : RowMatrix F m n) : Matrix (Fin m) (Fin n) F := .of M.get

@[simp] theorem toMatrix_apply {F : Type} (M : RowMatrix F m n) (i : Fin m) (j : Fin n) :
    M.toMatrix i j = M.get i j := rfl

theorem row_get_eq {F : Type} (M : RowMatrix F m n) (i : Fin m) :
    (M.row i).get = M.toMatrix i := rfl

theorem column_get_eq {F : Type} (M : RowMatrix F m n) (j : Fin n) :
    (M.column j).get = M.toMatrix.col j := by
  ext i
  simp

@[simp] theorem toMatrix_identity : (identity n : RowMatrix ℚ n n).toMatrix = 1 := by
  ext i j
  simp [Matrix.one_apply]

theorem toMatrix_selectColumns {F : Type} (M : RowMatrix F m n) (columns : Vector (Fin n) k) :
    (M.selectColumns columns).toMatrix = M.toMatrix.submatrix id columns.get := by
  ext i j
  simp

theorem toLists_eq_ofFn {F : Type} (M : RowMatrix F m n) :
    M.toLists = List.ofFn fun i => (M.row i).toList := by
  rw [toLists, toList_eq_ofFn, List.map_ofFn]
  rfl

@[simp] theorem length_toLists {F : Type} (M : RowMatrix F m n) : M.toLists.length = m := by
  simp [toLists]

theorem mulVec_get_eq (M : RowMatrix ℚ m n) (x : Vector ℚ n) :
    (M.mulVec x).get = M.toMatrix *ᵥ x.get := by
  ext i
  rw [mulVec_get, dot_toList, row_get_eq]
  rfl

private theorem combine_get (M : RowMatrix ℚ m n) (y : Vector ℚ m) (j : Fin n)
    (rows : List (Fin m)) (total : Vector ℚ n) :
    (rows.foldl (fun (total : Vector ℚ n) (i : Fin m) =>
      if y.get i == 0 then total else .zipWith (· + y.get i * ·) total (M.row i)) total).get j =
    rows.foldl (fun total i => total + y.get i * M.get i j) (total.get j) := by
  induction rows generalizing total with
  | nil => rfl
  | cons i rows ih =>
    rw [List.foldl_cons, List.foldl_cons, ih]
    congr 1
    split
    · rename_i h
      have hy : y.get i = 0 := by simpa using h
      simp [hy]
    · simp [get_eq_getElem, row, get]

theorem vecMul_get_eq (M : RowMatrix ℚ m n) (y : Vector ℚ m) :
    (M.vecMul y).get = y.get ᵥ* M.toMatrix := by
  ext j
  calc (M.vecMul y).get j
      = (List.finRange m).foldl (fun total i => total + y.get i * M.get i j) 0 := by
        rw [vecMul, combine_get, Vector.get_replicate]
    _ = ∑ i, y.get i * M.get i j := foldl_finRange_eq_sum _
    _ = (y.get ᵥ* M.toMatrix) j := rfl

theorem rowTimesColumn_eq (M : RowMatrix ℚ m n) (N : RowMatrix ℚ n k) (i : Fin m) (j : Fin k) :
    M.rowTimesColumn i N j = (M.toMatrix * N.toMatrix) i j := by
  rw [Matrix.mul_apply]
  exact foldl_finRange_eq_sum fun l => M.get i l * N.get l j

end RowMatrix
end RevisedSimplex
