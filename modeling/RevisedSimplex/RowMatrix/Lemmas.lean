import RevisedSimplex.RowMatrix.Inverse

/-! # Entries of matrices

A matrix is determined by its entries. For each operation, the entries of its result.
-/

namespace RevisedSimplex

variable {F : Type} {m n k : Nat}

theorem get_eq_getElem {α : Type} (x : Vector α n) (i : Fin n) : x.get i = x[i] := rfl

namespace RowMatrix

theorem ext_get {M N : RowMatrix F m n} (h : ∀ i j, M.get i j = N.get i j) : M = N := by
  obtain ⟨M⟩ := M
  obtain ⟨N⟩ := N
  congr 1
  apply Vector.ext
  intro i hi
  apply Vector.ext
  intro j hj
  exact h ⟨i, hi⟩ ⟨j, hj⟩

@[simp] theorem row_get (M : RowMatrix F m n) (i : Fin m) (j : Fin n) :
    (M.row i).get j = M.get i j := rfl

@[simp] theorem column_get (M : RowMatrix F m n) (j : Fin n) (i : Fin m) :
    (M.column j).get i = M.get i j := by
  simp [column, get, get_eq_getElem]

@[simp] theorem get_ofFn (f : Fin m → Fin n → F) (i : Fin m) (j : Fin n) :
    (ofFn f).get i j = f i j := by
  simp [ofFn, get, get_eq_getElem]

@[simp] theorem get_selectColumns (M : RowMatrix F m n) (columns : Vector (Fin n) k)
    (i : Fin m) (j : Fin k) : (M.selectColumns columns).get i j = M.get i (columns.get j) := by
  simp [selectColumns, get, get_eq_getElem]

@[simp] theorem get_selectRows (M : RowMatrix F m n) (rows : List (Fin m))
    (i : Fin rows.length) (j : Fin n) : (M.selectRows rows).get i j = M.get (rows.get i) j := by
  simp [selectRows, row, get, get_eq_getElem]

@[simp] theorem get_beside_left (M : RowMatrix F m n) (N : RowMatrix F m k) (i : Fin m)
    (j : Fin n) : (M.beside N).get i (j.castAdd k) = M.get i j := by
  simp [beside, get, get_eq_getElem]

@[simp] theorem get_beside_right (M : RowMatrix F m n) (N : RowMatrix F m k) (i : Fin m)
    (j : Fin k) : (M.beside N).get i (j.natAdd n) = N.get i j := by
  simp [beside, get, get_eq_getElem]

theorem get_swapRows (M : RowMatrix F m n) (a b i : Fin m) (j : Fin n) :
    (M.swapRows a b).get i j = M.get (if i = a then b else if i = b then a else i) j := by
  simp only [swapRows, get, get_eq_getElem, Fin.getElem_fin, Vector.getElem_swap, ← Fin.ext_iff]
  split
  · rfl
  · split <;> rfl

variable [Scalar F]

@[simp] theorem get_zero (i : Fin m) (j : Fin n) : (zero m n : RowMatrix F m n).get i j = 0 := by
  simp [zero]

@[simp] theorem get_identity (i j : Fin n) :
    (identity n : RowMatrix F n n).get i j = if i = j then 1 else 0 := by
  simp [identity]

theorem get_scaleRow (M : RowMatrix F m n) (a : Fin m) (factor : F) (i : Fin m) (j : Fin n) :
    (M.scaleRow a factor).get i j = if i = a then M.get a j * factor else M.get i j := by
  by_cases h : i = a
  · subst h
    simp [scaleRow, row, get, get_eq_getElem]
  · simp [scaleRow, row, get, get_eq_getElem, h, Fin.val_inj, Ne.symm h]

theorem get_addScaledRow (M : RowMatrix F m n) (source target : Fin m) (factor : F) (i : Fin m)
    (j : Fin n) : (M.addScaledRow source target factor).get i j =
      if i = target then M.get target j + factor * M.get source j else M.get i j := by
  by_cases h : i = target
  · subst h
    simp [addScaledRow, row, get, get_eq_getElem]
  · simp [addScaledRow, row, get, get_eq_getElem, h, Fin.val_inj, Ne.symm h]

theorem get_clear (M : RowMatrix F n n) (a : Fin n) (multiples : Vector F n) (i j : Fin n) :
    (M.clear a multiples).get i j =
      if i = a ∨ multiples.get i == 0 then M.get i j
      else M.get i j + -multiples.get i * M.get a j := by
  simp only [clear, get, get_eq_getElem, Fin.getElem_fin, Vector.getElem_ofFn]
  split
  · rfl
  · simp [row, get_eq_getElem]

@[simp] theorem mulVec_get (M : RowMatrix F m n) (x : Vector F n) (i : Fin m) :
    (M.mulVec x).get i = dot (M.row i).toList x.toList := by
  simp [mulVec, row, get_eq_getElem]

end RowMatrix
end RevisedSimplex
