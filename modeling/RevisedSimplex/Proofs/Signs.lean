import RevisedSimplex.Proofs.Inversion

/-! # Signs of rows

An equation says the same when both of its sides change their sign. Elimination finds the same
pivots whatever the signs of the rows are, so the inverse only changes the signs of its columns.
-/

namespace RevisedSimplex

open Matrix

variable {m n k : ℕ}

/-- A factor for each of `m` rows that is one or minus one. -/
structure Signs (m : ℕ) where
  factor : Fin m → ℚ
  factor_mul_self : ∀ i, factor i * factor i = 1

namespace Signs

def negative (S : Finset (Fin m)) : Signs m where
  factor i := if i ∈ S then -1 else 1
  factor_mul_self i := by split <;> norm_num

theorem negative_mul (S : Finset (Fin m)) (i : Fin m) (a : ℚ) :
    (negative S).factor i * a = if i ∈ S then -a else a := by
  change (if i ∈ S then -1 else 1) * a = _
  split
  · exact neg_one_mul a
  · exact one_mul a

def comap (σ : Signs m) (f : Fin k → Fin m) : Signs k where
  factor i := σ.factor (f i)
  factor_mul_self i := σ.factor_mul_self (f i)

/-- The signs after row `p` moved to row `k` and was divided by its pivot. -/
def swept (σ : Signs m) (k p : Fin m) : Signs m where
  factor i := if i = k then 1 else σ.factor (if i = p then k else i)
  factor_mul_self i := by
    split
    · exact one_mul 1
    · exact σ.factor_mul_self _

def onVector (σ : Signs m) (x : Vector ℚ m) : Vector ℚ m := .ofFn fun i => σ.factor i * x.get i

def onRows (σ : Signs m) (M : RowMatrix ℚ m n) : RowMatrix ℚ m n :=
  .ofFn fun i j => σ.factor i * M.get i j

def onColumns (σ : Signs n) (M : RowMatrix ℚ m n) : RowMatrix ℚ m n :=
  .ofFn fun i j => M.get i j * σ.factor j

variable (σ : Signs m)

@[simp] theorem onVector_get (x : Vector ℚ m) (i : Fin m) :
    (σ.onVector x).get i = σ.factor i * x.get i := by
  rw [onVector, Vector.get_ofFn]

@[simp] theorem onRows_get (M : RowMatrix ℚ m n) (i : Fin m) (j : Fin n) :
    (σ.onRows M).get i j = σ.factor i * M.get i j :=
  RowMatrix.get_ofFn ..

@[simp] theorem onColumns_get (M : RowMatrix ℚ n m) (i : Fin n) (j : Fin m) :
    (σ.onColumns M).get i j = M.get i j * σ.factor j :=
  RowMatrix.get_ofFn ..

theorem factor_eq_or (i : Fin m) : σ.factor i = 1 ∨ σ.factor i = -1 :=
  mul_self_eq_one_iff.mp (σ.factor_mul_self i)

theorem factor_ne_zero (i : Fin m) : σ.factor i ≠ 0 :=
  left_ne_zero_of_mul_eq_one (σ.factor_mul_self i)

theorem factor_mul_cancel (i : Fin m) (a : ℚ) : σ.factor i * (σ.factor i * a) = a := by
  rw [← mul_assoc, factor_mul_self, one_mul]

theorem mul_factor_mul (i : Fin m) (a b : ℚ) : a * σ.factor i * (σ.factor i * b) = a * b := by
  rw [mul_assoc, factor_mul_cancel]

theorem abs_factor_mul (i : Fin m) (a : ℚ) : |σ.factor i * a| = |a| := by
  rcases σ.factor_eq_or i with h | h <;> simp [h]

theorem column_onRows (M : RowMatrix ℚ m n) (j : Fin n) :
    (σ.onRows M).column j = σ.onVector (M.column j) := by
  apply get_injective
  ext i
  simp

theorem selectColumns_onRows (M : RowMatrix ℚ m n) (columns : Vector (Fin n) k) :
    (σ.onRows M).selectColumns columns = σ.onRows (M.selectColumns columns) := by
  apply RowMatrix.ext_get
  simp

/-! ### Products -/

theorem dot_onVector (x y : Vector ℚ m) :
    dot (σ.onVector x).toList (σ.onVector y).toList = dot x.toList y.toList := by
  rw [dot_toList, dot_toList]
  refine Finset.sum_congr rfl fun i _ => ?_
  rw [onVector_get, onVector_get, mul_mul_mul_comm, factor_mul_self, one_mul]

theorem row_onColumns (M : RowMatrix ℚ n m) (i : Fin n) :
    (σ.onColumns M).row i = σ.onVector (M.row i) := by
  apply get_injective
  ext j
  simp [mul_comm]

theorem mulVec_onColumns (M : RowMatrix ℚ n m) (x : Vector ℚ m) :
    (σ.onColumns M).mulVec (σ.onVector x) = M.mulVec x := by
  apply get_injective
  ext i
  rw [RowMatrix.mulVec_get, RowMatrix.mulVec_get, row_onColumns, dot_onVector]

theorem vecMul_onColumns (M : RowMatrix ℚ n m) (y : Vector ℚ n) :
    (σ.onColumns M).vecMul y = σ.onVector (M.vecMul y) := by
  apply get_injective
  ext j
  rw [RowMatrix.vecMul_get_eq, onVector_get, RowMatrix.vecMul_get_eq]
  simp only [vecMul, dotProduct, RowMatrix.toMatrix_apply, onColumns_get, Finset.mul_sum]
  exact Finset.sum_congr rfl fun i _ => by ring

theorem onColumns_mul_onRows (M : RowMatrix ℚ n m) (N : RowMatrix ℚ m k) :
    (σ.onColumns M).toMatrix * (σ.onRows N).toMatrix = M.toMatrix * N.toMatrix := by
  ext i j
  rw [Matrix.mul_apply, Matrix.mul_apply]
  refine Finset.sum_congr rfl fun l _ => ?_
  simp only [RowMatrix.toMatrix_apply, onColumns_get, onRows_get, mul_factor_mul]

/-! ### Row operations -/

theorem swept_factor_self (k p : Fin m) : (σ.swept k p).factor k = 1 := if_pos rfl

theorem swept_factor_of_ne {k p i : Fin m} (hk : i ≠ k) (hp : i ≠ p) :
    (σ.swept k p).factor i = σ.factor i := by
  change (if i = k then 1 else σ.factor (if i = p then k else i)) = _
  rw [if_neg hk, if_neg hp]

theorem pivotRow_onRows (M : RowMatrix ℚ m m) (k : Fin m) :
    (σ.onRows M).pivotRow k = M.pivotRow k := by
  simp only [RowMatrix.pivotRow, onRows_get, magnitude_eq_abs, abs_factor_mul]

/-- The pivot row loses its sign, since the pivot has the same one. -/
theorem scaleRow_onRows (M : RowMatrix ℚ m n) (k p : Fin m) (pivot : ℚ) :
    ((σ.onRows M).swapRows k p).scaleRow k (1 / (σ.factor p * pivot)) =
      (σ.swept k p).onRows ((M.swapRows k p).scaleRow k (1 / pivot)) := by
  apply RowMatrix.ext_get
  intro i j
  have hp := σ.factor_ne_zero p
  simp only [RowMatrix.get_scaleRow, RowMatrix.get_swapRows, onRows_get, swept, if_true]
  by_cases hi : i = k
  · rw [if_pos hi, if_pos hi, if_pos hi, one_mul]
    field_simp
  · rw [if_neg hi, if_neg hi, if_neg hi, if_neg hi]

theorem clear_onRows {k : Fin m} (hk : σ.factor k = 1) (M : RowMatrix ℚ m m)
    (multiples : Vector ℚ m) :
    (σ.onRows M).clear k (σ.onVector multiples) = σ.onRows (M.clear k multiples) := by
  apply RowMatrix.ext_get
  intro i j
  by_cases hi : i = k
  · simp [RowMatrix.get_clear, hi]
  · rw [RowMatrix.get_clear_of_ne hi, onRows_get σ (M.clear k multiples),
      RowMatrix.get_clear_of_ne hi]
    simp only [onRows_get, onVector_get, hk]
    ring

theorem scaleRow_onColumns (M : RowMatrix ℚ n m) (k p : Fin n) (factor : ℚ) :
    ((σ.onColumns M).swapRows k p).scaleRow k factor =
      σ.onColumns ((M.swapRows k p).scaleRow k factor) := by
  apply RowMatrix.ext_get
  intro i j
  simp only [RowMatrix.get_scaleRow, RowMatrix.get_swapRows, onColumns_get]
  split <;> ring

theorem clear_onColumns (M : RowMatrix ℚ m m) (k : Fin m) (multiples : Vector ℚ m) :
    (σ.onColumns M).clear k multiples = σ.onColumns (M.clear k multiples) := by
  apply RowMatrix.ext_get
  intro i j
  simp only [RowMatrix.get_clear, onColumns_get]
  split <;> ring

theorem sweep_onRows (M : RowMatrix ℚ m m) (k p : Fin m) (pivot : ℚ) (multiples : Vector ℚ m) :
    (σ.onRows M).sweep k p (σ.factor p * pivot) ((σ.swept k p).onVector multiples) =
      (σ.swept k p).onRows (M.sweep k p pivot multiples) := by
  rw [RowMatrix.sweep, scaleRow_onRows, clear_onRows _ (σ.swept_factor_self k p), RowMatrix.sweep]

theorem sweep_onColumns (M : RowMatrix ℚ m m) (k p : Fin m) (pivot : ℚ)
    (multiples : Vector ℚ m) :
    (σ.onColumns M).sweep k p pivot multiples = σ.onColumns (M.sweep k p pivot multiples) := by
  rw [RowMatrix.sweep, scaleRow_onColumns, clear_onColumns, RowMatrix.sweep]

end Signs

namespace Reduction

/-- The second reduction is the first one but for the signs of the rows from `k` on, and for the
signs `σ` of the columns of the operations. -/
def DiffersBy (σ : Signs n) (k : ℕ) (r r' : Reduction ℚ n) : Prop :=
  ∃ τ : Signs n, (∀ i : Fin n, i.val < k → τ.factor i = 1) ∧ r'.matrix = τ.onRows r.matrix ∧
    r'.operations = σ.onColumns (τ.onRows r.operations)

variable (σ : Signs n)

theorem differsBy_start (M : RowMatrix ℚ n n) : DiffersBy σ 0 (start M) (start (σ.onRows M)) := by
  refine ⟨σ, fun i hi => absurd hi (Nat.not_lt_zero _), rfl, ?_⟩
  apply RowMatrix.ext_get
  intro i j
  simp only [start, RowMatrix.get_identity, Signs.onColumns_get, Signs.onRows_get]
  split
  · rename_i h
    rw [h, mul_one, σ.factor_mul_self]
  · rw [mul_zero, zero_mul]

variable {σ}

theorem DiffersBy.step (tolerance : ℚ) {r r' : Reduction ℚ n} {k : Fin n}
    (h : DiffersBy σ k r r') :
    Option.Rel (DiffersBy σ (k + 1)) (step tolerance r k) (step tolerance r' k) := by
  obtain ⟨τ, hτ, hmatrix, hoperations⟩ := h
  have hle := (r.matrix.pivotRow_spec k).1
  rw [step_eq, step_eq, hmatrix, τ.pivotRow_onRows, τ.onRows_get, τ.abs_factor_mul]
  generalize r.matrix.pivotRow k = p at hle ⊢
  split
  · exact .none
  · refine .some ⟨τ.swept k p, fun i hi => ?_, ?_, ?_⟩
    · rcases Nat.lt_succ_iff_lt_or_eq.mp hi with hlt | heq
      · -- an earlier row has lost its sign and is not moved
        have hik : i ≠ k := Fin.ne_of_lt hlt
        have hip : i ≠ p := Fin.ne_of_lt (lt_of_lt_of_le hlt hle)
        rw [τ.swept_factor_of_ne hik hip, hτ i hlt]
      · rw [Fin.ext heq, τ.swept_factor_self]
    · simp only [sweep, apply, hmatrix, τ.scaleRow_onRows, Signs.column_onRows, τ.sweep_onRows]
    · simp only [sweep, apply, hmatrix, hoperations, τ.scaleRow_onRows, Signs.column_onRows,
        σ.sweep_onColumns, τ.sweep_onRows]

end Reduction

/-- Signs of the rows become signs of the columns of the inverse. -/
theorem RowMatrix.inverse?_onRows (σ : Signs n) (M : RowMatrix ℚ n n) (tolerance : ℚ) :
    (σ.onRows M).inverse? tolerance = (M.inverse? tolerance).map σ.onColumns := by
  have hrel := foldlM_finRange_rel (fun k r r' h => h.step tolerance)
    (Reduction.differsBy_start σ M)
  rw [inverse?, inverse?, Option.map_map]
  generalize (List.finRange n).foldlM (Reduction.step tolerance) _ = x at hrel ⊢
  generalize (List.finRange n).foldlM (Reduction.step tolerance) _ = x' at hrel ⊢
  cases hrel with
  | none => rfl
  | some h =>
    obtain ⟨τ, hτ, -, hoperations⟩ := h
    refine congrArg some (hoperations.trans ?_)
    apply RowMatrix.ext_get
    intro i j
    simp [hτ i i.isLt]

end RevisedSimplex
