import RevisedSimplex.Proofs.Matrix

/-! # Inversion is exact

Elimination multiplies a matrix from the left until it is the identity. What it
returns is the inverse, and with tolerance zero it fails on singular matrices only.
-/

namespace RevisedSimplex

open Matrix

variable {n : ℕ}

namespace RowMatrix

theorem pivotRow_spec (M : RowMatrix ℚ n n) (k : Fin n) :
    k ≤ M.pivotRow k ∧ ∀ i, k ≤ i → |M.get i k| ≤ |M.get (M.pivotRow k) k| := by
  obtain ⟨hm, hle⟩ := foldl_extremal (fun i => OrderDual.toDual |M.get i k|)
    (f := fun best i => if magnitude (M.get i k) < magnitude (M.get best k) then best else i)
    (fun best i => by
      simp only [magnitude_eq_abs]
      split
      · rename_i h
        exact ⟨Or.inl rfl, le_rfl, h.le⟩
      · rename_i h
        exact ⟨Or.inr rfl, not_lt.mp h, le_rfl⟩)
    ((List.finRange n).filter (k < ·)) k
  change M.pivotRow k ∈ _ at hm
  change ∀ i ∈ _, |M.get i k| ≤ |M.get (M.pivotRow k) k| at hle
  constructor
  · rcases List.mem_cons.mp hm with h | h
    · exact h.ge
    · exact (by simpa using h : k < M.pivotRow k).le
  · intro i hi
    apply hle
    rcases hi.eq_or_lt with rfl | hlt
    · exact List.mem_cons_self ..
    · exact List.mem_cons_of_mem _ (by simpa using hlt)

/-- Row `p` moves to row `k`, is divided by the pivot and subtracted from every other row as often
as `multiples` says. -/
def sweep (M : RowMatrix ℚ n n) (k p : Fin n) (pivot : ℚ) (multiples : Vector ℚ n) :
    RowMatrix ℚ n n :=
  ((M.swapRows k p).scaleRow k (1 / pivot)).clear k multiples

theorem sweep_pivot_row (M : RowMatrix ℚ n n) (k p : Fin n) (pivot : ℚ)
    (multiples : Vector ℚ n) :
    (M.sweep k p pivot multiples).toMatrix k = (1 / pivot) • M.toMatrix p := by
  ext j
  simp [sweep, get_clear, get_scaleRow, get_swapRows, mul_comm]

theorem get_clear_of_ne {M : RowMatrix ℚ n n} {a i : Fin n} (hi : i ≠ a)
    (multiples : Vector ℚ n) (j : Fin n) :
    (M.clear a multiples).get i j = M.get i j - multiples.get i * M.get a j := by
  rw [get_clear]
  split
  · rename_i h
    have hz : multiples.get i = 0 := by simpa [hi] using h
    rw [hz, zero_mul, sub_zero]
  · ring

theorem sweep_other_row (M : RowMatrix ℚ n n) {k p i : Fin n} (hi : i ≠ k) (pivot : ℚ)
    (multiples : Vector ℚ n) :
    (M.sweep k p pivot multiples).toMatrix i =
      M.toMatrix (if i = p then k else i) -
        multiples.get i • (1 / pivot) • M.toMatrix p := by
  ext j
  rw [toMatrix_apply, sweep, get_clear_of_ne hi]
  simp [get_scaleRow, get_swapRows, hi, mul_comm]

theorem sweep_mul (M N : RowMatrix ℚ n n) (A : Matrix (Fin n) (Fin n) ℚ) (k p : Fin n)
    (pivot : ℚ) (multiples : Vector ℚ n) (h : M.toMatrix * A = N.toMatrix) :
    (M.sweep k p pivot multiples).toMatrix * A = (N.sweep k p pivot multiples).toMatrix := by
  have hrow : ∀ i, M.toMatrix i ᵥ* A = N.toMatrix i := by
    intro i
    rw [← Matrix.mul_apply_eq_vecMul, h]
  ext i
  rw [Matrix.mul_apply_eq_vecMul]
  by_cases hi : i = k
  · subst hi
    rw [sweep_pivot_row, sweep_pivot_row, Matrix.smul_vecMul, hrow]
  · rw [sweep_other_row _ hi, sweep_other_row _ hi, Matrix.sub_vecMul, Matrix.smul_vecMul,
      Matrix.smul_vecMul, hrow, hrow]

theorem sweep_kernel (M : RowMatrix ℚ n n) (k p : Fin n) {pivot : ℚ} (hp : pivot ≠ 0)
    (multiples : Vector ℚ n) {v : Fin n → ℚ}
    (h : (M.sweep k p pivot multiples).toMatrix *ᵥ v = 0) : M.toMatrix *ᵥ v = 0 := by
  have hrow : ∀ i, (M.sweep k p pivot multiples).toMatrix i ⬝ᵥ v = 0 := congrFun h
  have hpv : M.toMatrix p ⬝ᵥ v = 0 := by
    have := hrow k
    rw [sweep_pivot_row, smul_dotProduct, smul_eq_mul] at this
    simpa [hp] using this
  have hother : ∀ i, i ≠ k → M.toMatrix (if i = p then k else i) ⬝ᵥ v = 0 := by
    intro i hi
    have := hrow i
    rwa [sweep_other_row _ hi, sub_dotProduct, smul_dotProduct, smul_dotProduct, hpv, smul_zero,
      smul_zero, sub_zero] at this
  ext i
  change M.toMatrix i ⬝ᵥ v = 0
  by_cases hip : i = p
  · rw [hip, hpv]
  · by_cases hik : i = k
    · have := hother p (fun h => hip (hik.trans h.symm))
      rwa [if_pos rfl, ← hik] at this
    · have := hother i hik
      rwa [if_neg hip] at this

end RowMatrix

namespace Reduction

/-- What elimination of the first `k` columns of `M` has reached. -/
structure Reduces (M : RowMatrix ℚ n n) (k : ℕ) (r : Reduction ℚ n) : Prop where
  product : r.operations.toMatrix * M.toMatrix = r.matrix.toMatrix
  kernel : ∀ v, r.matrix.toMatrix *ᵥ v = 0 → M.toMatrix *ᵥ v = 0
  cleared : ∀ i j : Fin n, j.val < k → r.matrix.get i j = if i = j then 1 else 0

theorem reduces_start (M : RowMatrix ℚ n n) : Reduces M 0 (start M) where
  product := by simp [start]
  kernel _ h := h
  cleared _ _ h := absurd h (Nat.not_lt_zero _)

def sweep (r : Reduction ℚ n) (k p : Fin n) (pivot : ℚ) : Reduction ℚ n :=
  r.apply (·.sweep k p pivot (((r.matrix.swapRows k p).scaleRow k (1 / pivot)).column k))

theorem step_eq (tolerance : ℚ) (r : Reduction ℚ n) (k : Fin n) :
    step tolerance r k =
      if |r.matrix.get (r.matrix.pivotRow k) k| ≤ tolerance then none
      else some (r.sweep k (r.matrix.pivotRow k) (r.matrix.get (r.matrix.pivotRow k) k)) := by
  rw [← magnitude_eq_abs]
  simp [step, sweep, apply, RowMatrix.sweep, Scalar.isFinite]

theorem step_eq_some {tolerance : ℚ} (ht : 0 ≤ tolerance) {r r' : Reduction ℚ n} {k : Fin n}
    (h : step tolerance r k = some r') :
    ∃ (pivot : ℚ) (multiples : Vector ℚ n), pivot = r.matrix.get (r.matrix.pivotRow k) k ∧
      pivot ≠ 0 ∧
      (∀ i ≠ k, multiples.get i = r.matrix.get (if i = r.matrix.pivotRow k then k else i) k) ∧
      r' = r.apply (·.sweep k (r.matrix.pivotRow k) pivot multiples) := by
  rw [step_eq] at h
  split at h
  · cases h
  · rename_i hpivot
    refine ⟨r.matrix.get (r.matrix.pivotRow k) k, _, rfl, ?_, ?_, (Option.some.inj h).symm⟩
    · rintro hz
      apply hpivot
      rwa [hz, abs_zero]
    · intro i hi
      simp [RowMatrix.get_scaleRow, RowMatrix.get_swapRows, hi]

theorem Reduces.step {M : RowMatrix ℚ n n} {tolerance : ℚ} (ht : 0 ≤ tolerance)
    {r r' : Reduction ℚ n} {k : Fin n} (hr : Reduces M k r)
    (h : Reduction.step tolerance r k = some r') : Reduces M (k + 1) r' := by
  obtain ⟨pivot, multiples, hpivot, hne, hm, rfl⟩ := step_eq_some ht h
  have hle := (r.matrix.pivotRow_spec k).1
  refine ⟨RowMatrix.sweep_mul _ _ _ _ _ _ _ hr.product,
    fun v hv => hr.kernel v (RowMatrix.sweep_kernel _ _ _ hne _ hv), ?_⟩
  intro i j hj
  rw [← RowMatrix.toMatrix_apply, Reduction.apply]
  generalize r.matrix.pivotRow k = p at *
  -- the columns before `k` are untouched, since the pivot row vanishes there
  rcases Nat.lt_succ_iff_lt_or_eq.mp hj with hlt | heq
  · have hcol : ∀ l, r.matrix.get l j = if l = j then 1 else 0 := fun l => hr.cleared l j hlt
    have hpj : p ≠ j := fun e => absurd (e ▸ hle) (not_le.mpr hlt)
    have hkj : k ≠ j := fun e => absurd hlt (by rw [e]; exact lt_irrefl _)
    by_cases hi : i = k
    · subst hi
      rw [RowMatrix.sweep_pivot_row]
      simp [hcol, hpj, hkj]
    · rw [RowMatrix.sweep_other_row _ hi]
      by_cases hip : i = p
      · simp [hip, hcol, hpj, hkj]
      · simp [hip, hcol, hpj]
  · obtain rfl : j = k := Fin.ext heq
    by_cases hi : i = j
    · subst hi
      rw [RowMatrix.sweep_pivot_row]
      simp [← hpivot, hne]
    · rw [RowMatrix.sweep_other_row _ hi]
      simp [hm i hi, ← hpivot, hne, hi]

/-- With tolerance zero a step fails only where the column has no pivot left, and then the matrix
is singular. -/
theorem Reduces.exists_step {M : RowMatrix ℚ n n} (hM : ∀ v, M.toMatrix *ᵥ v = 0 → v = 0)
    {r : Reduction ℚ n} {k : Fin n} (hr : Reduces M k r) :
    ∃ r', Reduction.step 0 r k = some r' := by
  by_contra hn
  have hz : r.matrix.get (r.matrix.pivotRow k) k = 0 := by
    by_contra hne
    apply hn
    rw [step_eq, if_neg (not_le.mpr (abs_pos.mpr hne))]
    exact ⟨_, rfl⟩
  have hcol : ∀ i, k ≤ i → r.matrix.get i k = 0 := by
    intro i hi
    have := (r.matrix.pivotRow_spec k).2 i hi
    rw [hz, abs_zero] at this
    exact abs_nonpos_iff.mp this
  let v : Fin n → ℚ := fun j => if j < k then -r.matrix.get j k else if j = k then 1 else 0
  have hv : r.matrix.toMatrix *ᵥ v = 0 := by
    ext i
    have hsplit : ∀ j, r.matrix.get i j * v j =
        (if j = i then (if j < k then -r.matrix.get j k else 0) else 0) +
          if j = k then r.matrix.get i k else 0 := by
      intro j
      rcases lt_trichotomy j k with h | h | h
      · rw [hr.cleared i j h]
        by_cases hij : i = j <;> simp [v, h, h.ne, hij, eq_comm]
      · subst h
        simp [v]
      · simp [v, h.not_gt, h.ne']
    change ∑ j, r.matrix.get i j * v j = 0
    rw [Finset.sum_congr rfl fun j _ => hsplit j, Finset.sum_add_distrib,
      Finset.sum_ite_eq' Finset.univ i, Finset.sum_ite_eq' Finset.univ k]
    by_cases hik : i < k
    · simp [hik]
    · simp [hik, hcol i (not_lt.mp hik)]
  have hvk : v k = 0 := congrFun (hM v (hr.kernel v hv)) k
  simp [v] at hvk

end Reduction

namespace RowMatrix

/-- What inversion returns is a left inverse. -/
theorem inverse?_mul {M X : RowMatrix ℚ n n} {tolerance : ℚ} (ht : 0 ≤ tolerance)
    (h : M.inverse? tolerance = some X) : X.toMatrix * M.toMatrix = 1 := by
  obtain ⟨r, hr, rfl⟩ := Option.map_eq_some_iff.mp h
  have hfinal : Reduction.Reduces M n r :=
    foldlM_finRange_some (fun k s s' hs hf => hs.step ht hf) (Reduction.reduces_start M) hr
  rw [hfinal.product]
  ext i j
  rw [toMatrix_apply, hfinal.cleared i j j.isLt, Matrix.one_apply]

theorem inverse?_exists {M : RowMatrix ℚ n n} (hM : ∀ v, M.toMatrix *ᵥ v = 0 → v = 0) :
    ∃ X, M.inverse? 0 = some X := by
  obtain ⟨r, hr⟩ := foldlM_finRange_exists (f := Reduction.step 0) (P := Reduction.Reduces M)
    (fun k s hs => by
      obtain ⟨s', hf⟩ := hs.exists_step hM
      exact ⟨s', hf, hs.step le_rfl hf⟩)
    (Reduction.reduces_start M)
  exact ⟨r.operations, by rw [inverse?, hr]; rfl⟩

theorem inverse?_eq_none {M : RowMatrix ℚ n n} {tolerance : ℚ} (ht : 0 ≤ tolerance)
    (hM : M.toMatrix.det = 0) : M.inverse? tolerance = none := by
  cases h : M.inverse? tolerance with
  | none => rfl
  | some X => exact absurd hM (Matrix.det_ne_zero_of_left_inverse (inverse?_mul ht h))

theorem inverse?_eq_none_iff {M : RowMatrix ℚ n n} :
    M.inverse? 0 = none ↔ M.toMatrix.det = 0 := by
  refine ⟨fun h => ?_, inverse?_eq_none le_rfl⟩
  by_contra hM
  obtain ⟨X, hX⟩ := inverse?_exists fun v hv => Matrix.eq_zero_of_mulVec_eq_zero hM hv
  rw [h] at hX
  cases hX

/-- What inversion returns is the inverse on both sides. It refuses every singular matrix and, with
tolerance zero, no other. -/
theorem inverse?_isExact (M : RowMatrix ℚ n n) {tolerance : ℚ} (ht : 0 ≤ tolerance) :
    (∀ X, M.inverse? tolerance = some X →
      X.toMatrix * M.toMatrix = 1 ∧ M.toMatrix * X.toMatrix = 1) ∧
    (M.toMatrix.det = 0 → M.inverse? tolerance = none) ∧
    (M.toMatrix.det ≠ 0 → ∃ X, M.inverse? 0 = some X) := by
  refine ⟨fun X hX => ?_, inverse?_eq_none ht, fun hM => ?_⟩
  · have hleft := inverse?_mul ht hX
    exact ⟨hleft, mul_eq_one_comm.mp hleft⟩
  · exact Option.ne_none_iff_exists'.mp (mt inverse?_eq_none_iff.mp hM)

def swapping : RowMatrix ℚ 3 3 := ⟨#v[#v[2, 0, 0], #v[1, 0, 2], #v[0, 3, 1]]⟩

def proportional : RowMatrix ℚ 2 2 := ⟨#v[#v[2, 4], #v[3, 6]]⟩

theorem inverse?_isExact_swapping :
    (∃ X, swapping.inverse? (1 / 1000) = some X ∧ X.toMatrix * swapping.toMatrix = 1 ∧
      swapping.toMatrix * X.toMatrix = 1) ∧
    proportional.inverse? (1 / 1000) = none := by
  have ht : (0 : ℚ) ≤ 1 / 1000 := by norm_num
  have h : (swapping.inverse? (1 / 1000)).isSome = true := by decide +kernel
  have hdet : proportional.toMatrix.det = 0 := by
    rw [Matrix.det_fin_two]
    decide +kernel
  obtain ⟨X, hX⟩ := Option.isSome_iff_exists.mp h
  obtain ⟨hinverse, -⟩ := inverse?_isExact swapping ht
  obtain ⟨-, hsingular, -⟩ := inverse?_isExact proportional ht
  exact ⟨⟨X, hX, hinverse X hX⟩, hsingular hdet⟩

end RowMatrix
end RevisedSimplex
