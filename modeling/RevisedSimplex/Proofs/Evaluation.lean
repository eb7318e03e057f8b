import RevisedSimplex.Proofs.Inversion
import RevisedSimplex.Tableau.Ratio

/-! # Valid tableaux

The evaluation of a valid tableau is that of its basis. Its entries are `B⁻¹ A`, and its
rows and its relative costs rewrite the constraints and the cost of every point.
-/

namespace RevisedSimplex

open Matrix

variable {m n : ℕ}

def spread (basis : Basis m n) (v : Fin m → ℚ) : Fin n → ℚ :=
  fun j => ∑ i, if basis.get i = j then v i else 0

theorem dotProduct_spread (basis : Basis m n) (v : Fin m → ℚ) (f : Fin n → ℚ) :
    f ⬝ᵥ spread basis v = (f ∘ basis.get) ⬝ᵥ v := by
  simp only [dotProduct, spread, Finset.mul_sum, Function.comp_apply]
  rw [Finset.sum_comm]
  simp

theorem mulVec_spread {k : ℕ} (A : Matrix (Fin k) (Fin n) ℚ) (basis : Basis m n)
    (v : Fin m → ℚ) : A *ᵥ spread basis v = A.submatrix id basis.get *ᵥ v := by
  ext i
  exact dotProduct_spread basis v (A i)

theorem spread_basic {basis : Basis m n} (hb : Function.Injective basis.get) (v : Fin m → ℚ)
    (i : Fin m) : spread basis v (basis.get i) = v i := by
  simp [spread, hb.eq_iff]

theorem spread_nonbasic {basis : Basis m n} {j : Fin n} (hj : ∀ i, basis.get i ≠ j)
    (v : Fin m → ℚ) : spread basis v j = 0 := by
  simp [spread, hj]

theorem spread_nonneg (basis : Basis m n) {v : Fin m → ℚ} (hv : ∀ i, 0 ≤ v i) (j : Fin n) :
    0 ≤ spread basis v j := by
  apply Finset.sum_nonneg
  intro i _
  split
  · exact hv i
  · exact le_rfl

theorem eq_spread {basis : Basis m n} (hb : Function.Injective basis.get) {x : Fin n → ℚ}
    (hx : ∀ j, (∀ i, basis.get i ≠ j) → x j = 0) : x = spread basis (x ∘ basis.get) := by
  ext j
  by_cases hj : ∃ i, basis.get i = j
  · obtain ⟨i, rfl⟩ := hj
    rw [spread_basic hb]
    rfl
  · push Not at hj
    rw [hx j hj, spread_nonbasic hj]

private theorem foldl_set_get {α : Type} {basis : Basis m n} (hb : Function.Injective basis.get)
    (values : Vector α m) (rows : List (Fin m)) (x : Vector α n) (j : Fin n) :
    (rows.foldl (fun x i => x.set (basis.get i) (values.get i) (basis.get i).isLt) x).get j =
      (rows.find? (basis.get · = j)).elim (x.get j) values.get := by
  induction rows generalizing x with
  | nil => rfl
  | cons i rows ih =>
    rw [List.foldl_cons, ih]
    by_cases hi : basis.get i = j
    · rw [List.find?_cons_of_pos (by simpa using hi)]
      cases hr : rows.find? (basis.get · = j) with
      | none => simp [get_eq_getElem, ← hi]
      | some i' =>
        have hi' : basis.get i' = j := by simpa using List.find?_some hr
        rw [hb (hi'.trans hi.symm), Option.elim_some, Option.elim_some]
    · rw [List.find?_cons_of_neg (by simpa using hi)]
      cases hr : rows.find? (basis.get · = j) with
      | none =>
        have hne : (basis.get i).val ≠ j.val := fun e => hi (Fin.ext e)
        exact Vector.getElem_set_ne (basis.get i).isLt j.isLt hne
      | some i' => rfl

theorem basicPoint_get_of_nonbasic {F : Type} [Scalar F] {basis : Basis m n}
    (hb : Function.Injective basis.get) (values : Vector F m) {j : Fin n}
    (hj : ∀ i, basis.get i ≠ j) : (Program.basicPoint basis values).get j = 0 := by
  have hnone : (List.finRange m).find? (basis.get · = j) = none := by simpa using hj
  rw [Program.basicPoint, foldl_set_get hb, hnone, Option.elim_none, Vector.get_replicate]

theorem basicPoint_get {basis : Basis m n} (hb : Function.Injective basis.get)
    (values : Vector ℚ m) : (Program.basicPoint basis values).get = spread basis values.get := by
  ext j
  rw [Program.basicPoint, foldl_set_get hb]
  cases hr : (List.finRange m).find? (basis.get · = j) with
  | none =>
    have hj : ∀ i, basis.get i ≠ j := by simpa using hr
    rw [spread_nonbasic hj, Option.elim_none, Vector.get_replicate]
  | some i =>
    have hi : basis.get i = j := by simpa using List.find?_some hr
    rw [← hi, spread_basic hb, Option.elim_some]

namespace Program

/-- A nonnegative point that satisfies the constraints. -/
def IsFeasible (P : Program ℚ m n) (x : Fin n → ℚ) : Prop :=
  (∀ j, 0 ≤ x j) ∧ P.constraints.toMatrix *ᵥ x = P.rhs.get

def basisMatrix (P : Program ℚ m n) (basis : Basis m n) : Matrix (Fin m) (Fin m) ℚ :=
  P.constraints.toMatrix.submatrix id basis.get

theorem basicCosts_get (P : Program ℚ m n) (basis : Basis m n) :
    (P.basicCosts basis).get = P.cost.get ∘ basis.get := by
  ext i
  simp [basicCosts]

end Program

namespace Tableau

structure IsValid (t : Tableau ℚ m n) : Prop where
  tolerance_nonneg : 0 ≤ t.tolerance
  evaluated : t.program.evaluate? t.basis t.tolerance = some t.evaluation

theorem eq_of_ofBasis {F : Type} [Scalar F] {P : Program F m n} {basis : Basis m n}
    {tolerance : F} {artificial : ℕ} {t : Tableau F m n}
    (h : ofBasis P basis tolerance artificial = .ok t) :
    P.evaluate? basis tolerance = some t.evaluation ∧ t.program = P ∧ t.basis = basis ∧
      t.tolerance = tolerance ∧ t.artificial = artificial := by
  unfold ofBasis at h
  split at h
  · rename_i evaluation he
    cases h
    exact ⟨he, rfl, rfl, rfl, rfl⟩
  · cases h

theorem isValid_of_ofBasis {P : Program ℚ m n} {basis : Basis m n} {tolerance : ℚ}
    {artificial : ℕ} (ht : 0 ≤ tolerance) {t : Tableau ℚ m n}
    (h : ofBasis P basis tolerance artificial = .ok t) :
    t.IsValid ∧ t.program = P ∧ t.basis = basis ∧ t.tolerance = tolerance ∧
      t.artificial = artificial := by
  obtain ⟨he, rfl, rfl, rfl, rfl⟩ := eq_of_ofBasis h
  exact ⟨⟨ht, he⟩, rfl, rfl, rfl, rfl⟩

theorem isValid_of_ofIndices {P : Program ℚ m n} {indices : List ℕ} {tolerance : ℚ}
    {artificial : ℕ} (ht : 0 ≤ tolerance) {t : Tableau ℚ m n}
    (h : ofIndices P indices tolerance artificial = .ok t) :
    t.IsValid ∧ t.program = P ∧ t.tolerance = tolerance ∧ t.artificial = artificial := by
  unfold ofIndices at h
  split at h
  · obtain ⟨hv, hP, -, htol, hart⟩ := isValid_of_ofBasis ht h
    exact ⟨hv, hP, htol, hart⟩
  · cases h

theorem ofBasis_exists {P : Program ℚ m n} {basis : Basis m n}
    (h : ∀ v, P.basisMatrix basis *ᵥ v = 0 → v = 0) (artificial : ℕ) :
    ∃ t, ofBasis P basis 0 artificial = .ok t := by
  have hker : ∀ v, (P.constraints.selectColumns basis).toMatrix *ᵥ v = 0 → v = 0 := by
    intro v hv
    rw [RowMatrix.toMatrix_selectColumns] at hv
    exact h v hv
  obtain ⟨X, hX⟩ := RowMatrix.inverse?_exists hker
  rw [ofBasis, Program.evaluate?, hX]
  exact ⟨_, rfl⟩

/-- The matrix `B⁻¹`. -/
def inverse (t : Tableau ℚ m n) : Matrix (Fin m) (Fin m) ℚ := t.evaluation.inverse.toMatrix

/-- The matrix `B⁻¹ A`. -/
def entries (t : Tableau ℚ m n) : Matrix (Fin m) (Fin n) ℚ :=
  t.inverse * t.program.constraints.toMatrix

def basicCosts (t : Tableau ℚ m n) : Fin m → ℚ := t.program.cost.get ∘ t.basis.get

theorem element_eq (t : Tableau ℚ m n) (i : Fin m) (j : Fin n) : t.element i j = t.entries i j :=
  RowMatrix.rowTimesColumn_eq _ _ _ _

theorem column_get (t : Tableau ℚ m n) (j : Fin n) (i : Fin m) :
    (t.column j).get i = t.entries i j := by
  rw [column, Program.tableauColumn, RowMatrix.mulVec_get_eq, RowMatrix.column_get_eq]
  rfl

theorem rowEntry_eq (t : Tableau ℚ m n) (i : Fin m) (j : Fin n) :
    t.rowEntry i j = t.entries i j := by
  have hc : (List.finRange m).map (fun k => t.program.constraints.get k j) =
      List.ofFn fun k => t.program.constraints.get k j := (List.ofFn_eq_map).symm
  rw [rowEntry, rowElement, Program.rowElement, hc, toList_eq_ofFn, dot_ofFn]
  rfl

theorem isBasic_iff {F : Type} (t : Tableau F m n) (j : Fin n) :
    t.isBasic j = true ↔ ∃ i, t.basis.get i = j := by
  rw [isBasic, List.contains_iff_mem, toList_eq_ofFn, List.mem_ofFn]

theorem isBasic_eq_false_iff {F : Type} (t : Tableau F m n) (j : Fin n) :
    t.isBasic j = false ↔ ∀ i, t.basis.get i ≠ j := by
  rw [← Bool.not_eq_true, t.isBasic_iff, not_exists]

/-- The rows of the tableau rewrite the constraints of any point. -/
theorem entries_mulVec (t : Tableau ℚ m n) (x : Fin n → ℚ) :
    t.entries *ᵥ x = t.inverse *ᵥ (t.program.constraints.toMatrix *ᵥ x) :=
  (Matrix.mulVec_mulVec ..).symm

theorem relativeCost_eq (t : Tableau ℚ m n) (j : Fin n) :
    t.relativeCost j =
      t.shadowPrice.get ⬝ᵥ t.program.constraints.toMatrix.col j - t.program.cost.get j := by
  rw [relativeCost, Program.reducedCost, dot_toList, RowMatrix.column_get_eq]

/-- The relative costs rewrite the cost of any point. -/
theorem cost_dotProduct (t : Tableau ℚ m n) (x : Fin n → ℚ) :
    t.program.cost.get ⬝ᵥ x =
      t.shadowPrice.get ⬝ᵥ (t.program.constraints.toMatrix *ᵥ x) - t.relativeCost ⬝ᵥ x := by
  have hz : t.relativeCost =
      t.shadowPrice.get ᵥ* t.program.constraints.toMatrix - t.program.cost.get :=
    funext t.relativeCost_eq
  rw [hz, Matrix.dotProduct_mulVec, sub_dotProduct, sub_sub_cancel]

namespace IsValid

variable {t : Tableau ℚ m n} (ht : t.IsValid)

include ht

theorem evaluation_eq : ∃ X : RowMatrix ℚ m m,
    (t.program.constraints.selectColumns t.basis).inverse? t.tolerance = some X ∧
      t.evaluation = ⟨X, X.mulVec t.program.rhs, X.vecMul (t.program.basicCosts t.basis)⟩ := by
  obtain ⟨X, hX, he⟩ := Option.map_eq_some_iff.mp ht.evaluated
  exact ⟨X, hX, he.symm⟩

theorem inverse_mul_basisMatrix : t.inverse * t.program.basisMatrix t.basis = 1 := by
  obtain ⟨X, hX, he⟩ := ht.evaluation_eq
  rw [inverse, he, Program.basisMatrix, ← RowMatrix.toMatrix_selectColumns]
  exact RowMatrix.inverse?_mul ht.tolerance_nonneg hX

theorem basisMatrix_mul_inverse : t.program.basisMatrix t.basis * t.inverse = 1 :=
  mul_eq_one_comm.mp ht.inverse_mul_basisMatrix

theorem basicValues_get : t.basicValues.get = t.inverse *ᵥ t.program.rhs.get := by
  obtain ⟨X, _, he⟩ := ht.evaluation_eq
  rw [basicValues, inverse, he, RowMatrix.mulVec_get_eq]

theorem shadowPrice_get : t.shadowPrice.get = t.basicCosts ᵥ* t.inverse := by
  obtain ⟨X, _, he⟩ := ht.evaluation_eq
  rw [shadowPrice, inverse, he, RowMatrix.vecMul_get_eq, Program.basicCosts_get]
  rfl

/-- The shadow price is the only price that the basic columns are worth their costs at. -/
theorem shadowPrice_eq_of_vecMul {y : Fin m → ℚ}
    (hy : y ᵥ* t.program.basisMatrix t.basis = t.basicCosts) : t.shadowPrice.get = y := by
  rw [ht.shadowPrice_get, ← hy, Matrix.vecMul_vecMul, ht.basisMatrix_mul_inverse,
    Matrix.vecMul_one]

theorem entries_basic (i k : Fin m) : t.entries i (t.basis.get k) = if i = k then 1 else 0 := by
  calc t.entries i (t.basis.get k)
      = (t.inverse * t.program.basisMatrix t.basis) i k := rfl
    _ = if i = k then 1 else 0 := by rw [ht.inverse_mul_basisMatrix, Matrix.one_apply]

theorem basis_injective : Function.Injective t.basis.get := by
  intro i k h
  by_contra hne
  have hik := ht.entries_basic i k
  rw [← h, ht.entries_basic, if_pos rfl, if_neg hne] at hik
  exact one_ne_zero hik

theorem entries_mulVec_spread (v : Fin m → ℚ) : t.entries *ᵥ spread t.basis v = v := by
  rw [mulVec_spread]
  change (t.inverse * t.program.basisMatrix t.basis) *ᵥ v = v
  rw [ht.inverse_mul_basisMatrix, Matrix.one_mulVec]

theorem entries_mulVec_of_support {x : Fin n → ℚ}
    (hx : ∀ j, (∀ i, t.basis.get i ≠ j) → x j = 0) (i : Fin m) :
    (t.entries *ᵥ x) i = x (t.basis.get i) := by
  rw [eq_spread ht.basis_injective hx, ht.entries_mulVec_spread, spread_basic ht.basis_injective]

theorem entries_mulVec_of_eq {x : Fin n → ℚ}
    (hx : t.program.constraints.toMatrix *ᵥ x = t.program.rhs.get) :
    t.entries *ᵥ x = t.basicValues.get := by
  rw [t.entries_mulVec, hx, ht.basicValues_get]

theorem constraints_mulVec_spread (v : Fin m → ℚ) :
    t.program.constraints.toMatrix *ᵥ spread t.basis (t.inverse *ᵥ v) = v := by
  rw [mulVec_spread, Matrix.mulVec_mulVec]
  change (t.program.basisMatrix t.basis * t.inverse) *ᵥ v = v
  rw [ht.basisMatrix_mul_inverse, Matrix.one_mulVec]

theorem point_get : t.point.get = spread t.basis t.basicValues.get :=
  basicPoint_get ht.basis_injective _

theorem constraints_mulVec_point :
    t.program.constraints.toMatrix *ᵥ t.point.get = t.program.rhs.get := by
  rw [ht.point_get, ht.basicValues_get, ht.constraints_mulVec_spread]

/-- The basic solution is the only point with these constraints that vanishes outside the basis. -/
theorem eq_point {x : Fin n → ℚ} (hx : t.program.constraints.toMatrix *ᵥ x = t.program.rhs.get)
    (hsupport : ∀ j, (∀ i, t.basis.get i ≠ j) → x j = 0) : x = t.point.get := by
  have hbasic : x ∘ t.basis.get = t.basicValues.get := by
    ext i
    rw [← ht.entries_mulVec_of_eq hx, ht.entries_mulVec_of_support hsupport]
    rfl
  rw [eq_spread ht.basis_injective hsupport, hbasic, ht.point_get]

theorem isFeasible_point (hv : ∀ i, 0 ≤ t.basicValues.get i) :
    t.program.IsFeasible t.point.get := by
  refine ⟨fun j => ?_, ht.constraints_mulVec_point⟩
  rw [ht.point_get]
  exact spread_nonneg _ hv j

theorem objective_eq : t.objective = t.program.cost.get ⬝ᵥ t.point.get := by
  rw [objective, Program.objective, dot_toList, Program.basicCosts_get, ht.point_get,
    dotProduct_spread]

theorem objective_eq_price : t.objective = t.shadowPrice.get ⬝ᵥ t.program.rhs.get := by
  rw [objective, Program.objective, dot_toList, Program.basicCosts_get, ht.basicValues_get,
    ht.shadowPrice_get, Matrix.dotProduct_mulVec]
  rfl

theorem relativeCost_eq_entries (j : Fin n) :
    t.relativeCost j = t.basicCosts ⬝ᵥ t.entries.col j - t.program.cost.get j := by
  rw [t.relativeCost_eq, ht.shadowPrice_get, ← Matrix.dotProduct_mulVec]
  rfl

theorem relativeCost_basic (i : Fin m) : t.relativeCost (t.basis.get i) = 0 := by
  have hcol : t.entries.col (t.basis.get i) = Pi.single i 1 := by
    ext k
    rw [Matrix.col_apply, ht.entries_basic, Pi.single_apply]
  rw [ht.relativeCost_eq_entries, hcol, dotProduct_single_one]
  exact sub_self _

theorem cost_of_eq {x : Fin n → ℚ}
    (hx : t.program.constraints.toMatrix *ᵥ x = t.program.rhs.get) :
    t.program.cost.get ⬝ᵥ x = t.objective - t.relativeCost ⬝ᵥ x := by
  rw [t.cost_dotProduct, hx, ht.objective_eq_price]

end IsValid

theorem isPrimalFeasible_iff (t : Tableau ℚ m n) :
    t.isPrimalFeasible = true ↔ ∀ i, -t.tolerance ≤ t.basicValues.get i := by
  rw [isPrimalFeasible, isNonnegative, List.all_eq_true, toList_eq_ofFn]
  simp [List.mem_ofFn]

theorem IsValid.isPrimalFeasible_iff_point {t : Tableau ℚ m n} (ht : t.IsValid) :
    t.isPrimalFeasible = true ↔ ∀ j, -t.tolerance ≤ t.point.get j := by
  rw [t.isPrimalFeasible_iff, ht.point_get]
  constructor
  · intro h j
    by_cases hj : ∃ i, t.basis.get i = j
    · obtain ⟨i, rfl⟩ := hj
      rw [spread_basic ht.basis_injective]
      exact h i
    · push Not at hj
      rw [spread_nonbasic hj]
      exact neg_nonpos.mpr ht.tolerance_nonneg
  · intro h i
    rw [← spread_basic ht.basis_injective t.basicValues.get i]
    exact h _

theorem mem_candidates {F : Type} {t : Tableau F m n} {j : Fin n} :
    j ∈ t.candidates ↔ j.val < t.structural := by
  simp [candidates]

theorem lt_structural {t : Tableau ℚ m n} (h : t.artificial = 0) (j : Fin n) :
    j.val < t.structural := by
  rw [structural, h]
  exact j.isLt

theorem mem_nonbasicCandidates {F : Type} {t : Tableau F m n} {j : Fin n} :
    j ∈ t.nonbasicCandidates ↔ j.val < t.structural ∧ t.isBasic j = false := by
  simp [nonbasicCandidates, mem_candidates]

theorem isDualFeasible_iff (t : Tableau ℚ m n) :
    t.isDualFeasible = true ↔
      ∀ j : Fin n, j.val < t.structural → t.isBasic j = false → t.relativeCost j ≤ t.tolerance := by
  simp [isDualFeasible, mem_nonbasicCandidates]

/-- In a dual feasible tableau no column that may enter is worth much more than it costs. -/
theorem IsValid.relativeCost_le {t : Tableau ℚ m n} (ht : t.IsValid)
    (hd : t.isDualFeasible = true) {j : Fin n} (hj : j.val < t.structural) :
    t.relativeCost j ≤ t.tolerance := by
  rcases hb : t.isBasic j with _ | _
  · exact t.isDualFeasible_iff.mp hd j hj hb
  · obtain ⟨i, rfl⟩ := (t.isBasic_iff j).mp hb
    exact (ht.relativeCost_basic i).trans_le ht.tolerance_nonneg

end Tableau
end RevisedSimplex
