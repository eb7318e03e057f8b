import RevisedSimplex.Proofs.Primal
import RevisedSimplex.Run.Feasibility

/-! # The auxiliary program

Its feasible points are the points of the program together with what the rows lack. The
artificial cost is never negative, and a positive minimum excludes every feasible point.
-/

namespace RevisedSimplex

open Matrix

variable {m n : ℕ}

namespace Program

/-- The factor that makes the right-hand side of a row nonnegative. -/
def rowSign (P : Program ℚ m n) (i : Fin m) : ℚ := if P.rhs.get i < 0 then -1 else 1

theorem rowSign_mul_self (P : Program ℚ m n) (i : Fin m) : P.rowSign i * P.rowSign i = 1 := by
  unfold rowSign
  split <;> norm_num

theorem signed_get (P : Program ℚ m n) (i : Fin m) (j : Fin n) :
    P.signed.constraints.get i j = P.rowSign i * P.constraints.get i j := by
  simp only [signed, RowMatrix.get, rowSign, Vector.get_ofFn]
  split
  · rw [Vector.get_map]
    exact mul_comm _ _
  · rw [one_mul]
    rfl

theorem signed_rhs_get (P : Program ℚ m n) (i : Fin m) :
    P.signed.rhs.get i = P.rowSign i * P.rhs.get i := by
  rw [signed, Vector.get_map, magnitude_eq_abs, rowSign]
  split
  · rename_i h
    rw [abs_of_neg h, neg_one_mul]
  · rename_i h
    rw [abs_of_nonneg (not_lt.mp h), one_mul]

theorem signed_rhs_nonneg (P : Program ℚ m n) (i : Fin m) : 0 ≤ P.signed.rhs.get i := by
  rw [signed, Vector.get_map, magnitude_eq_abs]
  exact abs_nonneg _

theorem signed_mulVec (P : Program ℚ m n) (x : Fin n → ℚ) (i : Fin m) :
    (P.signed.constraints.toMatrix *ᵥ x) i = P.rowSign i * (P.constraints.toMatrix *ᵥ x) i := by
  simp only [Matrix.mulVec, dotProduct, RowMatrix.toMatrix_apply, signed_get, Finset.mul_sum,
    mul_assoc]

theorem signed_vecMul (P : Program ℚ m n) (y : Fin m → ℚ) :
    y ᵥ* P.signed.constraints.toMatrix = (P.rowSign * y) ᵥ* P.constraints.toMatrix := by
  ext j
  simp only [Matrix.vecMul, dotProduct, RowMatrix.toMatrix_apply, signed_get, Pi.mul_apply]
  exact Finset.sum_congr rfl fun i _ => by ring

theorem dotProduct_signed_rhs (P : Program ℚ m n) (y : Fin m → ℚ) :
    y ⬝ᵥ P.signed.rhs.get = (P.rowSign * y) ⬝ᵥ P.rhs.get := by
  simp only [dotProduct, signed_rhs_get, Pi.mul_apply]
  exact Finset.sum_congr rfl fun i _ => by ring

theorem signed_row_iff (P : Program ℚ m n) (x : Fin n → ℚ) (i : Fin m) :
    (P.signed.constraints.toMatrix *ᵥ x) i = P.signed.rhs.get i ↔
      (P.constraints.toMatrix *ᵥ x) i = P.rhs.get i := by
  rw [signed_mulVec, signed_rhs_get]
  constructor
  · intro h
    have h' := congrArg (P.rowSign i * ·) h
    simpa only [← mul_assoc, rowSign_mul_self, one_mul] using h'
  · exact congrArg _

theorem auxiliary_get_structural (P : Program ℚ m n) (i : Fin m) (j : Fin n) :
    P.auxiliary.constraints.get i (j.castAdd m) = P.signed.constraints.get i j :=
  RowMatrix.get_beside_left ..

theorem auxiliary_get_artificial (P : Program ℚ m n) (i k : Fin m) :
    P.auxiliary.constraints.get i (artificialColumn n k) = if i = k then 1 else 0 := by
  rw [auxiliary, artificialColumn, RowMatrix.get_beside_right, RowMatrix.get_identity]

theorem auxiliary_cost_structural (P : Program ℚ m n) (j : Fin n) :
    P.auxiliary.cost.get (j.castAdd m) = 0 := by
  simp [auxiliary, get_eq_getElem]

theorem auxiliary_cost_artificial (P : Program ℚ m n) (k : Fin m) :
    P.auxiliary.cost.get (artificialColumn n k) = 1 := by
  simp [auxiliary, get_eq_getElem, artificialColumn]

theorem auxiliary_mulVec (P : Program ℚ m n) (z : Fin (n + m) → ℚ) :
    P.auxiliary.constraints.toMatrix *ᵥ z =
      P.signed.constraints.toMatrix *ᵥ (z ∘ Fin.castAdd m) + z ∘ artificialColumn n := by
  ext i
  simp only [Matrix.mulVec, dotProduct, Fin.sum_univ_add, Pi.add_apply, RowMatrix.toMatrix_apply,
    auxiliary_get_structural, Function.comp_apply]
  congr 1
  change ∑ k, P.auxiliary.constraints.get i (artificialColumn n k) * z (artificialColumn n k) = _
  simp only [auxiliary_get_artificial, ite_mul, one_mul, zero_mul, Finset.sum_ite_eq,
    Finset.mem_univ, if_true]

theorem auxiliary_cost_dotProduct (P : Program ℚ m n) (z : Fin (n + m) → ℚ) :
    P.auxiliary.cost.get ⬝ᵥ z = ∑ k, z (artificialColumn n k) := by
  simp only [dotProduct, Fin.sum_univ_add, auxiliary_cost_structural, zero_mul,
    Finset.sum_const_zero, zero_add]
  change ∑ k, P.auxiliary.cost.get (artificialColumn n k) * z (artificialColumn n k) = _
  simp only [auxiliary_cost_artificial, one_mul]

theorem auxiliary_cost_nonneg (P : Program ℚ m n) {z : Fin (n + m) → ℚ} (hz : ∀ j, 0 ≤ z j) :
    0 ≤ P.auxiliary.cost.get ⬝ᵥ z := by
  rw [auxiliary_cost_dotProduct]
  exact Finset.sum_nonneg fun k _ => hz _

end Program

theorem artificialColumn_injective :
    Function.Injective (artificialColumn n : Fin m → Fin (n + m)) :=
  Fin.natAdd_injective m n

theorem castAdd_ne_artificialColumn (j : Fin n) (k : Fin m) :
    j.castAdd m ≠ artificialColumn n k := by
  intro h
  have hv := congrArg Fin.val h
  rw [artificialColumn, Fin.val_castAdd, Fin.val_natAdd] at hv
  omega

theorem column_cases (j : Fin (n + m)) :
    (∃ k : Fin n, j = k.castAdd m) ∨ ∃ k : Fin m, j = artificialColumn n k := by
  refine Fin.addCases (fun k => Or.inl ⟨k, rfl⟩) (fun k => Or.inr ⟨k, rfl⟩) j

def structuralPoint (m : ℕ) (x : Fin n → ℚ) : Fin (n + m) → ℚ := Fin.append x 0

@[simp] theorem structuralPoint_castAdd (x : Fin n → ℚ) (j : Fin n) :
    structuralPoint m x (j.castAdd m) = x j :=
  Fin.append_left ..

@[simp] theorem structuralPoint_artificial (x : Fin n → ℚ) (k : Fin m) :
    structuralPoint m x (artificialColumn n k) = 0 :=
  Fin.append_right ..

theorem auxiliary_mulVec_structuralPoint (P : Program ℚ m n) (x : Fin n → ℚ) :
    P.auxiliary.constraints.toMatrix *ᵥ structuralPoint m x =
      P.signed.constraints.toMatrix *ᵥ x := by
  have hx : structuralPoint m x ∘ Fin.castAdd m = x := funext fun j => structuralPoint_castAdd x j
  have ha : structuralPoint m x ∘ artificialColumn n = 0 :=
    funext fun k => structuralPoint_artificial x k
  rw [Program.auxiliary_mulVec, hx, ha, add_zero]

theorem auxiliary_of_isFeasible {P : Program ℚ m n} {x : Fin n → ℚ} (hx : P.IsFeasible x) :
    P.auxiliary.constraints.toMatrix *ᵥ structuralPoint m x = P.auxiliary.rhs.get := by
  rw [auxiliary_mulVec_structuralPoint]
  exact funext fun i => (P.signed_row_iff x i).mpr (congrFun hx.2 i)

namespace Tableau

theorem structural_of_artificial {F : Type} {t : Tableau F m (n + m)} (h : t.artificial = m) :
    t.structural = n := by
  rw [structural, h, Nat.add_sub_cancel]

section Program

variable {P : Program ℚ m n} {t : Tableau ℚ m (n + m)} (hP : t.program = P.auxiliary)

include hP

theorem inverse_eq_artificial (r k : Fin m) :
    t.inverse r k = t.entries r (artificialColumn n k) := by
  have hcol : t.program.constraints.toMatrix.col (artificialColumn n k) = Pi.single k 1 := by
    ext i
    rw [Matrix.col_apply, RowMatrix.toMatrix_apply, hP, Program.auxiliary_get_artificial,
      Pi.single_apply]
  rw [← inverse_dotProduct_col, hcol, dotProduct_single_one]

theorem entries_structural (r : Fin m) (j : Fin n) :
    t.entries r (j.castAdd m) = (t.inverse r ᵥ* P.signed.constraints.toMatrix) j := by
  rw [← inverse_dotProduct_col, hP]
  simp only [Matrix.vecMul, dotProduct, Matrix.col_apply, RowMatrix.toMatrix_apply,
    Program.auxiliary_get_structural]

end Program

theorem IsValid.point_artificial {t : Tableau ℚ m (n + m)} (ht : t.IsValid)
    (hzero : ∀ r k, t.basis.get r = artificialColumn n k → t.basicValues.get r = 0) (k : Fin m) :
    t.point.get (artificialColumn n k) = 0 := by
  rw [ht.point_get]
  by_cases hk : ∃ r, t.basis.get r = artificialColumn n k
  · obtain ⟨r, hr⟩ := hk
    rw [← hr, spread_basic ht.basis_injective, hzero r k hr]
  · push Not at hk
    exact spread_nonbasic hk _

/-- A tableau that phase one can visit. -/
structure IsAuxiliary (P : Program ℚ m n) (t : Tableau ℚ m (n + m)) : Prop
    extends t.IsBasicFeasible where
  program_eq : t.program = P.auxiliary
  artificial_eq : t.artificial = m

namespace IsAuxiliary

variable {P : Program ℚ m n} {t t' : Tableau ℚ m (n + m)}

theorem of_continues (ht : IsAuxiliary P t) (h : Continues t t') : IsAuxiliary P t' :=
  ⟨h.toIsBasicFeasible, h.program_eq.trans ht.program_eq, h.artificial_eq.trans ht.artificial_eq⟩

variable (ht : IsAuxiliary P t)

include ht

theorem structural_eq : t.structural = n := structural_of_artificial ht.artificial_eq

theorem castAdd_lt_structural (j : Fin n) : (j.castAdd m).val < t.structural := by
  rw [ht.structural_eq, Fin.val_castAdd]
  exact j.isLt

/-- An optimal artificial cost above zero leaves no feasible point. -/
theorem not_isFeasible_of_optimal (hd : t.isDualFeasible = true) (ho : 0 < t.objective)
    (x : Fin n → ℚ) : ¬ P.IsFeasible x := by
  intro hx
  have hcost := ht.cost_of_eq (x := structuralPoint m x)
    (by rw [ht.program_eq]; exact auxiliary_of_isFeasible hx)
  have hgain : t.relativeCost ⬝ᵥ structuralPoint m x ≤ 0 := by
    apply Finset.sum_nonpos
    intro j _
    rcases column_cases j with ⟨k, rfl⟩ | ⟨k, rfl⟩
    · rw [structuralPoint_castAdd]
      exact mul_nonpos_of_nonpos_of_nonneg (ht.relativeCost_nonpos hd (ht.castAdd_lt_structural k))
        (hx.1 k)
    · rw [structuralPoint_artificial, mul_zero]
  rw [ht.program_eq, Program.auxiliary_cost_dotProduct] at hcost
  simp only [structuralPoint_artificial, Finset.sum_const_zero] at hcost
  linarith

/-- The artificial cost is bounded from below, so phase one finds no unbounded direction. -/
theorem status_eq_optimal {status : Status} (h : PrimalStop t status) : status = .optimal := by
  cases h with
  | optimal => rfl
  | unbounded hb hz hcol =>
    obtain ⟨z, hz, hlt⟩ := ht.exists_cost_lt ht.basicValues_nonneg hb hz hcol 0
    rw [ht.program_eq] at hz hlt
    exact absurd hlt (not_lt.mpr (P.auxiliary_cost_nonneg hz.1))

theorem basicValues_eq_zero (ho : t.objective ≤ 0) {r k : Fin m}
    (hr : t.basis.get r = artificialColumn n k) : t.basicValues.get r = 0 := by
  have hpoint := ht.isFeasible_point ht.basicValues_nonneg
  rw [ht.objective_eq, ht.program_eq, Program.auxiliary_cost_dotProduct] at ho
  have hzero : t.point.get (artificialColumn n k) = 0 := by
    have hsum := le_antisymm ho (Finset.sum_nonneg fun i _ => hpoint.1 (artificialColumn n i))
    exact (Finset.sum_eq_zero_iff_of_nonneg fun i _ => hpoint.1 _).mp hsum k (Finset.mem_univ k)
  rw [ht.point_get, ← hr, spread_basic ht.basis_injective] at hzero
  exact hzero

end IsAuxiliary

theorem artificialBasis_get (k : Fin m) : (artificialBasis m n).get k = artificialColumn n k := by
  rw [artificialBasis, Vector.get_ofFn]

theorem auxiliary_basisMatrix (P : Program ℚ m n) :
    P.auxiliary.basisMatrix (artificialBasis m n) = 1 := by
  ext i k
  rw [Program.basisMatrix, Matrix.submatrix_apply, artificialBasis_get, id_eq,
    RowMatrix.toMatrix_apply, Program.auxiliary_get_artificial, Matrix.one_apply]

theorem basicValues_of_start {P : Program ℚ m n} {tolerance : ℚ} (htol : 0 ≤ tolerance)
    {t : Tableau ℚ m (n + m)}
    (h : ofBasis P.auxiliary (artificialBasis m n) tolerance m = .ok t) (i : Fin m) :
    t.basicValues.get i = P.signed.rhs.get i := by
  obtain ⟨hv, hP, hb, -, -⟩ := isValid_of_ofBasis htol h
  have hinv : t.inverse = 1 := by
    have hmul := hv.inverse_mul_basisMatrix
    rwa [hP, hb, auxiliary_basisMatrix, mul_one] at hmul
  rw [hv.basicValues_get, hinv, Matrix.one_mulVec, hP]
  rfl

theorem isAuxiliary_of_start {P : Program ℚ m n} {tolerance : ℚ} (h0 : tolerance = 0)
    {t : Tableau ℚ m (n + m)}
    (h : ofBasis P.auxiliary (artificialBasis m n) tolerance m = .ok t) : IsAuxiliary P t := by
  obtain ⟨hv, hP, -, htol, hart⟩ := isValid_of_ofBasis h0.ge h
  refine ⟨⟨⟨hv, htol.trans h0⟩, fun i => ?_⟩, hP, hart⟩
  rw [basicValues_of_start h0.ge h]
  exact P.signed_rhs_nonneg i

theorem start_exists (P : Program ℚ m n) :
    ∃ t, ofBasis P.auxiliary (artificialBasis m n) 0 m = .ok t := by
  refine ofBasis_exists (fun v hv => ?_) m
  rwa [auxiliary_basisMatrix, Matrix.one_mulVec] at hv

end Tableau
end RevisedSimplex
