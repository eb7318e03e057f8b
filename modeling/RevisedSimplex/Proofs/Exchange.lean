import RevisedSimplex.Proofs.Bases
import RevisedSimplex.Proofs.Evaluation

/-! # Exchange of a basic column

A tableau that is evaluated from scratch after a pivot is the one that elimination with
the pivot entry gives. With tolerance zero a pivot succeeds exactly on nonzero entries.
-/

namespace RevisedSimplex

open Matrix

variable {m n : ℕ}

namespace Tableau

variable {t t' : Tableau ℚ m n} {i : Fin m} {j : Fin n}

def exchangedInverse (t : Tableau ℚ m n) (i : Fin m) (j : Fin n) : Matrix (Fin m) (Fin m) ℚ :=
  fun l =>
    if l = i then (1 / t.entries i j) • t.inverse i
    else t.inverse l - (t.entries l j / t.entries i j) • t.inverse i

theorem inverse_dotProduct_col (t : Tableau ℚ m n) (l : Fin m) (k : Fin n) :
    t.inverse l ⬝ᵥ t.program.constraints.toMatrix.col k = t.entries l k := rfl

theorem basisMatrix_set_col (t : Tableau ℚ m n) (i : Fin m) (j : Fin n) (k : Fin m) :
    (t.program.basisMatrix (t.basis.set i j i.isLt)).col k =
      t.program.constraints.toMatrix.col (if k = i then j else t.basis.get k) := by
  rw [← set_get]
  rfl

theorem IsValid.exchangedInverse_mul (ht : t.IsValid) (hp : t.entries i j ≠ 0) :
    t.exchangedInverse i j * t.program.basisMatrix (t.basis.set i j i.isLt) = 1 := by
  ext l k
  change t.exchangedInverse i j l ⬝ᵥ
    (t.program.basisMatrix (t.basis.set i j i.isLt)).col k = _
  rw [basisMatrix_set_col, Matrix.one_apply]
  by_cases hk : k = i <;> by_cases hl : l = i
  · subst hk hl
    simp [exchangedInverse, smul_dotProduct, inverse_dotProduct_col, hp]
  · subst hk
    simp [exchangedInverse, hl, sub_dotProduct, smul_dotProduct, inverse_dotProduct_col, hp]
  · subst hl
    simp [exchangedInverse, hk, smul_dotProduct, inverse_dotProduct_col, ht.entries_basic,
      Ne.symm hk]
  · simp [exchangedInverse, hk, hl, sub_dotProduct, smul_dotProduct, inverse_dotProduct_col,
      ht.entries_basic, Ne.symm hk]

/-- The tableau `t'` has the basis of `t` with column `j` in row `i`. -/
structure IsExchange (t t' : Tableau ℚ m n) (i : Fin m) (j : Fin n) : Prop where
  valid : t'.IsValid
  program_eq : t'.program = t.program
  basis_eq : t'.basis = t.basis.set i j i.isLt
  tolerance_eq : t'.tolerance = t.tolerance
  artificial_eq : t'.artificial = t.artificial
  entry_ne : t.entries i j ≠ 0

theorem IsValid.entry_ne_of_mul_eq (ht : t.IsValid) {X : Matrix (Fin m) (Fin m) ℚ}
    (hX : t.program.basisMatrix (t.basis.set i j i.isLt) * X = 1) : t.entries i j ≠ 0 := by
  intro hz
  have hrow : t.inverse i ᵥ* t.program.basisMatrix (t.basis.set i j i.isLt) = 0 := by
    ext k
    change t.inverse i ⬝ᵥ (t.program.basisMatrix (t.basis.set i j i.isLt)).col k = 0
    rw [basisMatrix_set_col, inverse_dotProduct_col]
    by_cases hk : k = i
    · rw [if_pos hk, hz]
    · rw [if_neg hk, ht.entries_basic, if_neg (Ne.symm hk)]
  have hzero : t.inverse i = 0 := by
    calc t.inverse i
        = t.inverse i ᵥ* (t.program.basisMatrix (t.basis.set i j i.isLt) * X) := by
          rw [hX, Matrix.vecMul_one]
      _ = 0 := by rw [← Matrix.vecMul_vecMul, hrow, Matrix.zero_vecMul]
  have hone := ht.entries_basic i i
  rw [← inverse_dotProduct_col, hzero, zero_dotProduct, if_pos rfl] at hone
  exact zero_ne_one hone

theorem IsValid.isExchange_of_pivot (ht : t.IsValid) (h : t.pivot i j = .ok t') :
    IsExchange t t' i j := by
  obtain ⟨hv, hP, hb, htol, hart⟩ := isValid_of_ofBasis ht.tolerance_nonneg h
  refine ⟨hv, hP, hb, htol, hart, ?_⟩
  have hmul := hv.basisMatrix_mul_inverse
  rw [hP, hb] at hmul
  exact ht.entry_ne_of_mul_eq hmul

theorem IsValid.pivot_exists (ht : t.IsValid) (h0 : t.tolerance = 0) (hp : t.entries i j ≠ 0) :
    ∃ t', t.pivot i j = .ok t' := by
  rw [pivot, h0]
  refine ofBasis_exists (fun v hv => ?_) _
  calc v = (t.exchangedInverse i j * t.program.basisMatrix (t.basis.set i j i.isLt)) *ᵥ v := by
        rw [ht.exchangedInverse_mul hp, Matrix.one_mulVec]
    _ = 0 := by rw [← Matrix.mulVec_mulVec, hv, Matrix.mulVec_zero]

namespace IsExchange

variable (h : IsExchange t t' i j) (ht : t.IsValid)

include h

theorem basis_get (k : Fin m) : t'.basis.get k = if k = i then j else t.basis.get k := by
  rw [h.basis_eq, set_get]

include ht

theorem inverse_eq : t'.inverse = t.exchangedInverse i j := by
  have hmul := h.valid.basisMatrix_mul_inverse
  rw [h.program_eq, h.basis_eq] at hmul
  exact (left_inv_eq_right_inv (ht.exchangedInverse_mul h.entry_ne) hmul).symm

theorem entries_pivot (k : Fin n) : t'.entries i k = t.entries i k / t.entries i j := by
  rw [← inverse_dotProduct_col, h.inverse_eq ht, h.program_eq, exchangedInverse, if_pos rfl,
    smul_dotProduct, inverse_dotProduct_col, smul_eq_mul, one_div_mul_eq_div]

theorem entries_other {l : Fin m} (hl : l ≠ i) (k : Fin n) :
    t'.entries l k = t.entries l k - t.entries l j / t.entries i j * t.entries i k := by
  rw [← inverse_dotProduct_col, h.inverse_eq ht, h.program_eq, exchangedInverse, if_neg hl,
    sub_dotProduct, smul_dotProduct, inverse_dotProduct_col, inverse_dotProduct_col, smul_eq_mul]

theorem basicValues_pivot : t'.basicValues.get i = t.basicValues.get i / t.entries i j := by
  rw [h.valid.basicValues_get, ht.basicValues_get, h.inverse_eq ht, h.program_eq]
  change t.exchangedInverse i j i ⬝ᵥ _ = (t.inverse i ⬝ᵥ _) / _
  rw [exchangedInverse, if_pos rfl, smul_dotProduct, smul_eq_mul, one_div_mul_eq_div]

theorem basicValues_other {l : Fin m} (hl : l ≠ i) :
    t'.basicValues.get l =
      t.basicValues.get l - t.entries l j / t.entries i j * t.basicValues.get i := by
  rw [h.valid.basicValues_get, ht.basicValues_get, h.inverse_eq ht, h.program_eq]
  change t.exchangedInverse i j l ⬝ᵥ _ = t.inverse l ⬝ᵥ _ - _ * (t.inverse i ⬝ᵥ _)
  rw [exchangedInverse, if_neg hl, sub_dotProduct, smul_dotProduct, smul_eq_mul]

theorem shadowPrice_eq :
    t'.shadowPrice.get =
      t.shadowPrice.get - (t.relativeCost j / t.entries i j) • t.inverse i := by
  apply h.valid.shadowPrice_eq_of_vecMul
  rw [h.program_eq, h.basis_eq]
  ext k
  change (_ - _ • t.inverse i) ⬝ᵥ (t.program.basisMatrix (t.basis.set i j i.isLt)).col k =
    t'.program.cost.get (t'.basis.get k)
  rw [basisMatrix_set_col, h.program_eq, h.basis_get, sub_dotProduct, smul_dotProduct,
    inverse_dotProduct_col, smul_eq_mul]
  by_cases hk : k = i
  · rw [if_pos hk, div_mul_cancel₀ _ h.entry_ne, relativeCost_eq, sub_sub_cancel]
  · have hz := ht.relativeCost_basic k
    rw [relativeCost_eq, sub_eq_zero] at hz
    rw [if_neg hk, ht.entries_basic, if_neg (Ne.symm hk), mul_zero, sub_zero, hz]

theorem relativeCost_eq (k : Fin n) :
    t'.relativeCost k =
      t.relativeCost k - t.relativeCost j / t.entries i j * t.entries i k := by
  rw [Tableau.relativeCost_eq, Tableau.relativeCost_eq t k, h.shadowPrice_eq ht, h.program_eq,
    sub_dotProduct, smul_dotProduct, inverse_dotProduct_col, smul_eq_mul, sub_right_comm]

theorem objective_eq :
    t'.objective =
      t.objective - t.relativeCost j / t.entries i j * t.basicValues.get i := by
  rw [h.valid.objective_eq_price, ht.objective_eq_price, h.shadowPrice_eq ht, h.program_eq,
    sub_dotProduct, smul_dotProduct, smul_eq_mul, ht.basicValues_get]
  rfl

theorem point_eq (hi : t.basicValues.get i = 0) : t'.point.get = t.point.get := by
  refine (h.valid.eq_point (h.program_eq ▸ ht.constraints_mulVec_point) fun k hk => ?_).symm
  rw [ht.point_get]
  by_cases hbasic : ∃ l, t.basis.get l = k
  · obtain ⟨l, rfl⟩ := hbasic
    obtain rfl : l = i := by
      by_contra hl
      exact hk l (by rw [h.basis_get, if_neg hl])
    rw [spread_basic ht.basis_injective, hi]
  · push Not at hbasic
    exact spread_nonbasic hbasic _

/-- A pivot in a row of minimal ratio keeps the basic values nonnegative. -/
theorem basicValues_nonneg (hv : ∀ l, 0 ≤ t.basicValues.get l) (hp : 0 < t.entries i j)
    (hmin : ∀ l, 0 < t.entries l j →
      t.basicValues.get i / t.entries i j ≤ t.basicValues.get l / t.entries l j) (l : Fin m) :
    0 ≤ t'.basicValues.get l := by
  by_cases hl : l = i
  · rw [hl, h.basicValues_pivot ht]
    exact div_nonneg (hv i) hp.le
  · rw [h.basicValues_other ht hl, div_mul_eq_mul_div, mul_div_assoc, sub_nonneg]
    have hratio : 0 ≤ t.basicValues.get i / t.entries i j := div_nonneg (hv i) hp.le
    rcases lt_or_ge 0 (t.entries l j) with hlj | hlj
    · rw [mul_comm]
      exact (le_div_iff₀ hlj).mp (hmin l hlj)
    · exact (mul_nonpos_of_nonpos_of_nonneg hlj hratio).trans (hv l)

/-- A pivot in a column of minimal ratio keeps the relative costs from becoming positive. -/
theorem relativeCost_nonpos (hz : ∀ k, t.relativeCost k ≤ 0) (hp : t.entries i j < 0)
    (hmin : ∀ k, t.entries i k < 0 →
      t.relativeCost j / t.entries i j ≤ t.relativeCost k / t.entries i k) (k : Fin n) :
    t'.relativeCost k ≤ 0 := by
  rw [h.relativeCost_eq ht, sub_nonpos]
  have hratio : 0 ≤ t.relativeCost j / t.entries i j := div_nonneg_of_nonpos (hz j) hp.le
  rcases lt_or_ge (t.entries i k) 0 with hk | hk
  · exact (le_div_iff_of_neg hk).mp (hmin k hk)
  · exact (hz k).trans (mul_nonneg hratio hk)

end IsExchange
end Tableau
end RevisedSimplex
