import RevisedSimplex.Proofs.Evaluation

/-! # Certificates in a tableau

Relative costs that are not positive price every feasible point at no less than the basic
one. A profitable column without a positive entry is a direction of unlimited gain, and a
negative basic value in a row without a negative entry excludes every feasible point.
-/

namespace RevisedSimplex

open Matrix

variable {m n : ℕ}

namespace Tableau

/-- How the basic solution moves per unit of the nonbasic column `j`. -/
def direction (t : Tableau ℚ m n) (j : Fin n) : Fin n → ℚ :=
  Pi.single j 1 - spread t.basis (t.entries.col j)

namespace IsValid

variable {t : Tableau ℚ m n} (ht : t.IsValid)

include ht

theorem constraints_mulVec_direction (j : Fin n) :
    t.program.constraints.toMatrix *ᵥ t.direction j = 0 := by
  have hcol : t.entries.col j = t.inverse *ᵥ t.program.constraints.toMatrix.col j := rfl
  rw [direction, Matrix.mulVec_sub, Matrix.mulVec_single_one, hcol,
    ht.constraints_mulVec_spread, sub_self]

theorem cost_dotProduct_direction (j : Fin n) :
    t.program.cost.get ⬝ᵥ t.direction j = -t.relativeCost j := by
  rw [direction, dotProduct_sub, dotProduct_single_one, dotProduct_spread,
    ht.relativeCost_eq_entries, neg_sub]
  rfl

theorem direction_basic {j : Fin n} (hj : ∀ i, t.basis.get i ≠ j) (i : Fin m) :
    t.direction j (t.basis.get i) = -t.entries i j := by
  rw [direction, Pi.sub_apply, spread_basic ht.basis_injective, Pi.single_eq_of_ne (hj i), zero_sub]
  rfl

omit ht in
theorem direction_self {j : Fin n} (hj : ∀ i, t.basis.get i ≠ j) : t.direction j j = 1 := by
  rw [direction, Pi.sub_apply, spread_nonbasic hj, Pi.single_eq_same, sub_zero]

omit ht in
theorem direction_nonbasic {j k : Fin n} (hk : ∀ i, t.basis.get i ≠ k) (hkj : k ≠ j) :
    t.direction j k = 0 := by
  rw [direction, Pi.sub_apply, spread_nonbasic hk, Pi.single_eq_of_ne hkj, sub_zero]

theorem direction_nonneg {j : Fin n} (hj : ∀ i, t.basis.get i ≠ j)
    (hcol : ∀ i, t.entries i j ≤ 0) (k : Fin n) : 0 ≤ t.direction j k := by
  by_cases hk : ∃ i, t.basis.get i = k
  · obtain ⟨i, rfl⟩ := hk
    rw [ht.direction_basic hj]
    exact neg_nonneg.mpr (hcol i)
  · push Not at hk
    by_cases hkj : k = j
    · rw [hkj, direction_self hj]
      exact zero_le_one
    · rw [direction_nonbasic hk hkj]

/-- Prices at which no column is worth more than it costs bound the cost from below. -/
theorem objective_le_cost (hz : ∀ j, t.relativeCost j ≤ 0) {x : Fin n → ℚ}
    (hx : t.program.IsFeasible x) : t.objective ≤ t.program.cost.get ⬝ᵥ x := by
  have hgain : t.relativeCost ⬝ᵥ x ≤ 0 :=
    Finset.sum_nonpos fun j _ => mul_nonpos_of_nonpos_of_nonneg (hz j) (hx.1 j)
  rw [ht.cost_of_eq hx.2]
  linarith

/-- A profitable column without a positive entry makes the cost of feasible points unbounded. -/
theorem exists_cost_lt (hv : ∀ i, 0 ≤ t.basicValues.get i) {j : Fin n}
    (hj : ∀ i, t.basis.get i ≠ j) (hz : 0 < t.relativeCost j) (hcol : ∀ i, t.entries i j ≤ 0)
    (bound : ℚ) : ∃ x, t.program.IsFeasible x ∧ t.program.cost.get ⬝ᵥ x < bound := by
  obtain ⟨hp, hA⟩ := ht.isFeasible_point hv
  -- a step that gains more than the distance from the objective to the bound
  let step := (|t.objective - bound| + 1) / t.relativeCost j
  have hstep : 0 ≤ step := by positivity
  refine ⟨t.point.get + step • t.direction j, ⟨fun k => ?_, ?_⟩, ?_⟩
  · exact add_nonneg (hp k) (mul_nonneg hstep (ht.direction_nonneg hj hcol k))
  · rw [Matrix.mulVec_add, Matrix.mulVec_smul, ht.constraints_mulVec_direction, smul_zero, add_zero,
      hA]
  · have hgain : step * t.relativeCost j = |t.objective - bound| + 1 :=
      div_mul_cancel₀ _ hz.ne'
    rw [dotProduct_add, dotProduct_smul, ht.cost_dotProduct_direction, ← ht.objective_eq,
      smul_eq_mul, mul_neg, hgain]
    linarith [le_abs_self (t.objective - bound)]

/-- A row without a negative entry and with a negative basic value has no feasible point. -/
theorem not_isFeasible {i : Fin m} (hv : t.basicValues.get i < 0) (hrow : ∀ j, 0 ≤ t.entries i j)
    (x : Fin n → ℚ) : ¬ t.program.IsFeasible x := by
  rintro ⟨hx, hA⟩
  have hi : (t.entries *ᵥ x) i = t.basicValues.get i := congrFun (ht.entries_mulVec_of_eq hA) i
  have hpos : 0 ≤ (t.entries *ᵥ x) i := Finset.sum_nonneg fun j _ => mul_nonneg (hrow j) (hx j)
  linarith

end IsValid
end Tableau
end RevisedSimplex
