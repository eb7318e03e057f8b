import RevisedSimplex.Proofs.Soundness

/-! # Optima up to the tolerance

Whatever counts as zero, an optimum comes with prices at which no column is worth more than it
costs by more than the tolerance. They bound the objective of every feasible point.
-/

namespace RevisedSimplex

open Matrix

namespace Problem

variable {p : Problem ℚ} {options : Options ℚ}

/-- The point `x` satisfies the rows that were not removed, and the prices `y` of these rows are its
objective and overvalue no column by more than the tolerance. -/
structure IsNearOptimum (p : Problem ℚ) (tolerance : ℚ) (o : Optimum ℚ) (x : Fin p.columns → ℚ)
    (y : Fin p.rows → ℚ) : Prop where
  point_eq : o.point = List.ofFn x
  shadowPrice_eq : o.shadowPrice = List.ofFn y
  row_eq : ∀ i : Fin p.rows, i.val ∉ o.removedRows →
    (p.program.constraints.toMatrix *ᵥ x) i = p.program.rhs.get i
  price_eq_zero : ∀ i : Fin p.rows, i.val ∈ o.removedRows → y i = 0
  objective_eq : o.objective = p.program.cost.get ⬝ᵥ x
  price_rhs : y ⬝ᵥ p.program.rhs.get = o.objective
  price_le : ∀ j, p.objective.sign *
    (y ⬝ᵥ p.program.constraints.toMatrix.col j - p.program.cost.get j) ≤ tolerance

/-- No feasible point is better by more than the tolerance for each unit of its coordinates. -/
theorem IsNearOptimum.objective_le {tolerance : ℚ} {o : Optimum ℚ} {x : Fin p.columns → ℚ}
    {y : Fin p.rows → ℚ} (h : p.IsNearOptimum tolerance o x y) {z : Fin p.columns → ℚ}
    (hz : p.program.IsFeasible z) :
    p.objective.sign * o.objective - tolerance * ∑ j, z j ≤
      p.objective.sign * (p.program.cost.get ⬝ᵥ z) := by
  have hgain : p.objective.sign * (o.objective - p.program.cost.get ⬝ᵥ z) =
      ∑ j, p.objective.sign *
        (y ⬝ᵥ p.program.constraints.toMatrix.col j - p.program.cost.get j) * z j := by
    have hworth : o.objective = ∑ j, (y ⬝ᵥ p.program.constraints.toMatrix.col j) * z j := by
      rw [← h.price_rhs, ← hz.2, Matrix.dotProduct_mulVec]
      rfl
    rw [hworth, dotProduct, ← Finset.sum_sub_distrib, Finset.mul_sum]
    exact Finset.sum_congr rfl fun j _ => by ring
  have hbound : p.objective.sign * (o.objective - p.program.cost.get ⬝ᵥ z) ≤
      tolerance * ∑ j, z j := by
    rw [hgain, Finset.mul_sum]
    exact Finset.sum_le_sum fun j _ => mul_le_mul_of_nonneg_right (h.price_le j) (hz.1 j)
  linarith

theorem isNearOptimum_of_isDualFeasible {m : ℕ} {t : Tableau ℚ m p.columns} (ht : t.IsValid)
    (ha : t.artificial = 0) (hd : t.isDualFeasible = true) {removed : List (Fin p.rows)}
    (hres : p.standardForm.IsRestriction removed t.program) {o : Optimum ℚ}
    (ho : p.verdict .optimal t (removed.map Fin.val) = .optimal o) :
    ∃ x y, p.IsNearOptimum t.tolerance o x y := by
  obtain ⟨y, hy, hzero, hrhs, hcol⟩ := hres.price (t.shadowPrice.map (p.objective.sign * ·))
  obtain ⟨hworth, hrelative⟩ := price_spec ht hres.cost_eq hrhs hcol
  have hmem : ∀ i : Fin p.rows, i.val ∈ removed.map Fin.val ↔ i ∈ removed := fun i =>
    List.mem_map_of_injective Fin.val_injective
  cases ho
  refine ⟨t.point.get, y, toList_eq_ofFn _, ?_, fun i hi => ?_, fun i hi => ?_, ?_, hworth,
    fun j => ?_⟩
  · rw [← hy, Vector.toList_map]
  · have hrows := (hres.mulVec_eq_iff _).mp ht.constraints_mulVec_point
    rw [p.standardForm_constraints, p.standardForm_rhs] at hrows
    exact hrows i (mt (hmem i).mpr hi)
  · exact hzero i ((hmem i).mp hi)
  · exact sign_mul_objective ht hres.cost_eq
  · rw [hrelative]
    exact ht.relativeCost_le hd (Tableau.lt_structural ha j)

structure IsStart (p : Problem ℚ) (options : Options ℚ) (removed : List (Fin p.rows)) {m : ℕ}
    (t : Tableau ℚ m p.columns) : Prop extends t.IsValid where
  tolerance_eq : t.tolerance = options.tolerance
  artificial_eq : t.artificial = 0
  isRestriction : p.standardForm.IsRestriction removed t.program

theorem optimize_isNearOptimum {m : ℕ} {t : Tableau ℚ m p.columns} {removed : List (Fin p.rows)}
    (ht : p.IsStart options removed t) {before : ℕ} {s : Solution ℚ} {o : Optimum ℚ}
    (h : (p.optimize options t (removed.map Fin.val) before).outcome = .ok s)
    (ho : s.verdict = .optimal o) : ∃ x y, p.IsNearOptimum options.tolerance o x y := by
  obtain ⟨stop, hstop, h⟩ := Run.outcome_bind_eq_ok.mp h
  cases h
  obtain ⟨hfollows, hd⟩ := ht.follows_of_primal_ok hstop
  have hstatus : stop.status = .optimal := by
    cases hs : stop.status <;> rw [hs] at ho <;> first | rfl | cases ho
  rw [hstatus] at ho
  rw [← ht.tolerance_eq, ← hfollows.tolerance_eq]
  exact isNearOptimum_of_isDualFeasible hfollows.toIsValid
    (hfollows.artificial_eq.trans ht.artificial_eq) (hd hstatus)
    (hfollows.program_eq ▸ ht.isRestriction) ho

theorem isStart_of_ofIndices (htol : 0 ≤ options.tolerance) {basis : List ℕ}
    {t : Tableau ℚ p.rows p.columns}
    (h : Tableau.ofIndices p.standardForm basis options.tolerance 0 = .ok t) :
    p.IsStart options [] t := by
  obtain ⟨hv, hP, ht, ha⟩ := Tableau.isValid_of_ofIndices htol h
  exact ⟨hv, ht, ha, hP ▸ Program.IsRestriction.refl _⟩

theorem isStart_of_feasible (htol : 0 ≤ options.tolerance) {basis : List ℕ}
    {redundant : List (Fin p.rows)} {pivots : ℕ}
    (h : (p.standardForm.feasibility options).outcome = .ok (.feasible basis redundant, pivots))
    {t : Tableau ℚ (remainingRows redundant).length p.columns}
    (ht : Tableau.ofIndices (p.standardForm.withoutRows redundant) basis options.tolerance 0 =
      .ok t) : p.IsStart options redundant t := by
  obtain ⟨start, stop, repair, hone, -, rfl, -⟩ := Program.exists_isPhaseOne h
  obtain ⟨hv, hP, htol', ha⟩ := Tableau.isValid_of_ofIndices htol ht
  exact ⟨hv, htol', ha,
    hP ▸ Program.isRestriction_withoutRows _ (hone.tracks htol).sorted_redundant⟩

/-- An optimum satisfies the rows that were not removed, and its shadow price bounds the objective
of every feasible point up to the tolerance. -/
theorem solve_isNearOptimum (htol : 0 ≤ options.tolerance) {basis : Option (List ℕ)}
    {s : Solution ℚ} {o : Optimum ℚ} (h : (p.solve options basis).outcome = .ok s)
    (ho : s.verdict = .optimal o) :
    ∃ x y, p.IsNearOptimum options.tolerance o x y ∧
      ∀ z, p.program.IsFeasible z → p.objective.sign * o.objective - options.tolerance * ∑ j, z j ≤
        p.objective.sign * (p.program.cost.get ⬝ᵥ z) := by
  suffices hnear : ∃ x y, p.IsNearOptimum options.tolerance o x y by
    obtain ⟨x, y, hnear⟩ := hnear
    exact ⟨x, y, hnear, fun z => hnear.objective_le⟩
  obtain ⟨-, -, h⟩ := Run.outcome_bind_eq_ok.mp h
  cases basis with
  | some basis =>
    obtain ⟨t, ht, h⟩ := Run.outcome_bind_eq_ok.mp h
    split at h
    · exact optimize_isNearOptimum (isStart_of_ofIndices htol ht) h ho
    · cases h
  | none =>
    obtain ⟨⟨answer, pivots⟩, hanswer, hrest⟩ := Run.outcome_bind_eq_ok.mp h
    cases answer with
    | infeasible =>
      cases hrest
      cases ho
    | feasible basis redundant =>
      have h' := (solveTwoPhase_of_feasible hanswer).2.symm.trans h
      obtain ⟨t, ht, h'⟩ := Run.outcome_bind_eq_ok.mp h'
      exact optimize_isNearOptimum (isStart_of_feasible htol hanswer ht) h' ho

theorem solve_isNearOptimum_repeatedRow :
    ∃ s o, (repeatedRow.solve { tolerance := 1 / 10, feasibilityTolerance := 1 / 10 }
        none).outcome = .ok s ∧ s.verdict = .optimal o ∧ o.removedRows = [0] ∧
      ∃ x y, repeatedRow.IsNearOptimum (1 / 10) o x y := by
  have h : (repeatedRow.solve { tolerance := 1 / 10, feasibilityTolerance := 1 / 10 }
      none).outcome.toOption.map (·.verdict.optimum?.map (·.removedRows)) = some (some [0]) := by
    decide +kernel
  obtain ⟨s, o, hs, ho, hremoved⟩ := exists_optimum_of_toOption_map h
  have htol : 0 ≤ ({ tolerance := 1 / 10, feasibilityTolerance := 1 / 10 } :
      Options ℚ).tolerance := by decide +kernel
  obtain ⟨x, y, hnear, -⟩ := solve_isNearOptimum htol hs ho
  exact ⟨s, o, hs, ho, hremoved, x, y, hnear⟩

end Problem
end RevisedSimplex
