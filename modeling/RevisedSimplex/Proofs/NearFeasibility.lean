import RevisedSimplex.Proofs.Overstep
import RevisedSimplex.Proofs.Soundness

/-! # Feasibility up to the tolerance

The points of a solve from a basis are nonnegative up to the tolerance exactly if no pivot
oversteps. None does in exact arithmetic or on unimodular data, but one can on other data.
-/

namespace RevisedSimplex

/-- No coordinate of a snapshot or of the optimum is below zero by more than the tolerance. -/
structure Run.IsNearlyFeasible (tolerance : ℚ) (r : Run ℚ (Solution ℚ)) : Prop where
  snapshots : ∀ s ∈ r.snapshots, ∀ x ∈ s.solution, -tolerance ≤ x
  optimum : ∀ s o, r.outcome = .ok s → s.verdict = .optimal o → ∀ x ∈ o.point, -tolerance ≤ x

namespace Problem

variable {p : Problem ℚ} {options : Options ℚ} (htol : 0 ≤ options.tolerance)

include htol

theorem isNearlyFeasible_iff_visits {basis : List ℕ} {t : Tableau ℚ p.rows p.columns}
    (ht : Tableau.ofIndices p.standardForm basis options.tolerance 0 = .ok t)
    (hf : t.isPrimalFeasible = true) :
    (p.solve options (some basis)).IsNearlyFeasible options.tolerance ↔
      ∀ v ∈ (t.primal .two options).visits, v.tableau.isPrimalFeasible = true := by
  obtain ⟨hvalid, -, htolerance, -⟩ := Tableau.isValid_of_ofIndices htol ht
  have hpoint : ∀ v ∈ (t.primal .two options).visits,
      (∀ x ∈ v.tableau.point.toList, -options.tolerance ≤ x) ↔
        v.tableau.isPrimalFeasible = true := by
    intro v hv
    obtain ⟨l, t', rfl, hfollows⟩ := hvalid.follows_of_mem_visits hv
    rw [hfollows.isPrimalFeasible_iff_point, hfollows.tolerance_eq, htolerance, toList_eq_ofFn,
      List.forall_mem_ofFn_iff]
  have hsnapshots : (∀ s ∈ (p.solve options (some basis)).snapshots, ∀ x ∈ s.solution,
      -options.tolerance ≤ x) ↔
        ∀ v ∈ (t.primal .two options).visits, v.tableau.isPrimalFeasible = true := by
    rw [Run.snapshots_eq_map_visits, visits_solve ht hf, List.forall_mem_map]
    exact forall₂_congr hpoint
  refine ⟨fun h => hsnapshots.mp h.snapshots, fun h => ⟨hsnapshots.mpr h, ?_⟩⟩
  intro s o hs ho
  have hs' : (p.optimize options t [] 0).outcome = .ok s := by
    change (p.solveFrom options basis).outcome = _ at hs
    rw [solveFrom_of_isPrimalFeasible ht hf] at hs
    exact hs
  obtain ⟨stop, hstop, hverdict⟩ := Run.outcome_bind_eq_ok.mp hs'
  cases hverdict
  obtain ⟨l, hmem⟩ := Tableau.mem_visits_of_primal_ok hstop
  have hlast := (hpoint _ hmem).mpr (h _ hmem)
  change p.verdict stop.status stop.tableau [] = _ at ho
  cases hstatus : stop.status <;> rw [hstatus] at ho <;> cases ho
  exact hlast

theorem isSeparated_of_isUnimodular (hp : p.program.IsUnimodular) (h1 : options.tolerance < 1)
    {basis : List ℕ} {t : Tableau ℚ p.rows p.columns}
    (ht : Tableau.ofIndices p.standardForm basis options.tolerance 0 = .ok t) :
    ∀ v ∈ (t.primal .two options).visits, v.tableau.IsSeparated := by
  obtain ⟨hvalid, hP, htolerance, -⟩ := Tableau.isValid_of_ofIndices htol ht
  have hstandard : p.standardForm.IsUnimodular :=
    ⟨p.standardForm_constraints ▸ hp.constraints, p.standardForm_rhs ▸ hp.rhs⟩
  intro v hv
  obtain ⟨l, t', rfl, hfollows⟩ := hvalid.follows_of_mem_visits hv
  refine (hfollows.isIntegral ?_).isSeparated ?_
  · rw [hfollows.program_eq, hP]
    exact hstandard
  · rw [hfollows.tolerance_eq, htolerance]
    exact h1

/-- The points of a solve from a basis are nonnegative up to the tolerance exactly if no pivot
oversteps. So they are if the tolerance hides no sign, in particular if it is zero and on unimodular
data if it is below one. -/
theorem solve_isNearlyFeasible (basis : List ℕ) :
    ((p.solve options (some basis)).IsNearlyFeasible options.tolerance ↔
      (p.solve options (some basis)).visits.IsChain fun v v' => ¬ v.Oversteps v') ∧
    ((∀ v ∈ (p.solve options (some basis)).visits, v.tableau.IsSeparated) →
      (p.solve options (some basis)).IsNearlyFeasible options.tolerance) ∧
    (options.tolerance = 0 →
      (p.solve options (some basis)).IsNearlyFeasible options.tolerance) ∧
    (p.program.IsUnimodular → options.tolerance < 1 →
      (p.solve options (some basis)).IsNearlyFeasible options.tolerance) := by
  by_cases hstart : ∃ t, Tableau.ofIndices p.standardForm basis options.tolerance 0 = .ok t ∧
      t.isPrimalFeasible = true
  · obtain ⟨t, ht, hf⟩ := hstart
    obtain ⟨hvalid, -, htolerance, -⟩ := Tableau.isValid_of_ofIndices htol ht
    have hseparated : (∀ v ∈ (t.primal .two options).visits, v.tableau.IsSeparated) →
        ∀ v ∈ (t.primal .two options).visits, v.tableau.isPrimalFeasible = true :=
      Tableau.isPrimalFeasible_of_isSeparated hvalid hf .two options
    rw [isNearlyFeasible_iff_visits htol ht hf, visits_solve ht hf]
    refine ⟨Tableau.isPrimalFeasible_visits_iff hvalid hf .two options, hseparated, ?_, ?_⟩
    · intro h0
      refine hseparated fun v hv => ?_
      obtain ⟨l, t', rfl, hfollows⟩ := hvalid.follows_of_mem_visits hv
      exact Tableau.isSeparated_of_tolerance_eq
        (hfollows.tolerance_eq.trans (htolerance.trans h0))
    · exact fun hp h1 => hseparated (isSeparated_of_isUnimodular htol hp h1 ht)
  · push Not at hstart
    obtain ⟨hvisits, e, he⟩ := solve_of_refused hstart
    have hrefused : (p.solve options (some basis)).IsNearlyFeasible options.tolerance := by
      refine ⟨fun s hs => ?_, fun s o hs => ?_⟩
      · rw [Run.snapshots_eq_map_visits, hvisits] at hs
        exact absurd hs List.not_mem_nil
      · rw [he] at hs
        cases hs
    refine ⟨iff_of_true hrefused ?_, fun _ => hrefused, fun _ => hrefused, fun _ _ => hrefused⟩
    rw [hvisits]
    exact List.isChain_nil

omit htol

def consecutive : Problem ℚ where
  objective := .maximize
  program := ⟨#v[1, 2, 0, 0], ⟨#v[#v[1, 1, 1, 0], #v[0, 1, 0, 1]]⟩, #v[3, 2]⟩
  rows_pos := Nat.zero_lt_two
  columns_pos := by decide
  isFinite := Program.isFinite_eq_true _

theorem isUnimodular_consecutive : consecutive.program.IsUnimodular where
  constraints := by
    let C : Matrix (Fin 2) (Fin 4) ℤ := !![1, 1, 1, 0; 0, 1, 0, 1]
    have hdet : ∀ f : Fin 2 → Fin 4, ∃ s : SignType, (s : ℤ) = (C.submatrix id f).det := by
      decide +kernel
    refine ⟨C, ?_, fun basis => hdet basis.get⟩
    ext i j
    fin_cases i <;> fin_cases j <;> decide +kernel
  rhs := ⟨![3, 2], by
    ext i
    fin_cases i <;> decide +kernel⟩

theorem solve_isNearlyFeasible_consecutive :
    (consecutive.solve .standard (some [2, 3])).IsNearlyFeasible (Options.standard.tolerance) := by
  have htol : (0 : ℚ) ≤ (Options.standard : Options ℚ).tolerance := by decide +kernel
  have hlt : (Options.standard : Options ℚ).tolerance < 1 := by decide +kernel
  obtain ⟨-, -, -, hunimodular⟩ := solve_isNearlyFeasible (p := consecutive) htol [2, 3]
  exact hunimodular isUnimodular_consecutive hlt

/-- A problem with a row that is tied up to the tolerance and has a small entry in the next
column. -/
def nearTie : Problem ℚ where
  objective := .minimize
  program := ⟨#v[-1, -1 / 2 ^ 12, 0, 0],
    ⟨#v[#v[1, 0, 1, 0], #v[1, 1 / 2 ^ 10, 0, 1]]⟩, #v[1 + 1 / 2 ^ 31, 1]⟩
  rows_pos := Nat.zero_lt_two
  columns_pos := by decide
  isFinite := Program.isFinite_eq_true _

/-- The basis is accepted, but a snapshot and the optimum have a coordinate that is far below the
tolerance. -/
theorem solve_oversteps_nearTie :
    (∃ t, Tableau.ofIndices nearTie.standardForm [2, 3] (Options.standard : Options ℚ).tolerance 0 =
      .ok t ∧ t.isPrimalFeasible = true) ∧
    (∃ s ∈ (nearTie.solve .standard (some [2, 3])).snapshots, ∃ x ∈ s.solution,
      x < -(Options.standard : Options ℚ).tolerance) ∧
    ∃ s o, (nearTie.solve .standard (some [2, 3])).outcome = .ok s ∧ s.verdict = .optimal o ∧
      ∃ x ∈ o.point, x < -(Options.standard : Options ℚ).tolerance := by
  refine ⟨?_, ?_, ?_⟩
  · have h : (Tableau.ofIndices nearTie.standardForm [2, 3]
        (Options.standard : Options ℚ).tolerance 0).toOption.map (·.isPrimalFeasible) =
          some true := by
      decide +kernel
    exact exists_ok_of_toOption_map h
  · have h : ((nearTie.solve .standard (some [2, 3])).snapshots.any fun s =>
        s.solution.any (· < -(Options.standard : Options ℚ).tolerance)) = true := by
      decide +kernel
    simpa using h
  · have h : (nearTie.solve .standard (some [2, 3])).outcome.toOption.map
        (·.verdict.optimum?.map (·.point.any (· < -(Options.standard : Options ℚ).tolerance))) =
          some (some true) := by
      decide +kernel
    obtain ⟨s, o, hs, ho, hpoint⟩ := exists_optimum_of_toOption_map h
    exact ⟨s, o, hs, ho, by simpa using hpoint⟩

end Problem
end RevisedSimplex
