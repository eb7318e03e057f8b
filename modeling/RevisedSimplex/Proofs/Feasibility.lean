import RevisedSimplex.Proofs.RowRank

/-! # Phase one in exact arithmetic

Phase one finds that no point is feasible, or it leaves a reduction of the program with a
feasible basis. It fails only where its iteration runs out of pivots.
-/

namespace RevisedSimplex

open Matrix

variable {m n : ℕ}

namespace Repair.IsPartial

variable {P : Program ℚ m n} {s : Repair ℚ m n} (hs : IsPartial P s [])

include hs

theorem isReduction : P.IsReduction (s.redundant.map Fin.val) (P.withoutRows s.redundant) :=
  (P.isRestriction_withoutRows hs.tracks.sorted_redundant).isReduction fun _ =>
    hs.isComplete.constraints_of_remaining (hs.point_artificial hs.basicValues_eq_zero)

theorem structuralPoint_eq : s.tableau.point.get =
    structuralPoint m fun j => s.tableau.point.get (j.castAdd m) := by
  ext j
  rcases column_cases j with ⟨q, rfl⟩ | ⟨q, rfl⟩
  · rw [structuralPoint_castAdd]
  · rw [structuralPoint_artificial, hs.point_artificial hs.basicValues_eq_zero]

theorem isFeasible : P.IsFeasible fun j => s.tableau.point.get (j.castAdd m) := by
  obtain ⟨hx, hA⟩ := hs.isFeasible_point hs.basicValues_nonneg
  refine ⟨fun j => hx _, funext fun i => (P.signed_row_iff _ i).mp ?_⟩
  rw [hs.structuralPoint_eq, hs.program_eq, auxiliary_mulVec_structuralPoint] at hA
  exact congrFun hA i

/-- The structural columns are a feasible basis for the rows that remain. -/
theorem exists_tableau :
    ∃ t, Tableau.ofIndices (P.withoutRows s.redundant) s.structuralBasis 0 0 = .ok t ∧
      t.IsBasicFeasible ∧ t.program = P.withoutRows s.redundant ∧ t.artificial = 0 := by
  obtain ⟨basis, hbasis, hinj, hbasic⟩ := hs.isComplete.exists_basis
  obtain ⟨t, ht⟩ :=
    Tableau.ofBasis_exists (fun v => hs.isComplete.eq_zero_of_basisMatrix hbasic hinj) 0
  obtain ⟨hv, hP, hb, htol, hart⟩ := Tableau.isValid_of_ofBasis le_rfl ht
  refine ⟨t, ?_, ⟨⟨hv, htol⟩, fun i => ?_⟩, hP, hart⟩
  · rw [Tableau.ofIndices, hbasis]
    exact ht
  · have hpoint := hs.tracks.point_eq hs.toIsValid hs.program_eq hv hP
      (hb ▸ (Basis.of_ofIndices hbasis).1)
    rw [← spread_basic hv.basis_injective t.basicValues.get i, ← hv.point_get, hpoint]
    exact hs.isFeasible.1 _

end Repair.IsPartial

/-- What an answer of phase one promises. -/
inductive Feasibility.Holds (P : Program ℚ m n) : Feasibility m → Prop where
  | infeasible : (∀ x, ¬ P.IsFeasible x) → Holds P .infeasible
  | feasible {basis : List ℕ} {redundant : List (Fin m)}
      {t : Tableau ℚ (remainingRows redundant).length n} :
      Tableau.ofIndices (P.withoutRows redundant) basis 0 0 = .ok t → t.IsBasicFeasible →
      t.program = P.withoutRows redundant → t.artificial = 0 →
      P.IsReduction (redundant.map Fin.val) (P.withoutRows redundant) →
      Holds P (.feasible basis redundant)

namespace Program

variable (P : Program ℚ m n) {options : Options ℚ} (h0 : options.tolerance = 0)
  (hf : options.feasibilityTolerance = 0)

include h0

theorem start_spec : ∃ start,
    Tableau.ofBasis P.auxiliary (artificialBasis m n) options.tolerance m = .ok start ∧
      start.IsAuxiliary P := by
  obtain ⟨start, h⟩ := Tableau.start_exists P
  rw [h0]
  exact ⟨start, h, Tableau.isAuxiliary_of_start rfl h⟩

include hf

/-- Phase one fails only with its iteration, and otherwise its answer is true. -/
theorem feasibility_spec {start : Tableau ℚ m (n + m)}
    (h : Tableau.ofBasis P.auxiliary (artificialBasis m n) options.tolerance m = .ok start) :
    (P.feasibility options).outcome = .error (outOfPivots options.iterationLimit) ∧
        (start.primal .one options).outcome = .error (outOfPivots options.iterationLimit) ∨
      ∃ stop answer, (start.primal .one options).outcome = .ok stop ∧
        (P.feasibility options).outcome = .ok (answer, stop.pivots) ∧ answer.Holds P := by
  have hstart := Tableau.isAuxiliary_of_start h0 h
  rw [feasibility, h, Run.ofExcept_ok_bind, Run.outcome_bind]
  cases hstop : (start.primal .one options).outcome with
  | error e =>
    obtain rfl := hstart.primal_error hstop
    exact Or.inl ⟨rfl, rfl⟩
  | ok stop =>
    obtain ⟨hcont, hend⟩ := hstart.primal_ok hstop
    have hlast := hstart.of_continues hcont
    have hopt := hlast.status_eq_optimal hend
    have hdual : stop.tableau.isDualFeasible = true := by
      rw [hopt] at hend
      cases hend with
      | optimal h => exact h
    refine Or.inr ⟨stop, ?_⟩
    simp only [Except.bind, hopt, ne_eq, not_true_eq_false, if_false, hf]
    split
    · rename_i hpos
      exact ⟨_, trivial, rfl, .infeasible (hlast.not_isFeasible_of_optimal hdual hpos)⟩
    · rename_i hpos
      obtain ⟨s, hs, hpartial⟩ := Repair.ofTableau_exists hlast fun r k =>
        hlast.basicValues_eq_zero (not_lt.mp hpos)
      obtain ⟨t, ht, hfeasible, hP, hart⟩ := hpartial.exists_tableau
      refine ⟨_, trivial, ?_, .feasible ht hfeasible hP hart hpartial.isReduction⟩
      rw [Run.outcome_bind, hs]
      rfl

end Program
end RevisedSimplex
