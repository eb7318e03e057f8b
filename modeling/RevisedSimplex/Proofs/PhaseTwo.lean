import RevisedSimplex.Proofs.NearFeasibility

/-! # Where phase two starts

Phase one hands over a feasible tableau if none of its pivots oversteps and it exchanges artificial
variables at level zero only. That is so in exact arithmetic and on totally unimodular data.
-/

namespace RevisedSimplex

variable {m n : ℕ}

namespace Tableau

theorem artificial_eq_zero {P : Program ℚ m n} {t : Tableau ℚ m (n + m)} (ht : t.IsValid)
    (hP : t.program = P.auxiliary) (hint : t.IsIntegral) (hv : ∀ i, 0 ≤ t.basicValues.get i)
    (ho : t.objective < 1) (k : Fin m) : t.point.get (artificialColumn n k) = 0 := by
  obtain ⟨v, hvalues⟩ := hint.basicValues
  have hpoint : ∀ j, t.point.get j = 0 ∨ 1 ≤ t.point.get j := by
    intro j
    rw [ht.point_get]
    by_cases hj : ∃ i, t.basis.get i = j
    · obtain ⟨i, rfl⟩ := hj
      have hi := hv i
      rw [spread_basic ht.basis_injective]
      rw [hvalues, Function.comp_apply, eq_intCast] at hi ⊢
      have hnonneg : 0 ≤ v i := by exact_mod_cast hi
      rcases hnonneg.eq_or_lt with h | h
      · exact Or.inl (by rw [← h, Int.cast_zero])
      · exact Or.inr (by exact_mod_cast h)
    · push Not at hj
      exact Or.inl (spread_nonbasic hj _)
  have hnonneg : ∀ j, 0 ≤ t.point.get j := fun j => by
    rcases hpoint j with h | h
    · exact h.ge
    · exact zero_le_one.trans h
  refine (hpoint (artificialColumn n k)).resolve_right fun hge => ?_
  rw [ht.objective_eq, hP, Program.auxiliary_cost_dotProduct] at ho
  have hsum := Finset.single_le_sum (f := fun k => t.point.get (artificialColumn n k))
    (fun k _ => hnonneg _) (Finset.mem_univ k)
  exact absurd (hge.trans hsum) (not_le.mpr ho)

end Tableau

namespace Program

variable {P : Program ℚ m n} {options : Options ℚ}

/-- From every basis of phase one, phase two starts with a feasible tableau. -/
def StartsFeasible (P : Program ℚ m n) (options : Options ℚ) : Prop :=
  ∀ basis redundant pivots, ∀ t : Tableau ℚ (remainingRows redundant).length n,
    (P.feasibility options).outcome = .ok (.feasible basis redundant, pivots) →
    Tableau.ofIndices (P.withoutRows redundant) basis options.tolerance 0 = .ok t →
      t.isPrimalFeasible = true

namespace IsPhaseOne

variable {start : Tableau ℚ m (n + m)} {stop : Stop ℚ m (n + m)} {s : Repair ℚ m n}
  (h : P.IsPhaseOne options start stop s) (htol : 0 ≤ options.tolerance)

include h htol

theorem start_isPrimalFeasible : start.isPrimalFeasible = true := by
  rw [Tableau.isPrimalFeasible_iff]
  intro i
  rw [Tableau.basicValues_of_start htol h.start_eq]
  exact (neg_nonpos.mpr (h.start_isValid htol).tolerance_nonneg).trans (P.signed_rhs_nonneg i)

theorem isPrimalFeasible_iff {t : Tableau ℚ (remainingRows s.redundant).length n}
    (ht : Tableau.ofIndices (P.withoutRows s.redundant) s.structuralBasis options.tolerance 0 =
      .ok t) : t.isPrimalFeasible = true ↔
        ∀ j : Fin n, -options.tolerance ≤ s.tableau.point.get (j.castAdd m) := by
  have hlast := h.follows_last htol
  obtain ⟨hv, hP, htolerance, -⟩ := Tableau.isValid_of_ofIndices htol ht
  rw [hv.isPrimalFeasible_iff_point, htolerance, (h.tracks htol).point_eq hlast.toIsValid
    (h.follows_start htol hlast).1 hv hP (Tableau.indices_of_ofIndices ht)]

theorem isPrimalFeasible_of_atLevelZero {t : Tableau ℚ (remainingRows s.redundant).length n}
    (ht : Tableau.ofIndices (P.withoutRows s.redundant) s.structuralBasis options.tolerance 0 =
      .ok t) (hf : stop.tableau.isPrimalFeasible = true)
    (hzero : Repair.AtLevelZero (Repair.ofTableau stop.tableau).events) :
    t.isPrimalFeasible = true := by
  have hstop := h.follows_stop htol
  rw [hstop.isPrimalFeasible_iff_point, (h.follows_start htol hstop).2.1] at hf
  rw [h.isPrimalFeasible_iff htol ht, h.isRepaired.point_eq hstop.toIsValid hzero]
  exact fun j => hf _

omit htol in
theorem stop_isPrimalFeasible
    (hvisits : ∀ v ∈ (start.primal .one options).visits, v.tableau.isPrimalFeasible = true) :
    stop.tableau.isPrimalFeasible = true := by
  obtain ⟨l, hmem⟩ := Tableau.mem_visits_of_primal_ok h.stop_eq
  exact hvisits _ hmem

theorem isIntegral (hP : P.IsTotallyUnimodular) {t : Tableau ℚ m (n + m)}
    (ht : Tableau.Follows start t) : t.IsIntegral :=
  ht.isIntegral ((h.follows_start htol ht).1 ▸ hP.auxiliary)

end IsPhaseOne

section StartsFeasible

variable (htol : 0 ≤ options.tolerance)

include htol

theorem startsFeasible_of_isChain
    (hchain : (P.feasibility options).visits.IsChain fun v v' => ¬ v.Oversteps v')
    (hzero : Repair.AtLevelZero (P.feasibility options).events) : P.StartsFeasible options := by
  rintro basis redundant pivots t hfeasible ht
  obtain ⟨start, stop, s, h, rfl, rfl, -, hvisits, hevents⟩ := exists_isPhaseOne hfeasible
  rw [hvisits, ← Tableau.isPrimalFeasible_visits_iff (h.start_isValid htol)
    (h.start_isPrimalFeasible htol)] at hchain
  exact h.isPrimalFeasible_of_atLevelZero htol ht (h.stop_isPrimalFeasible hchain)
    fun a v c hmem => hzero a v c (hevents _ hmem)

theorem startsFeasible_of_isTotallyUnimodular (hP : P.IsTotallyUnimodular)
    (h1 : options.tolerance < 1) (hf : options.feasibilityTolerance < 1) :
    P.StartsFeasible options := by
  rintro basis redundant pivots t hfeasible ht
  obtain ⟨start, stop, s, h, rfl, rfl, hcost, -, -⟩ := exists_isPhaseOne hfeasible
  have hvalid := h.start_isValid htol
  have hseparated : ∀ t, Tableau.Follows start t → t.IsSeparated := fun t ht =>
    (h.isIntegral htol hP ht).isSeparated ((h.follows_start htol ht).2.1.trans_lt h1)
  have hvisits : ∀ v ∈ (start.primal .one options).visits, v.tableau.IsSeparated := by
    intro v hv
    obtain ⟨l, t', rfl, hfollows⟩ := hvalid.follows_of_mem_visits hv
    exact hseparated t' hfollows
  have hall := Tableau.isPrimalFeasible_of_isSeparated hvalid (h.start_isPrimalFeasible htol)
    .one options hvisits
  have hstop := h.follows_stop htol
  have hfstop := h.stop_isPrimalFeasible hall
  have hvalues : ∀ i, 0 ≤ stop.tableau.basicValues.get i := fun i =>
    (hseparated _ hstop).basicValues i (stop.tableau.isPrimalFeasible_iff.mp hfstop i)
  have hartificial := Tableau.artificial_eq_zero hstop.toIsValid (h.follows_start htol hstop).1
    (h.isIntegral htol hP hstop) hvalues (hcost.trans_lt hf)
  exact h.isPrimalFeasible_of_atLevelZero htol ht hfstop
    (h.isRepaired.atLevelZero hstop.toIsValid hartificial)

omit htol in
theorem startsFeasible_of_exact (h0 : options.tolerance = 0)
    (hf : options.feasibilityTolerance = 0) : P.StartsFeasible options := by
  rintro basis redundant pivots t hfeasible ht
  obtain ⟨start, hstart, -⟩ := P.start_spec h0
  rcases P.feasibility_spec h0 hf hstart with ⟨he, -⟩ | ⟨stop, answer, -, ho, hans⟩
  · rw [he] at hfeasible
    cases hfeasible
  · rw [ho] at hfeasible
    cases hfeasible
    cases hans with
    | feasible ht' hbasic =>
      rw [h0, ht'] at ht
      cases ht
      exact hbasic.isPrimalFeasible_iff.mpr hbasic.basicValues_nonneg

/-- Phase two starts feasible exactly if the structural variables are where the repair ends. They
are if no pivot of phase one oversteps and its exchanges are at level zero, in exact arithmetic, and
on totally unimodular data with tolerances below one. -/
theorem startsFeasible_spec :
    (∀ basis redundant pivots, ∀ t : Tableau ℚ (remainingRows redundant).length n,
      (P.feasibility options).outcome = .ok (.feasible basis redundant, pivots) →
      Tableau.ofIndices (P.withoutRows redundant) basis options.tolerance 0 = .ok t →
        ∃ start stop s, P.IsPhaseOne options start stop s ∧ (t.isPrimalFeasible = true ↔
          ∀ j : Fin n, -options.tolerance ≤ s.tableau.point.get (j.castAdd m))) ∧
    ((P.feasibility options).visits.IsChain (fun v v' => ¬ v.Oversteps v') →
      Repair.AtLevelZero (P.feasibility options).events → P.StartsFeasible options) ∧
    (options.tolerance = 0 → options.feasibilityTolerance = 0 → P.StartsFeasible options) ∧
    (P.IsTotallyUnimodular → options.tolerance < 1 → options.feasibilityTolerance < 1 →
      P.StartsFeasible options) := by
  refine ⟨fun basis redundant pivots t hfeasible ht => ?_, startsFeasible_of_isChain htol,
    startsFeasible_of_exact, startsFeasible_of_isTotallyUnimodular htol⟩
  obtain ⟨start, stop, s, h, rfl, rfl, -⟩ := exists_isPhaseOne hfeasible
  exact ⟨start, stop, s, h, h.isPrimalFeasible_iff htol ht⟩

end StartsFeasible

def startFeasible? (P : Program ℚ m n) (options : Options ℚ) : Option Bool :=
  (P.feasibility options).outcome.toOption.bind fun
    | (.infeasible, _) => none
    | (.feasible basis redundant, _) =>
      (Tableau.ofIndices (P.withoutRows redundant) basis options.tolerance 0).toOption.map
        (·.isPrimalFeasible)

theorem startFeasible?_spec {b : Bool} (h : P.startFeasible? options = some b) :
    ∃ basis redundant pivots, ∃ t : Tableau ℚ (remainingRows redundant).length n,
      (P.feasibility options).outcome = .ok (.feasible basis redundant, pivots) ∧
      Tableau.ofIndices (P.withoutRows redundant) basis options.tolerance 0 = .ok t ∧
      t.isPrimalFeasible = b := by
  unfold startFeasible? at h
  cases hout : (P.feasibility options).outcome with
  | error e =>
    rw [hout] at h
    cases h
  | ok answer =>
    rw [hout] at h
    obtain ⟨answer, pivots⟩ := answer
    cases answer with
    | infeasible => cases h
    | feasible basis redundant =>
      obtain ⟨t, ht, hb⟩ := exists_ok_of_toOption_map h
      exact ⟨basis, redundant, pivots, t, rfl, ht, hb⟩

def grouped : Program ℚ 2 4 :=
  ⟨#v[1, 2, 3, 1], ⟨#v[#v[1, 1, 0, 0], #v[0, 0, 1, 1]]⟩, .ofFn ![3, 2]⟩

theorem isTotallyUnimodular_grouped : grouped.IsTotallyUnimodular where
  constraints := by
    let C : Matrix (Fin 2) (Fin 4) ℤ := (1 : Matrix (Fin 2) (Fin 2) ℤ).submatrix id ![0, 0, 1, 1]
    refine ⟨C, ?_, ?_⟩
    · ext i j
      fin_cases i <;> fin_cases j <;> decide +kernel
    · exact ((Matrix.fromCols_one_isTotallyUnimodular_iff (0 : Matrix (Fin 2) (Fin 0) ℤ)).mpr
        (Matrix.emptyCols_isTotallyUnimodular _)).submatrix id (Sum.inr ∘ ![0, 0, 1, 1])
  rhs := ⟨![3, 2], by
    ext i
    fin_cases i <;> decide +kernel⟩

theorem startsFeasible_spec_grouped :
    ∃ basis redundant pivots, ∃ t : Tableau ℚ (remainingRows redundant).length 4,
      (grouped.feasibility .standard).outcome = .ok (.feasible basis redundant, pivots) ∧
      Tableau.ofIndices (grouped.withoutRows redundant) basis
        (Options.standard : Options ℚ).tolerance 0 = .ok t ∧ t.isPrimalFeasible = true := by
  have htol : (0 : ℚ) ≤ (Options.standard : Options ℚ).tolerance := by decide +kernel
  have h1 : (Options.standard : Options ℚ).tolerance < 1 := by decide +kernel
  have hf : (Options.standard : Options ℚ).feasibilityTolerance < 1 := by decide +kernel
  have h : (grouped.startFeasible? .standard).isSome = true := by decide +kernel
  obtain ⟨b, hb⟩ := Option.isSome_iff_exists.mp h
  obtain ⟨basis, redundant, pivots, t, hfeasible, ht, -⟩ := startFeasible?_spec hb
  obtain ⟨-, -, -, hunimodular⟩ := startsFeasible_spec (P := grouped) htol
  exact ⟨basis, redundant, pivots, t, hfeasible, ht,
    hunimodular isTotallyUnimodular_grouped h1 hf basis redundant pivots t hfeasible ht⟩

/-- A program with a row that is tied up to the tolerance and has a small entry in the next
column. -/
def nearTie : Program ℚ 2 3 :=
  ⟨#v[-1, -1 / 2 ^ 12, 0], ⟨#v[#v[1, 0, 1], #v[1, 1 / 2 ^ 10, 0]]⟩,
    .ofFn ![1 + 1 / 2 ^ 31, 1]⟩

def smallEntry : Program ℚ 1 1 := ⟨#v[1], ⟨#v[#v[-1 / 2 ^ 10]]⟩, #v[1 / 2 ^ 31]⟩

theorem not_startsFeasible_of_start (h : P.startFeasible? options = some false) :
    ¬ P.StartsFeasible options := by
  intro hstarts
  obtain ⟨basis, redundant, pivots, t, hfeasible, ht, hf⟩ := startFeasible?_spec h
  rw [hstarts basis redundant pivots t hfeasible ht] at hf
  cases hf

/-- Phase two does not always start feasible: a pivot of phase one can overstep, and so can an
exchange of an artificial variable that is not quite zero. -/
theorem not_startsFeasible :
    ¬ nearTie.StartsFeasible .standard ∧ ¬ smallEntry.StartsFeasible .standard :=
  ⟨not_startsFeasible_of_start (by decide +kernel),
    not_startsFeasible_of_start (by decide +kernel)⟩

end Program
end RevisedSimplex
