import RevisedSimplex.Proofs.RowRank
import RevisedSimplex.Proofs.Soundness

/-! # Repair at level zero

Where all basic artificial variables are zero the repair succeeds, keeps the basic solution and
finds as many redundant rows as the constraints lack in rank. Phase one reports no redundant row
exactly if the rank is full.
-/

namespace RevisedSimplex

open Matrix

variable {m n : ℕ}

namespace Repair

/-- What the repair of `t` leaves: the same basic solution, with a nonsingular basis of the rows
that remain, on which the redundant rows depend. -/
structure RevealsRank (P : Program ℚ m n) (t : Tableau ℚ m (n + m)) (s : Repair ℚ m n) :
    Prop where
  point_eq : s.tableau.point = t.point
  isBasic : ∀ j : Fin n, t.isBasic (j.castAdd m) = true →
    s.tableau.isBasic (j.castAdd m) = true
  sorted : s.redundant.Pairwise (· < ·)
  nonsingular : ∃ basis : Basis (remainingRows s.redundant).length n,
    basis.indices = s.structuralBasis ∧
      ((P.withoutRows s.redundant).basisMatrix basis).det ≠ 0
  dependent : ∀ k ∈ s.redundant, ∃ c : Fin m → ℚ, (∀ i ∈ s.redundant, c i = 0) ∧
    c ᵥ* P.constraints.toMatrix = P.constraints.toMatrix k ∧ c ⬝ᵥ P.rhs.get = P.rhs.get k
  length_add_rank : s.redundant.length + P.constraints.toMatrix.rank = m

section AtZero

variable {P : Program ℚ m n} {t : Tableau ℚ m (n + m)} (ht : t.IsAuxiliary P)
  (hzero : ∀ r k, t.basis.get r = artificialColumn n k → t.basicValues.get r = 0)

include ht hzero

theorem point_eq_of_ofTableau {s : Repair ℚ m n} (hs : (ofTableau t).outcome = .ok s) :
    s.tableau.point.get = t.point.get := by
  have hrepaired := isRepaired_of_foldlM hs
  exact hrepaired.point_eq ht.toIsValid
    (hrepaired.atLevelZero ht.toIsValid (ht.point_artificial hzero))

theorem revealsRank_of_ofTableau {s : Repair ℚ m n} (hs : (ofTableau t).outcome = .ok s) :
    RevealsRank P t s := by
  have hcomplete :=
    isComplete_of_ofTableau ht.toIsValid ht.tolerance_eq ht.program_eq ht.artificial_eq hs
  have hpoint := point_eq_of_ofTableau ht hzero hs
  refine ⟨get_injective hpoint, fun j => (isRepaired_of_foldlM hs).isBasic,
    hcomplete.tracks.sorted_redundant, hcomplete.det_basisMatrix_ne_zero, fun k _ => ?_,
    hcomplete.length_add_rank⟩
  obtain ⟨c, hc, hrow, hrhs⟩ := hcomplete.exists_combination k
  rw [hpoint, ht.point_artificial hzero, mul_zero, sub_zero] at hrhs
  exact ⟨c, hc, hrow, hrhs⟩

end AtZero
end Repair

namespace Program.IsPhaseOne

variable {P : Program ℚ m n} {options : Options ℚ} {start : Tableau ℚ m (n + m)}
  {stop : Stop ℚ m (n + m)} {s : Repair ℚ m n}

theorem isComplete (h : P.IsPhaseOne options start stop s) (h0 : options.tolerance = 0) :
    Repair.IsComplete P s := by
  have hstop := h.follows_stop h0.ge
  obtain ⟨hP, htol, hart⟩ := h.follows_start h0.ge hstop
  exact Repair.isComplete_of_ofTableau hstop.toIsValid (htol.trans h0) hP hart h.repair_eq

end Program.IsPhaseOne

namespace Repair

/-- At zero artificial cost the repair succeeds and reveals the rank of the constraints. Phase one
finds no redundant row exactly if the rank is full. -/
theorem ofTableau_revealsRank (P : Program ℚ m n) :
    (∀ t : Tableau ℚ m (n + m), t.IsAuxiliary P →
      (∀ r k, t.basis.get r = artificialColumn n k → t.basicValues.get r = 0) →
        ∃ s, (ofTableau t).outcome = .ok s ∧ RevealsRank P t s) ∧
    ∀ options basis redundant pivots, options.tolerance = 0 →
      (P.feasibility options).outcome = .ok (.feasible basis redundant, pivots) →
        (redundant = [] ↔ P.constraints.toMatrix.rank = m) := by
  refine ⟨fun t ht hzero => ?_, fun options basis redundant pivots h0 hfeasible => ?_⟩
  · obtain ⟨s, hs, -⟩ := ofTableau_exists ht hzero
    exact ⟨s, hs, revealsRank_of_ofTableau ht hzero hs⟩
  · obtain ⟨start, stop, s, h, -, rfl, -⟩ := Program.exists_isPhaseOne hfeasible
    have hrank := (h.isComplete h0).length_add_rank
    rw [← List.length_eq_zero_iff]
    omega

/-- The second row is twice the first one, which has a negative right-hand side. -/
def doubledRow : Program ℚ 3 3 :=
  ⟨#v[1, 1, 1], ⟨#v[#v[1, -1, 0], #v[2, -2, 0], #v[0, 0, 3]]⟩, #v[-1, -2, 0]⟩

/-- The second row is found redundant before the artificial variable of the third one is
exchanged. -/
theorem ofTableau_revealsRank_doubledRow :
    (∃ t s, Tableau.ofBasis doubledRow.auxiliary #v[1, 4, 5] 0 3 = .ok t ∧
      (ofTableau t).outcome = .ok s ∧ s.redundant = [1] ∧ s.tableau.basis = #v[1, 4, 2] ∧
      RevealsRank doubledRow t s) ∧
    ∃ basis redundant pivots,
      (doubledRow.feasibility ⟨0, 0, .dantzig, .lexicographic, none⟩).outcome =
        .ok (.feasible basis redundant, pivots) ∧ redundant ≠ [] ∧
      doubledRow.constraints.toMatrix.rank ≠ 3 := by
  obtain ⟨hrepair, hphase⟩ := ofTableau_revealsRank doubledRow
  constructor
  · have h : (Tableau.ofBasis doubledRow.auxiliary #v[1, 4, 5] 0 3).toOption.map (fun t =>
        (t.isPrimalFeasible, decide (∀ r k, t.basis.get r = artificialColumn 3 k →
          t.basicValues.get r = 0), (ofTableau t).outcome.toOption.map fun s =>
            (s.redundant, s.tableau.basis))) = some (true, true, some ([1], #v[1, 4, 2])) := by
      decide +kernel
    obtain ⟨t, ht, he⟩ := exists_ok_of_toOption_map h
    simp only [Prod.mk.injEq, decide_eq_true_eq] at he
    obtain ⟨hf, hzero, hs⟩ := he
    obtain ⟨hv, hP, -, htol, hart⟩ := Tableau.isValid_of_ofBasis le_rfl ht
    have hnonneg := (Tableau.IsExact.mk hv htol).isPrimalFeasible_iff.mp hf
    obtain ⟨s, hok, hreveals⟩ := hrepair t ⟨⟨⟨hv, htol⟩, hnonneg⟩, hP, hart⟩ hzero
    rw [hok] at hs
    simp only [Except.toOption, Option.map_some, Option.some.injEq, Prod.mk.injEq] at hs
    exact ⟨t, s, ht, hok, hs.1, hs.2, hreveals⟩
  · have h : ((doubledRow.feasibility ⟨0, 0, .dantzig, .lexicographic, none⟩).outcome.toOption.map
        fun
          | (.infeasible, _) => true
          | (.feasible _ redundant, _) => redundant.isEmpty) = some false := by
      decide +kernel
    obtain ⟨⟨answer, pivots⟩, hok, hanswer⟩ := exists_ok_of_toOption_map h
    cases answer with
    | infeasible => cases hanswer
    | feasible basis redundant =>
      have hne : redundant ≠ [] := fun he => by simp [he] at hanswer
      exact ⟨basis, redundant, pivots, hok, hne, mt (hphase _ _ _ _ rfl hok).mpr hne⟩

end Repair
end RevisedSimplex
