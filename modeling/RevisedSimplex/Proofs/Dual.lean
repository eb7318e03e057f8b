import RevisedSimplex.Proofs.Soundness

/-! # The dual method in exact arithmetic

Every pivot exchanges a row with a negative value for a column of minimal ratio, so no
relative cost becomes positive and the objective does not fall. The method stops at an
optimum, at a row that excludes every feasible point, or at its limit of pivots.
-/

namespace RevisedSimplex

open Matrix

variable {m n : ℕ}

namespace Tableau

/-- An exact tableau without artificial columns and without profitable columns. -/
structure IsPriced (t : Tableau ℚ m n) : Prop extends t.IsExact where
  artificial_eq : t.artificial = 0
  relativeCost_nonpos : ∀ j, t.relativeCost j ≤ 0

/-- What the dual method exchanges: a row with a negative value and a column of minimal ratio. -/
structure IsDualPivot (t t' : Tableau ℚ m n) (i : Fin m) (j : Fin n) : Prop
    extends IsExchange t t' i j where
  value_neg : t.basicValues.get i < 0
  entry_neg : t.entries i j < 0
  ratio_le : ∀ k, t.entries i k < 0 →
    t.relativeCost j / t.entries i j ≤ t.relativeCost k / t.entries i k

inductive DualStop (t : Tableau ℚ m n) : Status → Prop where
  | optimal : (∀ i, 0 ≤ t.basicValues.get i) → DualStop t .optimal
  | infeasible {i : Fin m} : t.basicValues.get i < 0 → (∀ j, 0 ≤ t.entries i j) →
      DualStop t .infeasible

theorem dualMove_eq_optimal {t : Tableau ℚ m n} (h : t.dualMove = .optimal) :
    t.dualLeavingRow = none := by
  unfold dualMove at h
  split at h
  · assumption
  · split at h <;> cases h

theorem dualMove_eq_infeasible {F : Type} [Scalar F] {t : Tableau F m n} {i : Fin m}
    (h : t.dualMove = .infeasible i) :
    t.dualLeavingRow = some i ∧ t.dualEnteringColumn i = none := by
  unfold dualMove at h
  split at h
  · cases h
  · rename_i hl
    split at h
    · rename_i he
      cases h
      exact ⟨hl, he⟩
    · cases h

theorem dualMove_ne_unbounded {F : Type} [Scalar F] (t : Tableau F m n) (j : Fin n) :
    t.dualMove ≠ .unbounded j := by
  unfold dualMove
  split
  · simp
  · split <;> simp

theorem dualMove_eq_pivot {F : Type} [Scalar F] {t : Tableau F m n} {i : Fin m} {j : Fin n}
    {cost : F} (h : t.dualMove = .pivot i j cost) :
    t.dualLeavingRow = some i ∧ t.dualEnteringColumn i = some j := by
  unfold dualMove at h
  split at h
  · cases h
  · rename_i hl
    split at h
    · cases h
    · rename_i he
      cases h
      exact ⟨hl, he⟩

abbrev dualStep (_ : Option (Fin n)) (t : Tableau ℚ m n) : Move ℚ m n := t.dualMove

theorem IsDualPivot.isPriced {t t' : Tableau ℚ m n} {i : Fin m} {j : Fin n}
    (h : IsDualPivot t t' i j) (ht : t.IsPriced) : t'.IsPriced :=
  ⟨ht.of_isExchange h.toIsExchange, h.artificial_eq.trans ht.artificial_eq,
    h.relativeCost_nonpos ht.toIsValid ht.relativeCost_nonpos h.entry_neg h.ratio_le⟩

theorem IsDualPivot.objective_le {t t' : Tableau ℚ m n} {i : Fin m} {j : Fin n}
    (h : IsDualPivot t t' i j) (ht : t.IsPriced) : t.objective ≤ t'.objective := by
  have hratio : 0 ≤ t.relativeCost j / t.entries i j :=
    div_nonneg_of_nonpos (ht.relativeCost_nonpos j) h.entry_neg.le
  rw [h.objective_eq ht.toIsValid]
  linarith [mul_nonpos_of_nonneg_of_nonpos hratio h.value_neg.le]

namespace IsPriced

variable {t t' : Tableau ℚ m n} {i : Fin m} {j : Fin n} {cost : ℚ} (ht : t.IsPriced)

include ht

theorem isBasic_eq_false (hj : t.entries i j < 0) : t.isBasic j = false := by
  rw [← Bool.not_eq_true, Tableau.isBasic_iff]
  rintro ⟨k, rfl⟩
  rw [ht.entries_basic] at hj
  split at hj
  · exact absurd hj (not_lt.mpr zero_le_one)
  · exact lt_irrefl 0 hj

theorem value_neg (h : t.dualLeavingRow = some i) : t.basicValues.get i < 0 := by
  have hv := lt_of_dualLeavingRow h
  rwa [ht.tolerance_eq, neg_zero] at hv

theorem entry_neg (h : t.dualEnteringColumn i = some j) : t.entries i j < 0 :=
  (dualEnteringColumn_spec ht.tolerance_eq h).2.1

theorem isDualPivot (h : t.dualMove = .pivot i j cost) (ht' : t.pivot i j = .ok t') :
    IsDualPivot t t' i j := by
  obtain ⟨hl, he⟩ := dualMove_eq_pivot h
  obtain ⟨-, hj, hmin⟩ := dualEnteringColumn_spec ht.tolerance_eq he
  exact ⟨ht.isExchange_of_pivot ht', ht.value_neg hl, hj,
    fun k hk => hmin k (lt_structural ht.artificial_eq k) (ht.isBasic_eq_false hk) hk⟩

theorem step_spec {p p' : Position ℚ m n} (hp : p.tableau = t) (h : Step dualStep p p') :
    p'.tableau.IsPriced ∧ p'.tableau.program = t.program ∧
      t.objective ≤ p'.tableau.objective := by
  cases h with
  | pivot hm ht' =>
    subst hp
    have hpivot := ht.isDualPivot hm ht'
    exact ⟨hpivot.isPriced ht, hpivot.program_eq, hpivot.objective_le ht⟩

theorem outOfPivots_of_ends {limit : Option ℕ} {remaining pivots : ℕ} {last : Option (Fin n)}
    {e : Failure ℚ} (h : Ends limit dualStep remaining pivots ⟨last, t⟩ (.error e)) :
    e = outOfPivots limit := by
  cases h with
  | singular hm he =>
    obtain ⟨t', ht'⟩ :=
      ht.pivot_exists ht.tolerance_eq (ht.entry_neg (dualMove_eq_pivot hm).2).ne
    rw [ht'] at he
    cases he
  | outOfPivots hm => rfl

theorem dualStop_optimal (h : t.dualMove = .optimal) : DualStop t .optimal :=
  .optimal (ht.isPrimalFeasible_iff.mp
    (isPrimalFeasible_of_dualLeavingRow ht.tolerance_nonneg (dualMove_eq_optimal h)))

theorem dualStop_infeasible (h : t.dualMove = .infeasible i) : DualStop t .infeasible := by
  obtain ⟨hl, he⟩ := dualMove_eq_infeasible h
  refine .infeasible (ht.value_neg hl) fun j => ?_
  by_contra hj
  have hge := entry_ge_of_dualEnteringColumn ht.tolerance_nonneg he
    (lt_structural ht.artificial_eq j) (ht.isBasic_eq_false (not_le.mp hj))
  rw [ht.tolerance_eq, neg_zero] at hge
  exact hj hge

theorem dualStop {last : Option (Fin n)} {status : Status}
    (h : StopsAt dualStep ⟨last, t⟩ status) : DualStop t status := by
  cases h with
  | optimal hm => exact ht.dualStop_optimal hm
  | unbounded hm => exact absurd hm (dualMove_ne_unbounded _ _)
  | infeasible hm => exact ht.dualStop_infeasible hm

theorem path {p : ℕ → Position ℚ m n} {k : ℕ} (hp : IsPath dualStep p k)
    (h0 : (p 0).tableau = t) :
    (∀ l ≤ k, (p l).tableau.IsPriced ∧ (p l).tableau.program = t.program) ∧
      ∀ a b, a ≤ b → b ≤ k → (p a).tableau.objective ≤ (p b).tableau.objective := by
  have hpath : ∀ l ≤ k, (p l).tableau.IsPriced ∧ (p l).tableau.program = t.program := by
    refine hp.invariant (P := fun s => s.tableau.IsPriced ∧ s.tableau.program = t.program) ?_
      (by rw [h0]; exact ⟨ht, rfl⟩)
    rintro s s' ⟨hs, hP⟩ hstep
    obtain ⟨hs', hP', -⟩ := hs.step_spec rfl hstep
    exact ⟨hs', hP'.trans hP⟩
  refine ⟨hpath, fun a b hab hb => ?_⟩
  exact hp.mono (P := fun s => s.tableau.IsPriced) (f := fun s => s.tableau.objective)
    (fun s s' hs hstep => (hs.step_spec rfl hstep).2.2) (fun l hl => (hpath l hl).1) hab hb

end IsPriced

theorem dual_spec {t : Tableau ℚ m n} (hd : t.isDualFeasible = true) (options : Options ℚ) :
    ∃ (p : ℕ → Position ℚ m n) (k : ℕ), p 0 = ⟨none, t⟩ ∧ IsPath dualStep p k ∧
      k ≤ allowance options.iterationLimit m n ∧
      (t.dual options).visits = visitsOf .dual 0 k p ∧
      Ends options.iterationLimit dualStep (allowance options.iterationLimit m n - k) k (p k)
        (t.dual options).outcome := by
  have h := iterate_spec .dual options.iterationLimit dualStep
    (allowance options.iterationLimit m n) 0 none t
  simp only [Nat.zero_add] at h
  rw [dual, if_pos hd]
  exact h

theorem IsExact.isPriced {t : Tableau ℚ m n} (ht : t.IsExact) (ha : t.artificial = 0)
    (hd : t.isDualFeasible = true) : t.IsPriced :=
  ⟨ht, ha, fun j => ht.relativeCost_nonpos hd (lt_structural ha j)⟩

theorem isDualFeasible_of_dual_ok {t : Tableau ℚ m n} {options : Options ℚ} {stop : Stop ℚ m n}
    (h : (t.dual options).outcome = .ok stop) : t.isDualFeasible = true := by
  by_contra hd
  rw [dual, if_neg hd] at h
  cases h

/-- The dual method stops with a certificate for its status. -/
theorem IsExact.dual_ok {t : Tableau ℚ m n} (ht : t.IsExact) (ha : t.artificial = 0)
    {options : Options ℚ} {stop : Stop ℚ m n} (h : (t.dual options).outcome = .ok stop) :
    stop.tableau.IsPriced ∧ stop.tableau.program = t.program ∧
      DualStop stop.tableau stop.status := by
  have hd := isDualFeasible_of_dual_ok h
  obtain ⟨p, k, hp, hpath, -, -, hends⟩ := dual_spec hd options
  obtain ⟨hk, hP⟩ := ((ht.isPriced ha hd).path hpath (by rw [hp])).1 k le_rfl
  rw [h] at hends
  obtain ⟨htableau, hstop⟩ := hends.of_ok
  rw [htableau]
  exact ⟨hk, hP, hk.dualStop hstop⟩

/-- The dual method refuses a tableau that is not dual feasible, or it is out of pivots. -/
theorem IsExact.dual_error {t : Tableau ℚ m n} (ht : t.IsExact) (ha : t.artificial = 0)
    {options : Options ℚ} {e : Failure ℚ} (h : (t.dual options).outcome = .error e) :
    (¬ t.isDualFeasible = true ∧ e = .invalidInitialBasis .notDualFeasible) ∨
      (t.isDualFeasible = true ∧ e = outOfPivots options.iterationLimit) := by
  by_cases hd : t.isDualFeasible = true
  · obtain ⟨p, k, hp, hpath, -, -, hends⟩ := dual_spec hd options
    obtain ⟨hk, -⟩ := ((ht.isPriced ha hd).path hpath (by rw [hp])).1 k le_rfl
    rw [h] at hends
    exact Or.inr ⟨hd, hk.outOfPivots_of_ends hends⟩
  · rw [dual, if_neg hd] at h
    cases h
    exact Or.inl ⟨hd, rfl⟩

theorem IsExact.dual_snapshots {t : Tableau ℚ m n} (ht : t.IsExact) (ha : t.artificial = 0)
    (options : Options ℚ) :
    (∀ s ∈ (t.dual options).snapshots, ∀ z ∈ s.reducedCosts, z ≤ 0) ∧
      ((t.dual options).snapshots.map (·.objective)).Pairwise (· ≤ ·) := by
  by_cases hd : t.isDualFeasible = true
  · obtain ⟨p, k, hp, hpath, -, hvisits, -⟩ := dual_spec hd options
    obtain ⟨hk, hmono⟩ := (ht.isPriced ha hd).path hpath (by rw [hp])
    rw [Run.snapshots_eq_map_visits, hvisits, snapshots_visitsOf]
    constructor
    · intro s hs z hz
      obtain ⟨l, hl, rfl⟩ := List.mem_map.mp hs
      change z ∈ (p l).tableau.reducedCosts.toList at hz
      rw [toList_eq_ofFn, List.mem_ofFn] at hz
      obtain ⟨j, rfl⟩ := hz
      rw [reducedCosts, Vector.get_ofFn]
      split
      · exact le_rfl
      · exact (hk l (Nat.lt_succ_iff.mp (List.mem_range.mp hl))).1.relativeCost_nonpos j
    · rw [List.map_map, List.pairwise_map]
      refine List.pairwise_lt_range.imp_of_mem fun {a b} _ hb hab => ?_
      exact hmono a b hab.le (Nat.lt_succ_iff.mp (List.mem_range.mp hb))
  · rw [dual, if_neg hd]
    exact ⟨fun s hs => absurd hs List.not_mem_nil, List.Pairwise.nil⟩

end Tableau

namespace Problem

variable {p : Problem ℚ} {options : Options ℚ}

theorem holds_infeasible {t : Tableau ℚ p.rows p.columns} (ht : t.IsValid)
    (hP : t.program = p.standardForm) {i : Fin p.rows} (hv : t.basicValues.get i < 0)
    (hrow : ∀ j, 0 ≤ t.entries i j) : p.Holds (p.verdict .infeasible t []) := by
  intro x hx
  exact ht.not_isFeasible hv hrow x (hP ▸ (p.isFeasible_standardForm x).mpr hx)

/-- Every snapshot of the dual method is dual feasible, the objectives do not fall, and the
verdict holds. It is never that the problem is unbounded. -/
theorem solveDual_holds (h0 : options.tolerance = 0) (basis : List ℕ) :
    (∀ s ∈ (p.solveDual options basis).snapshots, ∀ z ∈ s.reducedCosts, z ≤ 0) ∧
      ((p.solveDual options basis).snapshots.map (·.objective)).Pairwise (· ≤ ·) ∧
      ∀ s, (p.solveDual options basis).outcome = .ok s →
        p.Holds s.verdict ∧ s.verdict.status ≠ .unbounded := by
  cases ht : Tableau.ofIndices p.standardForm basis options.tolerance 0 with
  | error e =>
    obtain ⟨hvisits, houtcome⟩ := solveDual_of_error ht
    rw [Run.snapshots_eq_map_visits, hvisits, houtcome]
    exact ⟨fun s hs => absurd hs List.not_mem_nil, List.Pairwise.nil, fun s h => by cases h⟩
  | ok t =>
    obtain ⟨hexact, hP, hart⟩ := Tableau.isExact_of_ofIndices h0 ht
    obtain ⟨hpriced, hmono⟩ := hexact.dual_snapshots hart options
    rw [Run.snapshots_eq_map_visits] at hpriced hmono
    rw [Run.snapshots_eq_map_visits, visits_solveDual ht]
    refine ⟨hpriced, hmono, fun s hs => ?_⟩
    cases hd : (t.dual options).outcome with
    | error e =>
      rw [solveDual_of_dual_error ht hd] at hs
      cases hs
    | ok stop =>
      obtain ⟨counts, hcounts⟩ := solveDual_of_dual_ok ht hd
      rw [hcounts] at hs
      cases hs
      obtain ⟨hstop, hP', hend⟩ := hexact.dual_ok hart hd
      change p.Holds (p.verdict stop.status stop.tableau []) ∧
        (p.verdict stop.status stop.tableau []).status ≠ _
      generalize stop.status = status at hend
      cases hend with
      | optimal hv =>
        have hred : p.standardForm.IsReduction [] stop.tableau.program :=
          hP' ▸ hP ▸ Program.IsReduction.refl _
        exact ⟨holds_optimal hstop.toIsValid hred hv hstop.relativeCost_nonpos, Status.noConfusion⟩
      | infeasible hv hrow =>
        exact ⟨holds_infeasible hstop.toIsValid (hP'.trans hP) hv hrow, Status.noConfusion⟩

/-- A covering problem whose slack columns are a dual feasible basis. -/
def covering : Problem ℚ where
  objective := .minimize
  program := ⟨#v[2, 3, 0, 0], ⟨#v[#v[-1, -1, 1, 0], #v[-1, -2, 0, 1]]⟩, #v[-2, -3]⟩
  rows_pos := Nat.zero_lt_two
  columns_pos := Nat.zero_lt_succ 3
  isFinite := Program.isFinite_eq_true _

theorem solveDual_holds_covering :
    ∃ s, (covering.solveDual { tolerance := 0, feasibilityTolerance := 0 } [2, 3]).outcome =
        .ok s ∧
      ((covering.solveDual { tolerance := 0, feasibilityTolerance := 0 } [2, 3]).snapshots.map
        (·.objective)).Pairwise (· ≤ ·) ∧
      s.verdict.status = .optimal ∧ covering.Holds s.verdict := by
  have h : (covering.solveDual { tolerance := 0, feasibilityTolerance := 0 }
      [2, 3]).outcome.toOption.map (·.verdict.status) = some .optimal := by decide +kernel
  have h0 : ({ tolerance := 0, feasibilityTolerance := 0 } : Options ℚ).tolerance = 0 := rfl
  obtain ⟨-, hmono, hverdict⟩ := solveDual_holds (p := covering) h0 [2, 3]
  obtain ⟨s, hs, hstatus⟩ := exists_ok_of_toOption_map h
  exact ⟨s, hs, hmono, hstatus, (hverdict s hs).1⟩

end Problem
end RevisedSimplex
