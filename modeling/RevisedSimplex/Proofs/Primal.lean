import RevisedSimplex.Proofs.Duality
import RevisedSimplex.Proofs.Path
import RevisedSimplex.Proofs.Pricing
import RevisedSimplex.Proofs.Ratio

/-! # The primal method in exact arithmetic

Every pivot exchanges a profitable column for a row of minimal ratio, so the basic values
stay nonnegative and no pivot is refused. The method stops at an optimum, in an unbounded
direction or at its limit of pivots.
-/

namespace RevisedSimplex

open Matrix

variable {m n : ℕ}

namespace Tableau

/-- A valid tableau in which nothing but zero counts as zero. -/
structure IsExact (t : Tableau ℚ m n) : Prop extends t.IsValid where
  tolerance_eq : t.tolerance = 0

theorem isExact_of_ofBasis {P : Program ℚ m n} {basis : Basis m n} {artificial : ℕ}
    {t : Tableau ℚ m n} (h : ofBasis P basis 0 artificial = .ok t) : t.IsExact := by
  obtain ⟨hv, -, -, htol, -⟩ := isValid_of_ofBasis le_rfl h
  exact ⟨hv, htol⟩

theorem isExact_of_ofIndices {P : Program ℚ m n} {indices : List ℕ} {tolerance : ℚ}
    (h0 : tolerance = 0) {artificial : ℕ} {t : Tableau ℚ m n}
    (h : ofIndices P indices tolerance artificial = .ok t) :
    t.IsExact ∧ t.program = P ∧ t.artificial = artificial := by
  obtain ⟨hv, hP, htol, hart⟩ := isValid_of_ofIndices h0.ge h
  exact ⟨⟨hv, htol.trans h0⟩, hP, hart⟩

/-- A tableau with a basic solution that is a feasible point. -/
structure IsBasicFeasible (t : Tableau ℚ m n) : Prop extends t.IsExact where
  basicValues_nonneg : ∀ i, 0 ≤ t.basicValues.get i

/-- What the primal method exchanges: a profitable column and a row of minimal ratio. -/
structure IsPrimalPivot (t t' : Tableau ℚ m n) (i : Fin m) (j : Fin n) : Prop
    extends IsExchange t t' i j where
  structural : j.val < t.structural
  nonbasic : ∀ k, t.basis.get k ≠ j
  profitable : 0 < t.relativeCost j
  entry_pos : 0 < t.entries i j
  ratio_le : ∀ k, 0 < t.entries k j →
    t.basicValues.get i / t.entries i j ≤ t.basicValues.get k / t.entries k j

theorem primalMove_eq_optimal {options : Options ℚ} {last : Option (Fin n)} {t : Tableau ℚ m n}
    (h : t.primalMove options last = .optimal) : t.isDualFeasible = true := by
  unfold primalMove at h
  split at h
  · rename_i he
    exact isDualFeasible_of_enteringColumn he
  · split at h <;> cases h

theorem primalMove_eq_unbounded {F : Type} [Scalar F] {options : Options F}
    {last : Option (Fin n)} {t : Tableau F m n} {j : Fin n}
    (h : t.primalMove options last = .unbounded j) :
    (∃ cost, t.enteringColumn options.entering last = some (j, cost)) ∧
      t.leavingRow options.leaving (t.column j) = none := by
  unfold primalMove at h
  split at h
  · cases h
  · rename_i he
    split at h
    · rename_i hl
      cases h
      exact ⟨⟨_, he⟩, hl⟩
    · cases h

theorem primalMove_ne_infeasible {F : Type} [Scalar F] (options : Options F)
    (last : Option (Fin n)) (t : Tableau F m n) (i : Fin m) :
    t.primalMove options last ≠ .infeasible i := by
  unfold primalMove
  split
  · simp
  · split <;> simp

theorem primalMove_eq_pivot {F : Type} [Scalar F] {options : Options F} {last : Option (Fin n)}
    {t : Tableau F m n} {i : Fin m} {j : Fin n} {cost : F}
    (h : t.primalMove options last = .pivot i j cost) :
    t.enteringColumn options.entering last = some (j, cost) ∧
      t.leavingRow options.leaving (t.column j) = some i := by
  unfold primalMove at h
  split at h
  · cases h
  · rename_i he
    split at h
    · cases h
    · rename_i hl
      cases h
      exact ⟨he, hl⟩

namespace IsExact

variable {t t' : Tableau ℚ m n} {options : Options ℚ} {last : Option (Fin n)} {i : Fin m}
  {j : Fin n} {cost : ℚ} (ht : t.IsExact)

include ht

theorem isPrimalFeasible_iff :
    t.isPrimalFeasible = true ↔ ∀ i, 0 ≤ t.basicValues.get i := by
  rw [Tableau.isPrimalFeasible_iff, ht.tolerance_eq, neg_zero]

theorem of_isExchange (h : IsExchange t t' i j) : t'.IsExact :=
  ⟨h.valid, h.tolerance_eq.trans ht.tolerance_eq⟩

theorem entry_pos (h : t.primalMove options last = .pivot i j cost) : 0 < t.entries i j := by
  have hp := (leavingRow_spec ht.tolerance_eq (primalMove_eq_pivot h).2).1
  rwa [column_get] at hp

theorem isPrimalPivot (h : t.primalMove options last = .pivot i j cost)
    (ht' : t.pivot i j = .ok t') : IsPrimalPivot t t' i j := by
  obtain ⟨he, hl⟩ := primalMove_eq_pivot h
  obtain ⟨hs, hb, -, hc⟩ := enteringColumn_spec he
  obtain ⟨hp, hmin⟩ := leavingRow_spec ht.tolerance_eq hl
  simp only [column_get] at hp hmin
  exact ⟨ht.isExchange_of_pivot ht', hs, hb, ht.tolerance_eq ▸ hc, hp, hmin⟩

theorem primalMove_pivot_exists (h : t.primalMove options last = .pivot i j cost) :
    ∃ t', t.pivot i j = .ok t' :=
  ht.pivot_exists ht.tolerance_eq (ht.entry_pos h).ne'

theorem isPrimalPivot_of_step {p p' : Position ℚ m n} (hp : p.tableau = t)
    (h : Step (primalMove options) p p') :
    ∃ i j cost, t.primalMove options p.last = .pivot i j cost ∧ p'.last = some j ∧
      IsPrimalPivot t p'.tableau i j := by
  cases h with
  | pivot hm ht' =>
    subst hp
    exact ⟨_, _, _, hm, rfl, ht.isPrimalPivot hm ht'⟩

theorem outOfPivots_of_ends {limit : Option ℕ} {remaining pivots : ℕ} {e : Failure ℚ}
    (h : Ends limit (primalMove options) remaining pivots ⟨last, t⟩ (.error e)) :
    remaining = 0 ∧ e = outOfPivots limit := by
  cases h with
  | singular hm he =>
    obtain ⟨t', ht'⟩ := ht.primalMove_pivot_exists hm
    rw [ht'] at he
    cases he
  | outOfPivots hm => exact ⟨rfl, rfl⟩

/-- Without a row to leave, the entering column is a direction of unlimited gain. -/
theorem unbounded_spec (h : t.primalMove options last = .unbounded j) :
    (∀ i, t.basis.get i ≠ j) ∧ 0 < t.relativeCost j ∧ ∀ i, t.entries i j ≤ 0 := by
  obtain ⟨⟨cost, he⟩, hl⟩ := primalMove_eq_unbounded h
  obtain ⟨-, hb, -, hc⟩ := enteringColumn_spec he
  refine ⟨hb, ht.tolerance_eq ▸ hc, fun i => ?_⟩
  have hle := entry_le_of_leavingRow ht.tolerance_nonneg hl i
  rwa [column_get, ht.tolerance_eq] at hle

theorem relativeCost_nonpos (hd : t.isDualFeasible = true) (hj : j.val < t.structural) :
    t.relativeCost j ≤ 0 :=
  ht.tolerance_eq ▸ ht.relativeCost_le hd hj

end IsExact

theorem IsPrimalPivot.isBasicFeasible {t t' : Tableau ℚ m n} {i : Fin m} {j : Fin n}
    (h : IsPrimalPivot t t' i j) (ht : t.IsBasicFeasible) : t'.IsBasicFeasible :=
  ⟨ht.of_isExchange h.toIsExchange,
    h.basicValues_nonneg ht.toIsValid ht.basicValues_nonneg h.entry_pos h.ratio_le⟩

theorem IsExact.path {t : Tableau ℚ m n} (ht : t.IsExact) {options : Options ℚ}
    {p : ℕ → Position ℚ m n} {k : ℕ} (hp : IsPath (primalMove options) p k)
    (h0 : (p 0).tableau = t) :
    ∀ l ≤ k, (p l).tableau.IsExact ∧ (p l).tableau.program = t.program ∧
      (p l).tableau.artificial = t.artificial := by
  intro l hl
  have h := ht.follows_path hp h0 l hl
  exact ⟨⟨h.toIsValid, h.tolerance_eq.trans ht.tolerance_eq⟩, h.program_eq, h.artificial_eq⟩

structure Continues (t t' : Tableau ℚ m n) : Prop extends t'.IsBasicFeasible where
  program_eq : t'.program = t.program
  artificial_eq : t'.artificial = t.artificial

theorem IsBasicFeasible.continues_path {t : Tableau ℚ m n} (ht : t.IsBasicFeasible)
    {options : Options ℚ} {p : ℕ → Position ℚ m n} {k : ℕ} (hp : IsPath (primalMove options) p k)
    (h0 : (p 0).tableau = t) : ∀ l ≤ k, Continues t (p l).tableau := by
  intro l hl
  obtain ⟨-, hP, hart⟩ := ht.path hp h0 l hl
  refine ⟨hp.invariant (P := fun s => s.tableau.IsBasicFeasible) ?_ (by rwa [h0]) l hl, hP, hart⟩
  intro s s' hs hstep
  obtain ⟨i, j, -, -, -, hpivot⟩ := hs.isPrimalPivot_of_step rfl hstep
  exact hpivot.isBasicFeasible hs

/-- Where the primal method may stop. -/
inductive PrimalStop (t : Tableau ℚ m n) : Status → Prop where
  | optimal : t.isDualFeasible = true → PrimalStop t .optimal
  | unbounded {j : Fin n} : (∀ i, t.basis.get i ≠ j) → 0 < t.relativeCost j →
      (∀ i, t.entries i j ≤ 0) → PrimalStop t .unbounded

theorem PrimalStop.status_eq {t : Tableau ℚ m n} {status : Status} (h : PrimalStop t status) :
    status = .optimal ∨ status = .unbounded := by
  cases h with
  | optimal => exact Or.inl rfl
  | unbounded => exact Or.inr rfl

/-- The primal method follows a path of at most as many pivots as it is allowed. -/
theorem primal_spec {F : Type} [Scalar F] (t : Tableau F m n) (phase : Phase)
    (options : Options F) :
    ∃ (p : ℕ → Position F m n) (k : ℕ), p 0 = ⟨none, t⟩ ∧ IsPath (primalMove options) p k ∧
      k ≤ allowance options.iterationLimit m n ∧
      (t.primal phase options).visits = visitsOf phase 0 k p ∧
      Ends options.iterationLimit (primalMove options)
        (allowance options.iterationLimit m n - k) k (p k) (t.primal phase options).outcome := by
  have h := iterate_spec phase options.iterationLimit (primalMove options)
    (allowance options.iterationLimit m n) 0 none t
  simp only [Nat.zero_add] at h
  exact h

/-- If the primal method returns, it stops at the end of its path. -/
theorem primal_of_ok {F : Type} [Scalar F] {t : Tableau F m n} {phase : Phase}
    {options : Options F} {stop : Stop F m n} (h : (t.primal phase options).outcome = .ok stop) :
    ∃ (p : ℕ → Position F m n) (k : ℕ), p 0 = ⟨none, t⟩ ∧ IsPath (primalMove options) p k ∧
      (t.primal phase options).visits = visitsOf phase 0 k p ∧
      stop.tableau = (p k).tableau ∧ StopsAt (primalMove options) (p k) stop.status := by
  obtain ⟨p, k, hp, hpath, -, hvisits, hends⟩ := t.primal_spec phase options
  rw [h] at hends
  exact ⟨p, k, hp, hpath, hvisits, hends.of_ok⟩

theorem mem_visits_of_primal_ok {F : Type} [Scalar F] {t : Tableau F m n} {phase : Phase}
    {options : Options F} {stop : Stop F m n} (h : (t.primal phase options).outcome = .ok stop) :
    ∃ l, ⟨phase, l, stop.tableau⟩ ∈ (t.primal phase options).visits := by
  obtain ⟨p, k, -, -, hvisits, htableau, -⟩ := primal_of_ok h
  rw [hvisits, htableau]
  exact ⟨0 + k, mem_visitsOf.mpr ⟨k, le_rfl, rfl⟩⟩

theorem status_of_primal {F : Type} [Scalar F] {t : Tableau F m n} {phase : Phase}
    {options : Options F} {stop : Stop F m n} (h : (t.primal phase options).outcome = .ok stop) :
    stop.status ≠ .infeasible := by
  obtain ⟨p, k, -, -, -, -, hstop⟩ := primal_of_ok h
  intro hstatus
  rw [hstatus] at hstop
  cases hstop with
  | infeasible hm => exact primalMove_ne_infeasible _ _ _ _ hm

/-- Whatever counts as zero, an optimum is a dual feasible tableau of the same program. -/
theorem IsValid.follows_of_primal_ok {t : Tableau ℚ m n} (ht : t.IsValid) {phase : Phase}
    {options : Options ℚ} {stop : Stop ℚ m n}
    (h : (t.primal phase options).outcome = .ok stop) : Follows t stop.tableau ∧
      (stop.status = .optimal → stop.tableau.isDualFeasible = true) := by
  obtain ⟨p, k, hp, hpath, -, htableau, hstop⟩ := primal_of_ok h
  rw [htableau]
  refine ⟨ht.follows_path hpath (by rw [hp]) k le_rfl, fun hstatus => ?_⟩
  rw [hstatus] at hstop
  cases hstop with
  | optimal hm => exact primalMove_eq_optimal hm

theorem IsValid.follows_of_mem_visits {t : Tableau ℚ m n} (ht : t.IsValid) {phase : Phase}
    {options : Options ℚ} {v : Visit ℚ} (hv : v ∈ (t.primal phase options).visits) :
    ∃ l t', v = ⟨phase, l, t'⟩ ∧ Follows t t' := by
  obtain ⟨p, k, hp, hpath, -, hvisits, -⟩ := t.primal_spec phase options
  rw [hvisits] at hv
  obtain ⟨l, hl, rfl⟩ := mem_visitsOf.mp hv
  exact ⟨0 + l, (p l).tableau, rfl, ht.follows_path hpath (by rw [hp]) l hl⟩

theorem IsBasicFeasible.primalStop {s : Position ℚ m n} {options : Options ℚ} {status : Status}
    (hs : s.tableau.IsBasicFeasible) (h : StopsAt (primalMove options) s status) :
    PrimalStop s.tableau status := by
  cases h with
  | optimal hm => exact .optimal (primalMove_eq_optimal hm)
  | unbounded hm =>
    obtain ⟨hb, hc, hcol⟩ := hs.toIsExact.unbounded_spec hm
    exact .unbounded hb hc hcol
  | infeasible hm => exact absurd hm (primalMove_ne_infeasible _ _ _ _)

theorem IsBasicFeasible.primal_ok {t : Tableau ℚ m n} (ht : t.IsBasicFeasible) {phase : Phase}
    {options : Options ℚ} {stop : Stop ℚ m n}
    (h : (t.primal phase options).outcome = .ok stop) :
    Continues t stop.tableau ∧ PrimalStop stop.tableau stop.status := by
  obtain ⟨p, k, hp, hpath, -, htableau, hstop⟩ := primal_of_ok h
  have hk := ht.continues_path hpath (by rw [hp]) k le_rfl
  rw [htableau]
  exact ⟨hk, hk.primalStop hstop⟩

theorem IsBasicFeasible.primal_error {t : Tableau ℚ m n} (ht : t.IsBasicFeasible) {phase : Phase}
    {options : Options ℚ} {e : Failure ℚ} (h : (t.primal phase options).outcome = .error e) :
    e = outOfPivots options.iterationLimit := by
  obtain ⟨p, k, hp, hpath, -, -, hends⟩ := primal_spec t phase options
  rw [h] at hends
  exact ((ht.continues_path hpath (by rw [hp]) k le_rfl).outOfPivots_of_ends hends).2

end Tableau
end RevisedSimplex
