import RevisedSimplex.Proofs.Progress

/-! # Bland's rule

The first profitable column enters, and of the tied rows the one with the smallest basic column
leaves. In a cycle every pivot is degenerate. Where the largest column that enters and leaves
in it would leave, a smaller column ties with it, so there is no cycle.
-/

namespace RevisedSimplex

open Matrix

variable {m n : ℕ}

theorem exists_lost {P : ℕ → Prop} {a b : ℕ} (hab : a ≤ b) (ha : P a) (hb : ¬ P b) :
    ∃ l < b, P l ∧ ¬ P (l + 1) := by
  induction b, hab using Nat.le_induction with
  | base => exact absurd ha hb
  | succ b _ ih =>
    by_cases h : P b
    · exact ⟨b, b.lt_succ_self, h, hb⟩
    · obtain ⟨l, hl, hl'⟩ := ih h
      exact ⟨l, hl.trans b.lt_succ_self, hl'⟩

theorem exists_lost_of_cycle {P : ℕ → Prop} {a b k : ℕ} (hcycle : P k ↔ P 0) (hak : a ≤ k)
    (hbk : b ≤ k) (ha : P a) (hb : ¬ P b) : ∃ l < k, P l ∧ ¬ P (l + 1) := by
  by_cases h0 : P 0
  · obtain ⟨l, hl, h⟩ := exists_lost (Nat.zero_le b) h0 hb
    exact ⟨l, hl.trans_le hbk, h⟩
  · exact exists_lost hak ha (mt hcycle.mp h0)

structure Options.IsBland (options : Options ℚ) : Prop where
  entering_eq : options.entering = .firstProfitable
  leaving_eq : options.leaving = .smallestIndex

namespace Tableau

/-- What Bland's rule exchanges: no smaller column is profitable, and no smaller basic column has
the minimal ratio. -/
structure IsBlandPivot (t t' : Tableau ℚ m n) (i : Fin m) (j : Fin n) : Prop
    extends IsPrimalPivot t t' i j where
  relativeCost_nonpos : ∀ c < j, t.relativeCost c ≤ 0
  basis_le : ∀ k, 0 < t.entries k j →
    t.basicValues.get k / t.entries k j ≤ t.basicValues.get i / t.entries i j →
    t.basis.get i ≤ t.basis.get k

theorem IsExact.isBlandPivot_of_step {t : Tableau ℚ m n} (ht : t.IsExact) {options : Options ℚ}
    (ho : options.IsBland) {p p' : Position ℚ m n} (hp : p.tableau = t)
    (h : Step (primalMove options) p p') : ∃ i j, IsBlandPivot t p'.tableau i j := by
  obtain ⟨i, j, cost, hm, -, hpivot⟩ := ht.isPrimalPivot_of_step hp h
  obtain ⟨he, hl⟩ := primalMove_eq_pivot hm
  rw [ho.entering_eq] at he
  rw [ho.leaving_eq] at hl
  refine ⟨i, j, hpivot, fun c hc => ?_, fun k hk hle => ?_⟩
  · by_cases hb : ∃ l, t.basis.get l = c
    · obtain ⟨l, rfl⟩ := hb
      exact (ht.relativeCost_basic l).le
    · push Not at hb
      exact ht.tolerance_eq ▸ relativeCost_le_of_lt_firstProfitable he hc hb
  · apply basis_le_of_smallestIndex hl
    rw [mem_tiedRows, ratioWindow_zero ht.tolerance_eq, ht.tolerance_eq]
    simp only [column_get, add_zero]
    exact ⟨hk, fun l hl => hle.trans (hpivot.ratio_le l hl)⟩

/-- A run of Bland pivots that comes back to its set of basic columns. -/
structure IsBlandCycle (T : ℕ → Tableau ℚ m n) (k : ℕ) : Prop where
  feasible : ∀ l ≤ k, (T l).IsBasicFeasible
  pivot : ∀ l < k, ∃ i j, IsBlandPivot (T l) (T (l + 1)) i j
  closed : (T k).basicColumns = (T 0).basicColumns

namespace IsBlandCycle

variable {T : ℕ → Tableau ℚ m n} {k : ℕ} (h : IsBlandCycle T k)

include h

theorem isPrimalSequence : IsPrimalSequence T k :=
  ⟨h.feasible, fun l hl =>
    (h.pivot l hl).imp fun _ hi => hi.imp fun _ hpivot => hpivot.toIsPrimalPivot⟩

theorem value_eq_zero {l : ℕ} (hl : l < k) {i : Fin m} {j : Fin n}
    (hpivot : IsBlandPivot (T l) (T (l + 1)) i j) : (T l).basicValues.get i = 0 :=
  h.isPrimalSequence.value_eq_zero le_rfl h.closed (Nat.zero_le l) hl hpivot.toIsPrimalPivot

theorem point_eq {l : ℕ} (hl : l ≤ k) : (T l).point.get = (T 0).point.get :=
  h.isPrimalSequence.point_eq le_rfl h.closed (Nat.zero_le l) hl

theorem basicValue_eq_zero {a b : ℕ} (ha : a ≤ k) (hb : b ≤ k) {r : Fin m}
    (hc : (T b).basis.get r ∉ (T a).basicColumns) : (T b).basicValues.get r = 0 := by
  have hpoint := congrFun ((h.point_eq hb).trans (h.point_eq ha).symm) ((T b).basis.get r)
  rwa [(h.feasible b hb).point_get, spread_basic (h.feasible b hb).basis_injective,
    (h.feasible a ha).point_get, spread_nonbasic (notMem_basicColumns.mp hc)] at hpoint

theorem exists_pivots {a b : ℕ} (ha : a ≤ k) (hb : b ≤ k) {c : Fin n}
    (hca : c ∈ (T a).basicColumns) (hcb : c ∉ (T b).basicColumns) :
    (∃ l < k, ∃ i, IsBlandPivot (T l) (T (l + 1)) i c) ∧
      ∃ l < k, ∃ i j, IsBlandPivot (T l) (T (l + 1)) i j ∧ (T l).basis.get i = c := by
  have hcycle : c ∈ (T k).basicColumns ↔ c ∈ (T 0).basicColumns := by rw [h.closed]
  constructor
  · obtain ⟨l, hl, hnot, hin⟩ := exists_lost_of_cycle (P := fun l => c ∉ (T l).basicColumns)
      (not_congr hcycle) hb ha hcb (not_not.mpr hca)
    obtain ⟨i, j, hpivot⟩ := h.pivot l hl
    rw [not_not, hpivot.mem_basicColumns_iff (h.feasible l hl.le).toIsValid] at hin
    rcases hin with rfl | ⟨hin, -⟩
    · exact ⟨l, hl, i, hpivot⟩
    · exact absurd hin hnot
  · obtain ⟨l, hl, hin, hnot⟩ := exists_lost_of_cycle (P := fun l => c ∈ (T l).basicColumns)
      hcycle ha hb hca hcb
    obtain ⟨i, j, hpivot⟩ := h.pivot l hl
    rw [hpivot.mem_basicColumns_iff (h.feasible l hl.le).toIsValid, not_or,
      not_and_not_right] at hnot
    exact ⟨l, hl, i, j, hpivot, (hnot.2 hin).symm⟩

/-- Priced with the relative costs of any position, the direction of an entering column gains. -/
theorem exists_gain {a b : ℕ} (ha : a ≤ k) (hb : b < k) {i : Fin m} {q : Fin n}
    (hpivot : IsBlandPivot (T b) (T (b + 1)) i q) :
    ∃ c, 0 < (T a).relativeCost c * (T b).direction q c := by
  have hB := h.feasible b hb.le
  have hcost := (T a).cost_dotProduct ((T b).direction q)
  rw [h.isPrimalSequence.program_eq ha, ← h.isPrimalSequence.program_eq hb.le,
    hB.constraints_mulVec_direction, hB.cost_dotProduct_direction, dotProduct_zero, zero_sub,
    neg_inj] at hcost
  by_contra hno
  push Not at hno
  have hsum : (T a).relativeCost ⬝ᵥ (T b).direction q ≤ 0 := Finset.sum_nonpos fun c _ => hno c
  rw [← hcost] at hsum
  exact not_lt.mpr hsum hpivot.profitable

/-- The column that gains where `t` leaves, at the prices where `t` enters, is smaller than `t` and
ties with it. -/
theorem not_enters_and_leaves {a b : ℕ} (ha : a < k) (hb : b < k) {i r : Fin m} {t q : Fin n}
    (henter : IsBlandPivot (T a) (T (a + 1)) i t) (hleave : IsBlandPivot (T b) (T (b + 1)) r q)
    (hr : (T b).basis.get r = t) (hq : q < t)
    (hmax : ∀ c ∈ (T b).basicColumns, c ∉ (T a).basicColumns → c ≤ t) : False := by
  have hA := h.feasible a ha.le
  have hB := h.feasible b hb.le
  obtain ⟨c, hc⟩ := h.exists_gain ha.le hb hleave
  have hca : c ∉ (T a).basicColumns := by
    rw [mem_basicColumns]
    rintro ⟨l, rfl⟩
    rw [hA.relativeCost_basic, zero_mul] at hc
    exact lt_irrefl 0 hc
  by_cases hcb : c ∈ (T b).basicColumns
  · have hle := hmax c hcb hca
    obtain ⟨l, rfl⟩ := mem_basicColumns.mp hcb
    rw [hB.direction_basic hleave.nonbasic, mul_neg, neg_pos] at hc
    have hlt : (T b).basis.get l < t := by
      refine lt_of_le_of_ne hle fun he => ?_
      rw [← hr] at he
      rw [he, hr, hB.basis_injective he] at hc
      exact absurd hc (mul_pos henter.profitable hleave.entry_pos).le.not_gt
    have hz := henter.relativeCost_nonpos _ hlt
    have hpos : 0 < (T b).entries l q := by
      by_contra hneg
      exact absurd hc (mul_nonneg_of_nonpos_of_nonpos hz (not_lt.mp hneg)).not_gt
    have htie := hleave.basis_le l hpos (by
      rw [h.basicValue_eq_zero ha.le hb.le hca, h.value_eq_zero hb hleave, zero_div, zero_div])
    exact absurd (hr ▸ htie) hlt.not_ge
  · by_cases hcq : c = q
    · rw [hcq, IsValid.direction_self hleave.nonbasic, mul_one] at hc
      exact absurd hc (henter.relativeCost_nonpos q hq).not_gt
    · rw [IsValid.direction_nonbasic (notMem_basicColumns.mp hcb) hcq, mul_zero] at hc
      exact lt_irrefl 0 hc

/-- There is no cycle. -/
theorem eq_zero : k = 0 := by
  classical
  by_contra hk
  have hk : 0 < k := Nat.pos_of_ne_zero hk
  -- the columns that are basic at some positions but not at all of them
  let fickle := Finset.univ.filter fun c : Fin n =>
    (∃ a ≤ k, c ∈ (T a).basicColumns) ∧ ∃ b ≤ k, c ∉ (T b).basicColumns
  have hfickle : ∀ {a b : ℕ} {c : Fin n}, a ≤ k → b ≤ k → c ∈ (T a).basicColumns →
      c ∉ (T b).basicColumns → c ∈ fickle := fun ha hb hca hcb =>
    Finset.mem_filter.mpr ⟨Finset.mem_univ _, ⟨_, ha, hca⟩, _, hb, hcb⟩
  have hentering : ∀ {l : ℕ} {i : Fin m} {j : Fin n}, l < k →
      IsBlandPivot (T l) (T (l + 1)) i j → j ∈ fickle := fun hl hpivot =>
    hfickle hl hl.le
      ((hpivot.mem_basicColumns_iff (h.feasible _ hl.le).toIsValid).mpr (Or.inl rfl))
      (notMem_basicColumns.mpr hpivot.nonbasic)
  obtain ⟨i₀, j₀, hpivot₀⟩ := h.pivot 0 hk
  obtain ⟨t, ht, hmax⟩ := fickle.exists_max_image id ⟨j₀, hentering hk hpivot₀⟩
  obtain ⟨-, ⟨_, hin, hta⟩, _, hout, htb⟩ := Finset.mem_filter.mp ht
  obtain ⟨⟨a, ha, i, henter⟩, b, hb, r, q, hleave, hr⟩ := h.exists_pivots hin hout hta htb
  refine h.not_enters_and_leaves ha hb henter hleave hr ?_ fun c hcb hca =>
    hmax c (hfickle hb.le ha.le hcb hca)
  refine lt_of_le_of_ne (hmax q (hentering hb hleave)) ?_
  rintro rfl
  exact hleave.nonbasic r hr

end IsBlandCycle

variable {t : Tableau ℚ m n} {options : Options ℚ}

/-- With Bland's rule no set of basic columns repeats. -/
theorem IsBasicFeasible.basicColumns_injOn (ht : t.IsBasicFeasible) (ho : options.IsBland)
    {p : ℕ → Position ℚ m n} {k : ℕ} (hp : IsPath (primalMove options) p k)
    (h0 : (p 0).tableau = t) :
    Set.InjOn (fun l => (p l).tableau.basicColumns) (Set.Iic k) := by
  have hpath := ht.continues_path hp h0
  refine injOn_Iic_of_lt_imp_ne fun a b hab hb hclosed => ?_
  have hcycle : IsBlandCycle (fun l => (p (a + l)).tableau) (b - a) := by
    refine ⟨fun l hl => ?_, fun l hl => ?_, ?_⟩
    · exact (hpath (a + l) (by omega)).toIsBasicFeasible
    · exact (hpath (a + l) (by omega)).toIsExact.isBlandPivot_of_step ho rfl
        (hp (a + l) (by omega))
    · simpa only [Nat.add_sub_cancel' hab.le, Nat.add_zero] using hclosed.symm
  exact Nat.sub_ne_zero_of_lt hab hcycle.eq_zero

theorem IsBasicFeasible.primal_ok_of_isBland (ht : t.IsBasicFeasible) (ho : options.IsBland)
    (hlimit : options.iterationLimit = none) (phase : Phase) :
    ∃ stop, (t.primal phase options).outcome = .ok stop := by
  obtain ⟨p, k, -, -, -, -, hstops⟩ :=
    ht.primal_of_injOn (fun p k hp h0 => ht.basicColumns_injOn ho hp h0) phase
  obtain ⟨stop, hstop, -⟩ := hstops hlimit
  exact ⟨stop, hstop⟩

end Tableau

namespace Problem

variable {options : Options ℚ}

/-- With Bland's rule and no limit every problem is solved. -/
theorem solve_ok_of_isBland (ho : options.IsBland) (hlimit : options.iterationLimit = none)
    (h0 : options.tolerance = 0) (hf : options.feasibilityTolerance = 0) (p : Problem ℚ) :
    ∃ s, (p.solve options none).outcome = .ok s := by
  obtain ⟨start, hstart, haux⟩ := p.standardForm.start_spec h0
  change ∃ s, (p.solveTwoPhase options).outcome = .ok s
  rcases p.standardForm.feasibility_spec h0 hf hstart with ⟨-, he⟩ | ⟨stop, answer, -, hok, hans⟩
  · obtain ⟨stop, hstop⟩ := haux.primal_ok_of_isBland ho hlimit .one
    rw [hstop] at he
    cases he
  · cases hans with
    | infeasible hno =>
      obtain ⟨counts, hs⟩ := (solveTwoPhase_of_infeasible hok).2
      exact ⟨_, hs⟩
    | feasible ht hfeasible hP hart hred =>
      obtain ⟨stop', hstop'⟩ := hfeasible.primal_ok_of_isBland ho hlimit .two
      rw [(solveTwoPhase_of_feasible hok).2, h0, ht, Run.ofExcept_ok_bind]
      obtain ⟨counts, hs⟩ := optimize_of_ok hstop' _ _
      exact ⟨_, hs⟩

end Problem

/-- Bland's rule terminates. From a basis with nonnegative values no set of basic columns repeats
along the pivots, so without a limit the primal method stops at the end of its path with an optimum
or an unbounded direction, and every problem is solved in two phases. -/
theorem bland_terminates {options : Options ℚ} (ho : options.IsBland) :
    (∀ {m n : ℕ} (P : Program ℚ m n) (basis : Basis m n) (artificial : ℕ) (t : Tableau ℚ m n),
      Tableau.ofBasis P basis 0 artificial = .ok t → (∀ i, 0 ≤ t.basicValues.get i) →
      ∀ phase, ∃ (p : ℕ → Position ℚ m n) (k : ℕ), p 0 = ⟨none, t⟩ ∧
        Tableau.IsPath (Tableau.primalMove options) p k ∧
        (t.primal phase options).snapshots =
          (List.range (k + 1)).map (fun l => (p l).tableau.snapshot phase l) ∧
        ((t.primal phase options).snapshots.map (·.basis.toFinset)).Nodup ∧
        (options.iterationLimit = none → ∃ stop, (t.primal phase options).outcome = .ok stop ∧
          stop.tableau = (p k).tableau ∧
          (stop.status = .optimal ∨ stop.status = .unbounded))) ∧
    (options.iterationLimit = none → options.tolerance = 0 → options.feasibilityTolerance = 0 →
      ∀ p : Problem ℚ, ∃ s, (p.solve options none).outcome = .ok s ∧ p.Holds s.verdict) := by
  constructor
  · intro m n P basis artificial t h hv phase
    have ht : t.IsBasicFeasible := ⟨Tableau.isExact_of_ofBasis h, hv⟩
    exact ht.primal_of_injOn (fun p k hp h0 => ht.basicColumns_injOn ho hp h0) phase
  · intro hlimit h0 hf p
    obtain ⟨s, hs⟩ := Problem.solve_ok_of_isBland ho hlimit h0 hf p
    exact ⟨s, hs, Problem.solveTwoPhase_holds h0 hf hs⟩

def beale : Problem ℚ where
  objective := .minimize
  program := bealeProgram
  rows_pos := Nat.zero_lt_succ 2
  columns_pos := Nat.zero_lt_succ 6
  isFinite := Program.isFinite_eq_true _

theorem bland_terminates_beale :
    (∃ t, Tableau.ofBasis bealeProgram #v[0, 1, 2] 0 0 = .ok t ∧
      ((t.primal .two ⟨0, 0, .firstProfitable, .smallestIndex, none⟩).snapshots.map
        (·.basis.toFinset)).Nodup ∧
      ∃ stop, (t.primal .two ⟨0, 0, .firstProfitable, .smallestIndex, none⟩).outcome = .ok stop) ∧
    ∃ s, (beale.solve ⟨0, 0, .firstProfitable, .smallestIndex, none⟩ none).outcome = .ok s ∧
      beale.Holds s.verdict := by
  have ho : Options.IsBland (⟨0, 0, .firstProfitable, .smallestIndex, none⟩ : Options ℚ) :=
    ⟨rfl, rfl⟩
  obtain ⟨hprimal, hsolve⟩ := bland_terminates ho
  refine ⟨?_, hsolve rfl rfl rfl beale⟩
  have h : (Tableau.ofBasis bealeProgram #v[0, 1, 2] 0 0).toOption.map
      (·.isPrimalFeasible) = some true := by decide +kernel
  obtain ⟨t, ht, hf⟩ := exists_ok_of_toOption_map h
  have hnonneg := (Tableau.isExact_of_ofBasis ht).isPrimalFeasible_iff.mp hf
  obtain ⟨p, k, -, -, -, hnodup, hok⟩ := hprimal _ _ 0 t ht hnonneg .two
  obtain ⟨stop, hstop, -⟩ := hok rfl
  exact ⟨t, ht, hnodup, stop, hstop⟩

end RevisedSimplex
