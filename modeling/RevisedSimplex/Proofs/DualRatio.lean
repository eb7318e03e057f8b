import RevisedSimplex.Proofs.Exchange
import RevisedSimplex.Proofs.Ratio
import RevisedSimplex.Proofs.Soundness

/-! # Contract of the dual ratio test

The row with the most negative value leaves, up to the tolerance. The column that enters has the
least ratio of its relative cost to its entry in the row, up to the tolerance divided by the largest
negative entry. Whatever the signs of the relative costs, the exchange then brings none of the
compared ones above the tolerance.
-/

namespace RevisedSimplex
namespace Tableau

variable {m n : ℕ} {t : Tableau ℚ m n} {i : Fin m} {j : Fin n}

/-- An infeasible row whose value exceeds the least one by at most the tolerance. -/
def IsMostInfeasible (t : Tableau ℚ m n) (i : Fin m) : Prop :=
  t.basicValues.get i < -t.tolerance ∧ ∃ least,
    IsLeast (Set.range t.basicValues.get) least ∧ t.basicValues.get i ≤ least + t.tolerance

def eligibleColumns (t : Tableau ℚ m n) (i : Fin m) : Set (Fin n) :=
  {j | j.val < t.structural ∧ t.isBasic j = false ∧ t.entries i j < -t.tolerance}

/-- The step along the row that makes the relative cost of the column zero. -/
def costStep (t : Tableau ℚ m n) (i : Fin m) (j : Fin n) : ℚ := t.relativeCost j / t.entries i j

/-- An eligible column whose step exceeds the least one by at most the tolerance divided by the
magnitude of the largest entry of the eligible columns. -/
def IsTiedColumn (t : Tableau ℚ m n) (i : Fin m) (j : Fin n) : Prop :=
  j ∈ t.eligibleColumns i ∧ ∃ entry step,
    IsGreatest ((fun k => -t.entries i k) '' t.eligibleColumns i) entry ∧
    IsLeast (t.costStep i '' t.eligibleColumns i) step ∧
    t.costStep i j ≤ step + t.tolerance / entry

theorem isLeast_range_iff (hi : t.basicValues.get i < -t.tolerance) {least : ℚ} :
    IsLeast (t.basicValues.get '' {k | t.basicValues.get k < -t.tolerance}) least ↔
      IsLeast (Set.range t.basicValues.get) least := by
  constructor
  · rintro ⟨⟨k, hk, rfl⟩, hle⟩
    refine ⟨Set.mem_range_self k, ?_⟩
    rintro _ ⟨l, rfl⟩
    rcases lt_or_ge (t.basicValues.get l) (-t.tolerance) with hl | hl
    · exact hle (Set.mem_image_of_mem _ hl)
    · exact (le_of_lt hk).trans hl
  · rintro ⟨⟨k, rfl⟩, hle⟩
    have hk : t.basicValues.get k < -t.tolerance := (hle (Set.mem_range_self i)).trans_lt hi
    exact ⟨Set.mem_image_of_mem _ hk,
      fun v hv => hle (Set.image_subset_range _ _ hv)⟩

theorem mem_minimizers_infeasibleRows :
    i ∈ minimizers t.tolerance t.basicValues.get t.infeasibleRows ↔ t.IsMostInfeasible i := by
  rw [mem_minimizers_iff_isLeast (S := {k | t.basicValues.get k < -t.tolerance})
    fun _ => mem_infeasibleRows]
  exact and_congr_right fun hi => exists_congr fun _ => and_congr_left' (isLeast_range_iff hi)

theorem IsValid.dualLeavingRow_eq_none_iff (ht : t.IsValid) :
    t.dualLeavingRow = none ↔ t.isPrimalFeasible = true := by
  refine ⟨isPrimalFeasible_of_dualLeavingRow ht.tolerance_nonneg, fun hf => ?_⟩
  by_contra hne
  obtain ⟨i, hi⟩ := Option.ne_none_iff_exists'.mp hne
  exact (lt_of_dualLeavingRow hi).not_ge (t.isPrimalFeasible_iff.mp hf i)

theorem IsValid.dualLeavingRow_eq_some_iff (ht : t.IsValid) :
    t.dualLeavingRow = some i ↔
      t.IsMostInfeasible i ∧
        ∀ k ≠ i, t.IsMostInfeasible k → t.basis.get i < t.basis.get k := by
  rw [dualLeavingRow, smallestBasic_eq_some_iff ht.basis_injective]
  simp only [mem_minimizers_infeasibleRows]
  exact and_congr_right fun _ => forall_congr' fun _ => imp.swap

theorem mem_minimizers_pivotColumns (ht : 0 ≤ t.tolerance) :
    j ∈ minimizers (tieWindow t.tolerance ((t.pivotColumns i).map fun k => -t.rowEntry i k))
      (fun k => t.relativeCost k / t.rowEntry i k) (t.pivotColumns i) ↔ t.IsTiedColumn i j := by
  simp only [rowEntry_eq]
  refine mem_minimizers_tieWindow_iff (fun _ => mem_pivotColumns) fun k hk => ?_
  exact neg_pos.mpr (hk.2.2.trans_le (neg_nonpos.mpr ht))

theorem dualEnteringColumn_eq_some_iff (ht : 0 ≤ t.tolerance) :
    t.dualEnteringColumn i = some j ↔
      t.IsTiedColumn i j ∧ ∀ k ≠ j, t.IsTiedColumn i k → j < k := by
  have hsorted : (t.pivotColumns i).Pairwise (· < ·) :=
    (t.pairwise_candidates.filter _).filter _
  rw [dualEnteringColumn, head?_eq_some_iff_of_pairwise id
    (hsorted.sublist (minimizers_sublist _ _ _))]
  simp only [mem_minimizers_pivotColumns ht]
  exact and_congr_right fun _ => forall_congr' fun _ => imp.swap

theorem dualEnteringColumn_eq_none_iff (ht : 0 ≤ t.tolerance) :
    t.dualEnteringColumn i = none ↔ ∀ k : Fin n, k.val < t.structural → t.isBasic k = false →
      -t.tolerance ≤ t.entries i k := by
  refine ⟨fun h k hk hb => entry_ge_of_dualEnteringColumn ht h hk hb, fun h => ?_⟩
  by_contra hne
  obtain ⟨j, hj⟩ := Option.ne_none_iff_exists'.mp hne
  obtain ⟨hstructural, hb, hlt⟩ := ((dualEnteringColumn_eq_some_iff ht).mp hj).1.1
  exact hlt.not_ge (h j hstructural hb)

/-- A tied column moves no relative cost that is compared above the tolerance. -/
theorem IsTiedColumn.relativeCost_sub_le (ht : 0 ≤ t.tolerance) (hj : t.IsTiedColumn i j)
    {k : Fin n} (hk : k ∈ t.eligibleColumns i) :
    t.relativeCost k - t.costStep i j * t.entries i k ≤ t.tolerance := by
  obtain ⟨-, entry, step, hentry, hstep, hle⟩ := hj
  have hneg : t.entries i k < 0 := hk.2.2.trans_le (neg_nonpos.mpr ht)
  have hmagnitude : -t.entries i k ≤ entry := hentry.2 (Set.mem_image_of_mem _ hk)
  have hleast : step ≤ t.costStep i k := hstep.2 (Set.mem_image_of_mem _ hk)
  have hpos : 0 < entry := (neg_pos.mpr hneg).trans_le hmagnitude
  have hcost : t.costStep i k * t.entries i k = t.relativeCost k := div_mul_cancel₀ _ hneg.ne
  calc t.relativeCost k - t.costStep i j * t.entries i k
      = (t.costStep i j - t.costStep i k) * -t.entries i k := by rw [← hcost]; ring
    _ ≤ t.tolerance / entry * -t.entries i k :=
        mul_le_mul_of_nonneg_right (by linarith) (neg_pos.mpr hneg).le
    _ ≤ t.tolerance / entry * entry :=
        mul_le_mul_of_nonneg_left hmagnitude (div_nonneg ht hpos.le)
    _ = t.tolerance := div_mul_cancel₀ _ hpos.ne'

/-- A row leaves unless the basic solution is feasible: of the most infeasible rows the one with the
smallest basic column. For a row a column enters unless no candidate has a negative entry: of the
tied columns the first one, and no relative cost that is compared comes above the tolerance. -/
theorem dualRatio_contract (ht : t.IsValid) :
    (t.dualLeavingRow = none ↔ t.isPrimalFeasible = true) ∧
    (∀ i, t.dualLeavingRow = some i ↔ t.IsMostInfeasible i ∧
      ∀ k ≠ i, t.IsMostInfeasible k → t.basis.get i < t.basis.get k) ∧
    ∀ i,
      (t.dualEnteringColumn i = none ↔ ∀ k : Fin n, k.val < t.structural →
        t.isBasic k = false → -t.tolerance ≤ t.entries i k) ∧
      ∀ j,
        (t.dualEnteringColumn i = some j ↔
          t.IsTiedColumn i j ∧ ∀ k ≠ j, t.IsTiedColumn i k → j < k) ∧
        (t.dualEnteringColumn i = some j → j ∈ t.eligibleColumns i ∧
          ∀ k ∈ t.eligibleColumns i,
            t.relativeCost k - t.costStep i j * t.entries i k ≤ t.tolerance ∧
            ∀ t', t.pivot i j = .ok t' → t'.relativeCost k ≤ t.tolerance) := by
  have htol := ht.tolerance_nonneg
  refine ⟨ht.dualLeavingRow_eq_none_iff, fun _ => ht.dualLeavingRow_eq_some_iff, fun i =>
    ⟨dualEnteringColumn_eq_none_iff htol, fun j => ⟨dualEnteringColumn_eq_some_iff htol,
      fun hj => ?_⟩⟩⟩
  have htied := ((dualEnteringColumn_eq_some_iff htol).mp hj).1
  refine ⟨htied.1, fun k hk => ?_⟩
  have hcost := htied.relativeCost_sub_le htol hk
  refine ⟨hcost, fun t' h => ?_⟩
  rwa [(ht.isExchange_of_pivot h).relativeCost_eq ht]

/-- The values `-21 / 20` and `-1` tie, and so do the ratios `26 / 25` and `1` to the entries of the
second row, for a tolerance of `1 / 10`. -/
def dualTiedProgram : Program ℚ 2 4 :=
  ⟨#v[52 / 25, 1, 0, 0], ⟨#v[#v[1, 1, 0, 1], #v[-2, -1, 1, 0]]⟩, #v[-21 / 20, -1]⟩

theorem dualRatio_contract_dualTiedProgram :
    ∃ t, ofBasis dualTiedProgram #v[3, 2] (1 / 10) 0 = .ok t ∧ t.isPrimalFeasible = false ∧
      t.dualLeavingRow = some 1 ∧ t.IsMostInfeasible 1 ∧
      t.dualEnteringColumn 1 = some 0 ∧ t.IsTiedColumn 1 0 ∧
      t.relativeCost 1 - t.costStep 1 0 * t.entries 1 1 ≤ t.tolerance ∧
      ∀ t', t.pivot 1 0 = .ok t' → t'.relativeCost 1 ≤ t.tolerance := by
  have h : (ofBasis dualTiedProgram #v[3, 2] (1 / 10) 0).toOption.map (fun t =>
      (t.dualLeavingRow, t.dualEnteringColumn 1,
        decide (1 ∈ t.pivotColumns 1))) = some (some 1, some 0, true) := by
    decide +kernel
  obtain ⟨t, ht, he⟩ := exists_ok_of_toOption_map h
  simp only [Prod.mk.injEq, decide_eq_true_eq] at he
  obtain ⟨hrow, hcolumn, hmem⟩ := he
  obtain ⟨hv, -⟩ := isValid_of_ofBasis (by norm_num) ht
  obtain ⟨hnone, hleaving, hentering⟩ := dualRatio_contract hv
  obtain ⟨htied, hchosen⟩ := (hentering 1).2 0
  obtain ⟨hcost, hpivot⟩ := (hchosen hcolumn).2 1 (mem_pivotColumns.mp hmem)
  refine ⟨t, ht, ?_, hrow, ((hleaving 1).mp hrow).1, hcolumn, (htied.mp hcolumn).1, hcost, hpivot⟩
  rw [← Bool.not_eq_true, ← hnone, hrow]
  exact Option.some_ne_none _

end Tableau
end RevisedSimplex
