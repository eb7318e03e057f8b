import RevisedSimplex.Proofs.Exchange
import RevisedSimplex.Proofs.Ratio
import RevisedSimplex.Proofs.Soundness

/-! # Contract of the primal ratio test

The rows that tie are those whose ratio exceeds the least one by at most the tolerance divided by
the largest entry that is compared. Whatever the basic values are, the step of a tied row moves no
compared row below zero by more than the tolerance. The first two rules choose by the row and by
the basic column.
-/

namespace RevisedSimplex
namespace Tableau

variable {m n : ℕ} {t : Tableau ℚ m n} {column : Vector ℚ m} {i : Fin m}

def eligible (t : Tableau ℚ m n) (column : Vector ℚ m) : Set (Fin m) :=
  {i | t.tolerance < column.get i}

/-- The step along the column that makes the basic variable of the row zero. -/
def stepTo (t : Tableau ℚ m n) (column : Vector ℚ m) (i : Fin m) : ℚ :=
  t.basicValues.get i / column.get i

/-- An eligible row whose step exceeds the least one by at most the tolerance divided by the largest
entry of the eligible rows. -/
def IsTied (t : Tableau ℚ m n) (column : Vector ℚ m) (i : Fin m) : Prop :=
  i ∈ t.eligible column ∧ ∃ entry step,
    IsGreatest (column.get '' t.eligible column) entry ∧
    IsLeast (t.stepTo column '' t.eligible column) step ∧
    t.stepTo column i ≤ step + t.tolerance / entry

theorem mem_tiedRows_iff (ht : 0 ≤ t.tolerance) : i ∈ t.tiedRows column ↔ t.IsTied column i :=
  mem_minimizers_tieWindow_iff (fun _ => mem_pivotRows) fun _ hi => ht.trans_lt hi

theorem lt_of_firstMinimum (h : t.leavingRow .firstMinimum column = some i) {k : Fin m}
    (hk : k ∈ t.tiedRows column) (hki : k ≠ i) : i < k := by
  have hsorted := (List.pairwise_lt_finRange m).sublist (t.tiedRows_sublist column)
  exact ((head?_eq_some_iff_of_pairwise id hsorted).mp h).2 k hk hki

theorem IsValid.lt_of_smallestIndex (ht : t.IsValid)
    (h : t.leavingRow .smallestIndex column = some i) {k : Fin m}
    (hk : k ∈ t.tiedRows column) (hki : k ≠ i) : t.basis.get i < t.basis.get k :=
  ((smallestBasic_eq_some_iff ht.basis_injective).mp h).2 k hk hki

theorem IsValid.neg_tolerance_le_of_pivot (ht : t.IsValid) {j : Fin n} {rule : LeavingRule}
    (hi : t.leavingRow rule (t.column j) = some i) {t' : Tableau ℚ m n} (h : t.pivot i j = .ok t')
    {k : Fin m} (hki : k ≠ i) (hk : k ∈ t.eligible (t.column j)) :
    -t.tolerance ≤ t'.basicValues.get k := by
  have hle := ratio_mul_le_of_leavingRow ht.tolerance_nonneg hi hk
  rw [column_get, column_get] at hle
  rw [(ht.isExchange_of_pivot h).basicValues_other ht hki, div_mul_comm]
  linarith

/-- A row leaves unless no entry is above the tolerance. It is tied, its step pushes no eligible row
below zero by more than the tolerance, and the first two rules take the first of the tied rows and
the one with the smallest basic column. -/
theorem leavingRow_contract (ht : t.IsValid) (rule : LeavingRule) (column : Vector ℚ m) :
    (t.leavingRow rule column = none ↔ ∀ i, column.get i ≤ t.tolerance) ∧
    ∀ i, t.leavingRow rule column = some i →
      t.tolerance < column.get i ∧ t.IsTied column i ∧
      (∀ k, t.tolerance < column.get k →
        -t.tolerance ≤ t.basicValues.get k - t.stepTo column i * column.get k) ∧
      (∀ j t', column = t.column j → t.pivot i j = .ok t' →
        ∀ k ≠ i, t.tolerance < column.get k → -t.tolerance ≤ t'.basicValues.get k) ∧
      (rule = .firstMinimum → ∀ k ≠ i, t.IsTied column k → i < k) ∧
      (rule = .smallestIndex → ∀ k ≠ i, t.IsTied column k → t.basis.get i < t.basis.get k) := by
  have htol := ht.tolerance_nonneg
  refine ⟨leavingRow_eq_none_iff htol, fun i hi => ?_⟩
  have htied := mem_tiedRows_of_leavingRow hi
  refine ⟨(mem_tiedRows.mp htied).1, (mem_tiedRows_iff htol).mp htied, fun k hk => ?_, ?_, ?_, ?_⟩
  · have hle : t.stepTo column i * column.get k ≤ _ := ratio_mul_le_of_leavingRow htol hi hk
    linarith
  · rintro j t' rfl h k hki hk
    exact ht.neg_tolerance_le_of_pivot hi h hki hk
  · rintro rfl k hki hk
    exact lt_of_firstMinimum hi ((mem_tiedRows_iff htol).mpr hk) hki
  · rintro rfl k hki hk
    exact ht.lt_of_smallestIndex hi ((mem_tiedRows_iff htol).mpr hk) hki

/-- The ratios of the first two rows are `101 / 100` and `1`, the last row has a negative value and
an entry below a tolerance of `1 / 10`. -/
def tiedProgram : Program ℚ 3 4 :=
  ⟨#v[0, 0, 0, -1], ⟨#v[#v[0, 0, 1, 2], #v[1, 0, 0, 1], #v[0, 1, 0, 1 / 20]]⟩, #v[101 / 50, 1, -1]⟩

theorem leavingRow_contract_tiedProgram :
    ∃ t, ofBasis tiedProgram #v[2, 0, 1] (1 / 10) 0 = .ok t ∧ t.IsValid ∧
      t.leavingRow .firstMinimum (t.column 3) = some 0 ∧
      t.leavingRow .smallestIndex (t.column 3) = some 1 ∧
      t.IsTied (t.column 3) 0 ∧ t.IsTied (t.column 3) 1 ∧
      ∀ t', t.pivot 0 3 = .ok t' → -t.tolerance ≤ t'.basicValues.get 1 := by
  have h : (ofBasis tiedProgram #v[2, 0, 1] (1 / 10) 0).toOption.map (fun t =>
      (t.leavingRow .firstMinimum (t.column 3), t.leavingRow .smallestIndex (t.column 3),
        decide (t.tolerance < (t.column 3).get 1))) = some (some 0, some 1, true) := by
    decide +kernel
  obtain ⟨t, ht, he⟩ := exists_ok_of_toOption_map h
  simp only [Prod.mk.injEq, decide_eq_true_eq] at he
  obtain ⟨hfirst, hsmallest, hentry⟩ := he
  obtain ⟨hv, -⟩ := isValid_of_ofBasis (by norm_num) ht
  obtain ⟨-, htied, -, hstep, -⟩ := (leavingRow_contract hv .firstMinimum (t.column 3)).2 0 hfirst
  obtain ⟨-, htied', -⟩ := (leavingRow_contract hv .smallestIndex (t.column 3)).2 1 hsmallest
  exact ⟨t, ht, hv, hfirst, hsmallest, htied, htied',
    fun t' ht' => hstep 3 t' rfl ht' 1 (by decide) hentry⟩

end Tableau
end RevisedSimplex
