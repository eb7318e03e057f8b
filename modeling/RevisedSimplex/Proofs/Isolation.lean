import RevisedSimplex.Proofs.LexRows
import RevisedSimplex.Proofs.Soundness

/-! # One row is left

The lexicographic rule narrows the tied rows down by one column after the other. In the basic column
of a row that row has entry one and all others have entry zero. With a tolerance below one this is
further apart than the window of the ratio test, however large the entries of the entering column
are. So exactly one row is left, and with tolerance zero it is the least of all.
-/

namespace RevisedSimplex
namespace Tableau

variable {m n : ℕ} {t : Tableau ℚ m n} {column : Vector ℚ m} {i l : Fin m}

theorem ratio_le_of_separate {columns : List (Fin n)} {tied : List (Fin m)}
    (hmany : (t.separate column columns tied).length ≠ 1)
    (hi : i ∈ t.separate column columns tied) (hl : l ∈ t.separate column columns tied)
    {c : Fin n} (hc : c ∈ columns) :
    t.entries i c / column.get i ≤ t.entries l c / column.get l + t.ratioWindow column := by
  induction columns generalizing tied with
  | nil => exact absurd hc List.not_mem_nil
  | cons first columns ih =>
    rw [separate] at hmany hi hl
    split at hmany
    · rename_i hone
      exact absurd hone hmany
    · rename_i hne
      rw [if_neg hne] at hi hl
      rcases List.mem_cons.mp hc with rfl | hc
      · have hmin := mem_minimizers.mp ((separate_sublist ..).subset hi)
        have hmem := (mem_minimizers.mp ((separate_sublist ..).subset hl)).1
        simpa only [column_get] using hmin.2 l hmem
      · exact ih hmany hi hl hc

/-- The basic column of a row tells it from the others. -/
theorem IsValid.eq_of_mem_separate (ht : t.IsValid) (h1 : t.tolerance < 1)
    (hmany : (t.separate column (List.finRange n) (t.tiedRows column)).length ≠ 1)
    (hi : i ∈ t.separate column (List.finRange n) (t.tiedRows column))
    (hl : l ∈ t.separate column (List.finRange n) (t.tiedRows column)) : i = l := by
  by_contra hil
  have hentry := (mem_tiedRows.mp ((separate_sublist ..).subset hi)).1
  -- the ratio of `i` in its basic column is `1 / column.get i`, that of `l` is zero
  have hle := ratio_le_of_separate hmany hi hl (List.mem_finRange (t.basis.get i))
  rw [ht.entries_basic, ht.entries_basic, if_pos rfl, if_neg (Ne.symm hil), zero_div, zero_add,
    div_le_iff₀ (ht.tolerance_nonneg.trans_lt hentry), mul_comm] at hle
  exact (hle.trans (mul_ratioWindow_le ht.tolerance_nonneg hentry)).not_gt h1

theorem IsValid.exists_separate_eq (ht : t.IsValid) (h1 : t.tolerance < 1)
    (hi : t.tolerance < column.get i) :
    ∃ l, t.separate column (List.finRange n) (t.tiedRows column) = [l] := by
  have hne := separate_ne_nil ht.tolerance_nonneg column (List.finRange n)
    (tiedRows_ne_nil ht.tolerance_nonneg hi)
  have hnodup : (t.separate column (List.finRange n) (t.tiedRows column)).Nodup :=
    (List.nodup_finRange m).sublist ((separate_sublist ..).trans (t.tiedRows_sublist column))
  rcases hrest : t.separate column (List.finRange n) (t.tiedRows column) with _ | ⟨a, _ | ⟨b, rest⟩⟩
  · exact absurd hrest hne
  · exact ⟨a, rfl⟩
  · have hmany : (t.separate column (List.finRange n) (t.tiedRows column)).length ≠ 1 := by
      simp [hrest]
    have hab : a = b := ht.eq_of_mem_separate h1 hmany (by simp [hrest]) (by simp [hrest])
    rw [hrest, hab] at hnodup
    exact absurd (List.mem_cons_self ..) (List.nodup_cons.mp hnodup).1

theorem IsLexLeast.unique (hi : t.IsLexLeast column i) (hl : t.IsLexLeast column l) : l = i := by
  by_contra hne
  exact lt_asymm (hi.2 l hne hl.1) (hl.2 i (Ne.symm hne) hi.1)

/-- Below a tolerance of one the lexicographic rule is left with one row, and picks it. With
tolerance zero no other row is the least. -/
theorem lexicographic_isolates (ht : t.IsValid) (h1 : t.tolerance < 1) (column : Vector ℚ m)
    (hpos : ∃ k, t.tolerance < column.get k) :
    ∃ i, t.separate column (List.finRange n) (t.tiedRows column) = [i] ∧
      t.leavingRow .lexicographic column = some i ∧
      (t.tolerance = 0 → ∀ l, t.IsLexLeast column l ↔ l = i) := by
  obtain ⟨k, hk⟩ := hpos
  obtain ⟨i, hi⟩ := ht.exists_separate_eq h1 hk
  have hrow : t.leavingRow .lexicographic column = some i := congrArg List.head? hi
  refine ⟨i, hi, hrow, fun h0 l => ?_⟩
  have hleast := ht.isLexLeast_of_leavingRow h0 hrow
  exact ⟨hleast.unique, fun he => he ▸ hleast⟩

/-- Divided by the entries of the first column, those of the unit columns are below usual
tolerances. -/
def largeEntries : Program ℚ 2 3 :=
  ⟨#v[-1, 0, 0], ⟨#v[#v[10 ^ 10, 1, 0], #v[10 ^ 10, 0, 1]]⟩, .replicate 2 0⟩

theorem lexicographic_isolates_largeEntries :
    (∃ t, ofBasis largeEntries #v[1, 2] (1 / 10 ^ 9) 0 = .ok t ∧
      t.tiedRows (t.column 0) = [0, 1] ∧
      t.separate (t.column 0) (List.finRange 3) (t.tiedRows (t.column 0)) = [1]) ∧
    ∃ t, ofBasis largeEntries #v[1, 2] 0 0 = .ok t ∧ ∀ l, t.IsLexLeast #v[3, 2] l ↔ l = 0 := by
  constructor
  · have h : (ofBasis largeEntries #v[1, 2] (1 / 10 ^ 9) 0).toOption.map (fun t =>
        (t.tolerance, decide (t.tolerance < (t.column 0).get 0), t.tiedRows (t.column 0),
          t.leavingRow .lexicographic (t.column 0))) =
          some (1 / 10 ^ 9, true, [0, 1], some 1) := by
      decide +kernel
    obtain ⟨t, ht, he⟩ := exists_ok_of_toOption_map h
    simp only [Prod.mk.injEq, decide_eq_true_eq] at he
    obtain ⟨htol, hentry, htied, hrow⟩ := he
    obtain ⟨hv, -⟩ := isValid_of_ofBasis (by norm_num) ht
    obtain ⟨i, hi, hlex, -⟩ := lexicographic_isolates hv (by rw [htol]; norm_num) _ ⟨0, hentry⟩
    obtain rfl : i = 1 := Option.some.inj (hlex.symm.trans hrow)
    exact ⟨t, ht, htied, hi⟩
  · have h : (ofBasis largeEntries #v[1, 2] 0 0).toOption.map (fun t =>
        (t.tolerance, t.leavingRow .lexicographic #v[3, 2])) = some (0, some 0) := by
      decide +kernel
    obtain ⟨t, ht, he⟩ := exists_ok_of_toOption_map h
    simp only [Prod.mk.injEq] at he
    obtain ⟨htol, hrow⟩ := he
    obtain ⟨hv, -⟩ := isValid_of_ofBasis le_rfl ht
    obtain ⟨i, -, hlex, hleast⟩ := lexicographic_isolates hv (by rw [htol]; norm_num)
      #v[3, 2] ⟨0, by rw [htol]; decide +kernel⟩
    obtain rfl : i = 0 := Option.some.inj (hlex.symm.trans hrow)
    exact ⟨t, ht, hleast htol⟩

end Tableau
end RevisedSimplex
