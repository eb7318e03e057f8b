import RevisedSimplex.Proofs.Evaluation

/-! # Ratio tests over the rationals

The minimizers of a list are the candidates within the window of every other one. With
tolerance zero the window vanishes, and the leaving row attains the minimal ratio.
-/

namespace RevisedSimplex

variable {m n : ℕ}

theorem least?_spec (values : List ℚ) :
    least? values = none ∧ values = [] ∨
      ∃ a, least? values = some a ∧ a ∈ values ∧ ∀ v ∈ values, a ≤ v := by
  refine foldl_least (fun v : ℚ => v) (fun a => if_pos le_rfl) ?_ values
  intro b a
  exact if_pos le_rfl

theorem minimizers_sublist {F α : Type} [Scalar F] (window : F) (value : α → F)
    (candidates : List α) : (minimizers window value candidates).Sublist candidates := by
  have hvalued : (candidates.map fun a => (a, value a)).map (·.1) = candidates := by
    rw [List.map_map]
    exact List.map_id _
  dsimp only [minimizers]
  split
  · conv_rhs => rw [← hvalued]
    exact List.filter_sublist.map _
  · exact List.nil_sublist _

theorem minimizers_eq_filter {α : Type} (window : ℚ) (value : α → ℚ) (candidates : List α) :
    minimizers window value candidates =
      candidates.filter fun a => ∀ b ∈ candidates, value a ≤ value b + window := by
  have hvalued : (candidates.map fun a => (a, value a)).map (·.2) = candidates.map value := by
    rw [List.map_map]
    rfl
  unfold minimizers
  simp only [hvalued]
  rcases least?_spec (candidates.map value) with ⟨hn, he⟩ | ⟨least, hs, hmem, hle⟩
  · rw [List.map_eq_nil_iff] at he
    rw [hn, he]
    rfl
  · rw [hs]
    simp only [List.filter_map, List.map_map]
    rw [show (Prod.fst ∘ fun a : α => (a, value a)) = id from rfl, List.map_id]
    apply List.filter_congr
    intro a _
    obtain ⟨c, hc, rfl⟩ := List.mem_map.mp hmem
    simp only [Function.comp_apply, decide_eq_decide]
    constructor
    · intro h b hb
      exact le_trans h (add_le_add_left (hle _ (List.mem_map_of_mem hb)) window)
    · intro h
      exact h c hc

theorem mem_minimizers {α : Type} {window : ℚ} {value : α → ℚ} {candidates : List α} {a : α} :
    a ∈ minimizers window value candidates ↔
      a ∈ candidates ∧ ∀ b ∈ candidates, value a ≤ value b + window := by
  rw [minimizers_eq_filter, List.mem_filter, decide_eq_true_eq]

theorem mem_minimizers_iff_isLeast {α : Type} {window : ℚ} {value : α → ℚ} {candidates : List α}
    {S : Set α} (hS : ∀ a, a ∈ candidates ↔ a ∈ S) {a : α} :
    a ∈ minimizers window value candidates ↔
      a ∈ S ∧ ∃ least, IsLeast (value '' S) least ∧ value a ≤ least + window := by
  rw [mem_minimizers, hS]
  refine and_congr_right fun ha => ?_
  constructor
  · intro h
    have hfinite : S.Finite := candidates.finite_toSet.subset fun b hb => (hS b).mpr hb
    obtain ⟨b, hb, hmin⟩ := Set.exists_min_image S value hfinite ⟨a, ha⟩
    exact ⟨value b, ⟨Set.mem_image_of_mem _ hb, Set.forall_mem_image.mpr hmin⟩, h b ((hS b).mpr hb)⟩
  · rintro ⟨least, hleast, h⟩ b hb
    exact h.trans (add_le_add_left (hleast.2 (Set.mem_image_of_mem _ ((hS b).mp hb))) _)

theorem minimizers_ne_nil {α : Type} {window : ℚ} (hw : 0 ≤ window) (value : α → ℚ)
    {candidates : List α} (hc : candidates ≠ []) : minimizers window value candidates ≠ [] := by
  rcases least?_spec (candidates.map value) with ⟨-, he⟩ | ⟨least, -, hmem, hle⟩
  · exact absurd (List.map_eq_nil_iff.mp he) hc
  · obtain ⟨a, ha, rfl⟩ := List.mem_map.mp hmem
    refine List.ne_nil_of_mem (mem_minimizers.mpr ⟨ha, fun b hb => ?_⟩)
    exact (hle _ (List.mem_map_of_mem hb)).trans (le_add_of_nonneg_right hw)

theorem largest_isGreatest (values : List ℚ) : IsGreatest {v | v ∈ 0 :: values} (largest values) :=
  foldl_extremal (fun v : ℚ => OrderDual.toDual v)
    (f := fun best v => if best < v then v else best) (fun b a => by
      split
      · rename_i h
        exact ⟨Or.inr rfl, h.le, le_rfl⟩
      · rename_i h
        exact ⟨Or.inl rfl, le_rfl, not_lt.mp h⟩) values 0

theorem largest_nonneg (values : List ℚ) : 0 ≤ largest values :=
  (largest_isGreatest values).2 (List.mem_cons_self ..)

theorem tieWindow_nonneg {tolerance : ℚ} (ht : 0 ≤ tolerance) (magnitudes : List ℚ) :
    0 ≤ tieWindow tolerance magnitudes :=
  div_nonneg ht (largest_nonneg magnitudes)

/-- A step by the tie window moves no value by more than the tolerance. -/
theorem mul_tieWindow_le {tolerance : ℚ} (ht : 0 ≤ tolerance) {magnitudes : List ℚ} {v : ℚ}
    (hv : v ∈ magnitudes) : v * tieWindow tolerance magnitudes ≤ tolerance := by
  have hle := (largest_isGreatest magnitudes).2 (List.mem_cons_of_mem _ hv)
  rw [tieWindow, mul_div_left_comm]
  exact mul_le_of_le_one_right ht (div_le_one_of_le₀ hle (largest_nonneg magnitudes))

theorem largest_map_isGreatest {α : Type} {magnitude : α → ℚ} {candidates : List α} {S : Set α}
    (hS : ∀ a, a ∈ candidates ↔ a ∈ S) (hpos : ∀ a ∈ S, 0 < magnitude a) (hne : S.Nonempty) :
    IsGreatest (magnitude '' S) (largest (candidates.map magnitude)) := by
  obtain ⟨hmem, hle⟩ := largest_isGreatest (candidates.map magnitude)
  have hbound : ∀ a ∈ S, magnitude a ≤ largest (candidates.map magnitude) := fun a ha =>
    hle (List.mem_cons_of_mem _ (List.mem_map_of_mem ((hS a).mpr ha)))
  refine ⟨?_, Set.forall_mem_image.mpr hbound⟩
  rcases List.mem_cons.mp hmem with hzero | hmem
  · obtain ⟨a, ha⟩ := hne
    exact absurd (hpos a ha) (not_lt.mpr (hzero ▸ hbound a ha))
  · obtain ⟨a, ha, hvalue⟩ := List.mem_map.mp hmem
    exact ⟨a, (hS a).mp ha, hvalue⟩

theorem mem_minimizers_tieWindow_iff {α : Type} {tolerance : ℚ} {magnitude value : α → ℚ}
    {candidates : List α} {S : Set α} (hS : ∀ a, a ∈ candidates ↔ a ∈ S)
    (hpos : ∀ a ∈ S, 0 < magnitude a) {a : α} :
    a ∈ minimizers (tieWindow tolerance (candidates.map magnitude)) value candidates ↔
      a ∈ S ∧ ∃ greatest least, IsGreatest (magnitude '' S) greatest ∧
        IsLeast (value '' S) least ∧ value a ≤ least + tolerance / greatest := by
  rw [mem_minimizers_iff_isLeast hS, tieWindow]
  refine and_congr_right fun ha => ?_
  have hgreatest := largest_map_isGreatest hS hpos ⟨a, ha⟩
  constructor
  · rintro ⟨least, hleast, h⟩
    exact ⟨_, least, hgreatest, hleast, h⟩
  · rintro ⟨greatest, least, hgreatest', hleast, h⟩
    exact ⟨least, hleast, hgreatest.unique hgreatest' ▸ h⟩

theorem tieWindow_zero (magnitudes : List ℚ) : tieWindow (0 : ℚ) magnitudes = 0 :=
  zero_div _

namespace Tableau

variable {t : Tableau ℚ m n}

theorem smallestBasic_spec (t : Tableau ℚ m n) (rows : List (Fin m)) :
    t.smallestBasic rows = none ∧ rows = [] ∨
      ∃ i, t.smallestBasic rows = some i ∧ i ∈ rows ∧
        ∀ k ∈ rows, t.basis.get i ≤ t.basis.get k :=
  foldl_least t.basis.get (fun _ => rfl) (fun _ _ => rfl) rows

theorem smallestBasic_eq_some {rows : List (Fin m)} {i : Fin m}
    (h : t.smallestBasic rows = some i) :
    i ∈ rows ∧ ∀ k ∈ rows, t.basis.get i ≤ t.basis.get k := by
  rcases t.smallestBasic_spec rows with ⟨hn, -⟩ | ⟨k, hk, hspec⟩
  · rw [hn] at h
    cases h
  · rw [hk] at h
    cases h
    exact hspec

theorem smallestBasic_eq_some_iff (ht : Function.Injective t.basis.get) {rows : List (Fin m)}
    {i : Fin m} :
    t.smallestBasic rows = some i ↔
      i ∈ rows ∧ ∀ k ∈ rows, k ≠ i → t.basis.get i < t.basis.get k := by
  constructor
  · intro h
    obtain ⟨hi, hle⟩ := smallestBasic_eq_some h
    exact ⟨hi, fun k hk hki => (hle k hk).lt_of_ne fun he => hki (ht he.symm)⟩
  · rintro ⟨hi, hlt⟩
    obtain ⟨-, rfl⟩ | ⟨k, hk, hmem, hle⟩ := t.smallestBasic_spec rows
    · cases hi
    · by_contra hne
      have hki : k ≠ i := by
        rintro rfl
        exact hne hk
      exact (hlt k hmem hki).not_ge (hle i hi)

theorem smallestBasic_ne_none {rows : List (Fin m)} (hne : rows ≠ []) :
    t.smallestBasic rows ≠ none := by
  rcases t.smallestBasic_spec rows with ⟨-, he⟩ | ⟨k, hk, -⟩
  · exact absurd he hne
  · rw [hk]
    exact Option.some_ne_none k

theorem mem_pivotRows {column : Vector ℚ m} {i : Fin m} :
    i ∈ t.pivotRows column ↔ t.tolerance < column.get i := by
  simp [pivotRows]

theorem mem_tiedRows {column : Vector ℚ m} {i : Fin m} :
    i ∈ t.tiedRows column ↔ t.tolerance < column.get i ∧ ∀ k, t.tolerance < column.get k →
      t.basicValues.get i / column.get i ≤
        t.basicValues.get k / column.get k + t.ratioWindow column := by
  rw [tiedRows, minimalRatio, mem_minimizers]
  simp only [mem_pivotRows]

theorem tiedRows_sublist (t : Tableau ℚ m n) (column : Vector ℚ m) :
    (t.tiedRows column).Sublist (List.finRange m) :=
  (minimizers_sublist _ _ _).trans List.filter_sublist

theorem mul_ratioWindow_le (ht : 0 ≤ t.tolerance) {column : Vector ℚ m} {i : Fin m}
    (hi : t.tolerance < column.get i) : column.get i * t.ratioWindow column ≤ t.tolerance :=
  mul_tieWindow_le ht (List.mem_map_of_mem (mem_pivotRows.mpr hi))

theorem ratioWindow_zero (h0 : t.tolerance = 0) (column : Vector ℚ m) :
    t.ratioWindow column = 0 := by
  rw [ratioWindow, h0, tieWindow_zero]

theorem tiedRows_ne_nil (ht : 0 ≤ t.tolerance) {column : Vector ℚ m} {i : Fin m}
    (hi : t.tolerance < column.get i) : t.tiedRows column ≠ [] :=
  minimizers_ne_nil (tieWindow_nonneg ht _) _ (List.ne_nil_of_mem (mem_pivotRows.mpr hi))

theorem separate_sublist (column : Vector ℚ m) (columns : List (Fin n)) (tied : List (Fin m)) :
    (t.separate column columns tied).Sublist tied := by
  induction columns generalizing tied with
  | nil => exact List.Sublist.refl _
  | cons k columns ih =>
    rw [separate]
    split
    · exact List.Sublist.refl _
    · exact (ih _).trans (minimizers_sublist _ _ _)

theorem separate_ne_nil (ht : 0 ≤ t.tolerance) (column : Vector ℚ m) (columns : List (Fin n))
    {tied : List (Fin m)} (hne : tied ≠ []) : t.separate column columns tied ≠ [] := by
  induction columns generalizing tied with
  | nil => exact hne
  | cons k columns ih =>
    rw [separate]
    split
    · exact hne
    · exact ih (minimizers_ne_nil (tieWindow_nonneg ht _) _ hne)

theorem mem_tiedRows_of_leavingRow {rule : LeavingRule} {column : Vector ℚ m} {i : Fin m}
    (h : t.leavingRow rule column = some i) : i ∈ t.tiedRows column := by
  cases rule with
  | firstMinimum => exact List.mem_of_head? h
  | smallestIndex => exact (smallestBasic_eq_some h).1
  | lexicographic => exact (separate_sublist _ _ _).subset (List.mem_of_head? h)

/-- No rule overlooks an entry above the tolerance. -/
theorem entry_le_of_leavingRow (ht : 0 ≤ t.tolerance) {rule : LeavingRule} {column : Vector ℚ m}
    (h : t.leavingRow rule column = none) (i : Fin m) : column.get i ≤ t.tolerance := by
  by_contra hi
  have hne := tiedRows_ne_nil ht (not_le.mp hi)
  cases rule with
  | firstMinimum => exact hne (List.head?_eq_none_iff.mp h)
  | smallestIndex => exact smallestBasic_ne_none hne h
  | lexicographic => exact separate_ne_nil ht _ _ hne (List.head?_eq_none_iff.mp h)

theorem leavingRow_eq_none_iff (ht : 0 ≤ t.tolerance) {rule : LeavingRule}
    {column : Vector ℚ m} :
    t.leavingRow rule column = none ↔ ∀ i, column.get i ≤ t.tolerance := by
  refine ⟨entry_le_of_leavingRow ht, fun h => ?_⟩
  by_contra hne
  obtain ⟨i, hi⟩ := Option.ne_none_iff_exists'.mp hne
  exact (mem_tiedRows.mp (mem_tiedRows_of_leavingRow hi)).1.not_ge (h i)

/-- The step of the leaving row moves no compared row below zero by more than the tolerance. -/
theorem ratio_mul_le_of_leavingRow (ht : 0 ≤ t.tolerance) {rule : LeavingRule}
    {column : Vector ℚ m} {i l : Fin m} (h : t.leavingRow rule column = some i)
    (hl : t.tolerance < column.get l) :
    t.basicValues.get i / column.get i * column.get l ≤ t.basicValues.get l + t.tolerance := by
  have hpos : 0 < column.get l := ht.trans_lt hl
  have htie := (mem_tiedRows.mp (mem_tiedRows_of_leavingRow h)).2 l hl
  calc t.basicValues.get i / column.get i * column.get l
      ≤ (t.basicValues.get l / column.get l + t.ratioWindow column) * column.get l :=
        mul_le_mul_of_nonneg_right htie hpos.le
    _ = t.basicValues.get l + column.get l * t.ratioWindow column := by
        rw [add_mul, div_mul_cancel₀ _ hpos.ne', mul_comm (t.ratioWindow _)]
    _ ≤ t.basicValues.get l + t.tolerance := by linarith [mul_ratioWindow_le ht hl]

/-- With tolerance zero the leaving row attains the minimal ratio over the positive entries. -/
theorem leavingRow_spec (h0 : t.tolerance = 0) {rule : LeavingRule} {column : Vector ℚ m}
    {i : Fin m} (h : t.leavingRow rule column = some i) :
    0 < column.get i ∧ ∀ k, 0 < column.get k →
      t.basicValues.get i / column.get i ≤ t.basicValues.get k / column.get k := by
  have hm := mem_tiedRows.mp (mem_tiedRows_of_leavingRow h)
  simpa only [h0, ratioWindow_zero h0, add_zero] using hm

theorem basis_le_of_smallestIndex {column : Vector ℚ m} {i k : Fin m}
    (h : t.leavingRow .smallestIndex column = some i) (hk : k ∈ t.tiedRows column) :
    t.basis.get i ≤ t.basis.get k :=
  (smallestBasic_eq_some h).2 k hk

theorem mem_infeasibleRows {i : Fin m} :
    i ∈ t.infeasibleRows ↔ t.basicValues.get i < -t.tolerance := by
  simp [infeasibleRows]

theorem lt_of_dualLeavingRow {i : Fin m} (h : t.dualLeavingRow = some i) :
    t.basicValues.get i < -t.tolerance :=
  mem_infeasibleRows.mp (mem_minimizers.mp (smallestBasic_eq_some h).1).1

theorem isPrimalFeasible_of_dualLeavingRow (ht : 0 ≤ t.tolerance) (h : t.dualLeavingRow = none) :
    t.isPrimalFeasible = true := by
  rw [isPrimalFeasible_iff]
  intro i
  by_contra hi
  have hne := minimizers_ne_nil ht t.basicValues.get
    (List.ne_nil_of_mem (mem_infeasibleRows.mpr (not_le.mp hi)))
  exact smallestBasic_ne_none hne h

theorem mem_pivotColumns {i : Fin m} {j : Fin n} :
    j ∈ t.pivotColumns i ↔
      j.val < t.structural ∧ t.isBasic j = false ∧ t.entries i j < -t.tolerance := by
  rw [pivotColumns, List.mem_filter, mem_nonbasicCandidates, decide_eq_true_eq, rowEntry_eq,
    and_assoc]

theorem entry_ge_of_dualEnteringColumn (ht : 0 ≤ t.tolerance) {i : Fin m}
    (h : t.dualEnteringColumn i = none) {j : Fin n} (hj : j.val < t.structural)
    (hb : t.isBasic j = false) : -t.tolerance ≤ t.entries i j := by
  by_contra hlt
  have hmem := mem_pivotColumns.mpr ⟨hj, hb, not_le.mp hlt⟩
  exact minimizers_ne_nil (tieWindow_nonneg ht _) _ (List.ne_nil_of_mem hmem)
    (List.head?_eq_none_iff.mp h)

/-- With tolerance zero the entering column attains the minimal ratio of relative cost to entry
over the negative entries of the row. -/
theorem dualEnteringColumn_spec (h0 : t.tolerance = 0) {i : Fin m} {j : Fin n}
    (h : t.dualEnteringColumn i = some j) :
    t.isBasic j = false ∧ t.entries i j < 0 ∧
      ∀ k : Fin n, k.val < t.structural → t.isBasic k = false → t.entries i k < 0 →
        t.relativeCost j / t.entries i j ≤ t.relativeCost k / t.entries i k := by
  obtain ⟨hj, hle⟩ := mem_minimizers.mp (List.mem_of_head? h)
  obtain ⟨-, hb, hlt⟩ := mem_pivotColumns.mp hj
  rw [h0, tieWindow_zero] at hle
  rw [h0, neg_zero] at hlt
  refine ⟨hb, hlt, fun k hk hkb hkn => ?_⟩
  have hmem : k ∈ t.pivotColumns i := mem_pivotColumns.mpr ⟨hk, hkb, by rwa [h0, neg_zero]⟩
  simpa only [rowEntry_eq, add_zero] using hle k hmem

end Tableau
end RevisedSimplex
