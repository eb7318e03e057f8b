import RevisedSimplex.Proofs.Cycling
import RevisedSimplex.Proofs.Mirror

/-! # Lexicographic rows

A tableau row with its value in front of its entries, compared in the order of the columns. The
lexicographic rule picks the row with the least multiple that has entry one in the entering
column. Its pivots keep all rows positive if they are, and then the cost row decreases.
-/

namespace RevisedSimplex

open Matrix

variable {m n k : ℕ}

theorem toLex_smul_pos_iff {c : ℚ} (hc : 0 < c) {x : Fin k → ℚ} :
    0 < toLex (c • x) ↔ 0 < toLex x := by
  refine exists_congr fun i => and_congr ?_ (mul_pos_iff_of_pos_left hc)
  refine forall₂_congr fun j _ => ?_
  change 0 = c * x j ↔ 0 = x j
  rw [eq_comm, mul_eq_zero, or_iff_right hc.ne', eq_comm]

namespace Tableau

variable {t t' : Tableau ℚ m n} {i : Fin m} {j : Fin n}

/-- The value of a row followed by its entries. -/
def lexRow (t : Tableau ℚ m n) (i : Fin m) : Fin (n + 1) → ℚ :=
  Fin.cons (t.basicValues.get i) (t.entries i)

def costRow (t : Tableau ℚ m n) : Fin (n + 1) → ℚ := Fin.cons t.objective t.relativeCost

/-- In every row the value or, if it is zero, the first nonzero entry is positive. -/
def IsLexPositive (t : Tableau ℚ m n) : Prop := ∀ i, 0 < toLex (t.lexRow i)

theorem IsLexPositive.basicValues_nonneg (h : t.IsLexPositive) (i : Fin m) :
    0 ≤ t.basicValues.get i := by
  obtain ⟨c, hc, hlt⟩ := h i
  rcases c.eq_zero_or_eq_succ with rfl | ⟨c, rfl⟩
  · exact hlt.le
  · exact (hc 0 c.succ_pos).le

theorem isLexPositive_of_pos (h : ∀ i, 0 < t.basicValues.get i) : t.IsLexPositive :=
  fun i => ⟨0, fun c hc => absurd hc (Fin.not_lt_zero c), h i⟩

theorem IsValid.isLexPositive_of_first (ht : t.IsValid) (hv : ∀ i, 0 ≤ t.basicValues.get i)
    (hfirst : ∀ i, ∀ c < t.basis.get i, c ∈ t.basicColumns) : t.IsLexPositive := by
  intro i
  rcases (hv i).lt_or_eq with hpos | hzero
  · exact ⟨0, fun c hc => absurd hc (Fin.not_lt_zero c), hpos⟩
  · refine ⟨(t.basis.get i).succ, fun c hc => ?_, ?_⟩
    · rcases c.eq_zero_or_eq_succ with rfl | ⟨c, rfl⟩
      · exact hzero
      · have hlt := Fin.succ_lt_succ_iff.mp hc
        obtain ⟨l, rfl⟩ := mem_basicColumns.mp (hfirst i c hlt)
        have hil : i ≠ l := fun he => absurd hlt (he ▸ lt_irrefl _)
        exact ((ht.entries_basic i l).trans (if_neg hil)).symm
    · change 0 < t.entries i (t.basis.get i)
      rw [ht.entries_basic, if_pos rfl]
      exact zero_lt_one

/-- The rows that are left are minimal in the order of the columns. -/
theorem separate_spec (h0 : t.tolerance = 0) {column : Vector ℚ m} {columns : List (Fin n)}
    (hs : columns.Pairwise (· < ·)) {tied : List (Fin m)} {i l : Fin m}
    (hi : i ∈ t.separate column columns tied) (hl : l ∈ tied) :
    ∀ c ∈ columns,
      (∀ c' ∈ columns, c' < c → t.entries l c' / column.get l = t.entries i c' / column.get i) →
      t.entries i c / column.get i ≤ t.entries l c / column.get l := by
  induction columns generalizing tied with
  | nil => exact fun c hc => absurd hc List.not_mem_nil
  | cons first columns ih =>
    intro c hc heq
    rw [List.pairwise_cons] at hs
    rw [separate] at hi
    split at hi
    · rename_i hone
      obtain ⟨a, rfl⟩ := List.length_eq_one_iff.mp hone
      rw [List.mem_singleton.mp hi, List.mem_singleton.mp hl]
    · have hmin := (mem_minimizers.mp ((separate_sublist _ _ _).subset hi)).2
      simp only [ratioWindow_zero h0, column_get, add_zero] at hmin
      rcases List.mem_cons.mp hc with rfl | hc
      · exact hmin l hl
      · have hfirst := heq first (List.mem_cons_self ..) (hs.1 c hc)
        have hl' : l ∈ t.minimalRatio column (t.column first) tied := by
          rw [minimalRatio, mem_minimizers]
          simp only [ratioWindow_zero h0, column_get, add_zero]
          exact ⟨hl, fun b hb => hfirst.trans_le (hmin b hb)⟩
        exact ih hs.2 hi hl' c hc fun c' hc' => heq c' (List.mem_cons_of_mem _ hc')

theorem smul_lexRow_zero (t : Tableau ℚ m n) (i : Fin m) (c : ℚ) :
    toLex ((1 / c) • t.lexRow i) 0 = t.basicValues.get i / c :=
  one_div_mul_eq_div _ _

theorem smul_lexRow_succ (t : Tableau ℚ m n) (i : Fin m) (c : ℚ) (k : Fin n) :
    toLex ((1 / c) • t.lexRow i) k.succ = t.entries i k / c :=
  one_div_mul_eq_div _ _

/-- The lexicographic rule picks a row whose multiple with entry one is the least, whether or not
the entries are those of a tableau column. -/
theorem lexRow_le_of_leavingRow (h0 : t.tolerance = 0) {column : Vector ℚ m}
    (h : t.leavingRow .lexicographic column = some i) {l : Fin m} (hl : 0 < column.get l) :
    toLex ((1 / column.get i) • t.lexRow i) ≤ toLex ((1 / column.get l) • t.lexRow l) := by
  by_contra hlt
  obtain ⟨hpos, hmin⟩ := leavingRow_spec h0 h
  obtain ⟨c, heq, hlt⟩ := not_le.mp hlt
  rcases c.eq_zero_or_eq_succ with rfl | ⟨c, rfl⟩
  · rw [smul_lexRow_zero, smul_lexRow_zero] at hlt
    exact hlt.not_ge (hmin l hl)
  · have hvalue := heq 0 c.succ_pos
    rw [smul_lexRow_zero, smul_lexRow_zero] at hvalue
    have htied : l ∈ t.tiedRows column := by
      rw [mem_tiedRows, ratioWindow_zero h0, h0]
      simp only [add_zero]
      exact ⟨hl, fun b hb => hvalue.trans_le (hmin b hb)⟩
    have hle := separate_spec h0 (List.pairwise_lt_finRange n) (List.mem_of_head? h) htied c
      (List.mem_finRange c) fun c' _ hc' => by
        have hc := heq c'.succ (Fin.succ_lt_succ_iff.mpr hc')
        rwa [smul_lexRow_succ, smul_lexRow_succ] at hc
    rw [smul_lexRow_succ, smul_lexRow_succ] at hlt
    exact hlt.not_ge hle

theorem IsExact.lexRow_le (ht : t.IsExact)
    (h : t.leavingRow .lexicographic (t.column j) = some i) {l : Fin m} (hl : 0 < t.entries l j) :
    toLex ((1 / t.entries i j) • t.lexRow i) ≤ toLex ((1 / t.entries l j) • t.lexRow l) := by
  have hle := lexRow_le_of_leavingRow (l := l) ht.tolerance_eq h (by rwa [column_get])
  rwa [column_get, column_get] at hle

theorem IsValid.eq_of_smul_lexRow (ht : t.IsValid) {l : Fin m} {c d : ℚ} (hc : c ≠ 0)
    (h : c • t.lexRow i = d • t.lexRow l) : l = i := by
  by_contra hl
  have hcol : c * t.entries i (t.basis.get i) = d * t.entries l (t.basis.get i) :=
    congrFun h (t.basis.get i).succ
  rw [ht.entries_basic, ht.entries_basic, if_pos rfl, if_neg hl, mul_one, mul_zero] at hcol
  exact hc hcol

/-- The row has a positive entry and, divided by it, is smaller than all others that have one. -/
def IsLexLeast (t : Tableau ℚ m n) (column : Vector ℚ m) (i : Fin m) : Prop :=
  0 < column.get i ∧ ∀ l ≠ i, 0 < column.get l →
    toLex ((1 / column.get i) • t.lexRow i) < toLex ((1 / column.get l) • t.lexRow l)

theorem IsValid.isLexLeast_of_leavingRow (ht : t.IsValid) (h0 : t.tolerance = 0)
    {column : Vector ℚ m} (h : t.leavingRow .lexicographic column = some i) :
    t.IsLexLeast column i := by
  have hpos := (leavingRow_spec h0 h).1
  refine ⟨hpos, fun l hli hl => lt_of_le_of_ne (lexRow_le_of_leavingRow h0 h hl) fun he => hli ?_⟩
  exact ht.eq_of_smul_lexRow (one_div_pos.mpr hpos).ne' (toLex.injective he)

structure IsLexPivot (t t' : Tableau ℚ m n) (i : Fin m) (j : Fin n) : Prop
    extends IsPrimalPivot t t' i j where
  row_lt : ∀ l ≠ i, 0 < t.entries l j →
    toLex ((1 / t.entries i j) • t.lexRow i) < toLex ((1 / t.entries l j) • t.lexRow l)

theorem IsExact.isLexPivot (ht : t.IsExact) (h : IsPrimalPivot t t' i j)
    (hrow : t.leavingRow .lexicographic (t.column j) = some i) : IsLexPivot t t' i j := by
  refine ⟨h, fun l hl hpos => ?_⟩
  have hlt := (ht.isLexLeast_of_leavingRow ht.tolerance_eq hrow).2 l hl (by rwa [column_get])
  rwa [column_get, column_get] at hlt

theorem IsExact.isLexPivot_of_step (ht : t.IsExact) {options : Options ℚ}
    (ho : options.leaving = .lexicographic) {p p' : Position ℚ m n} (hp : p.tableau = t)
    (h : Step (primalMove options) p p') : ∃ i j, IsLexPivot t p'.tableau i j := by
  obtain ⟨i, j, cost, hm, -, hpivot⟩ := ht.isPrimalPivot_of_step hp h
  have hrow := (primalMove_eq_pivot hm).2
  rw [ho] at hrow
  exact ⟨i, j, ht.isLexPivot hpivot hrow⟩

namespace IsExchange

variable (h : IsExchange t t' i j) (ht : t.IsValid)

include h ht

theorem lexRow_pivot : t'.lexRow i = (1 / t.entries i j) • t.lexRow i := by
  ext c
  refine Fin.cases ?_ (fun c => ?_) c
  · exact (h.basicValues_pivot ht).trans (one_div_mul_eq_div _ _).symm
  · exact (h.entries_pivot ht c).trans (one_div_mul_eq_div _ _).symm

theorem lexRow_other {l : Fin m} (hl : l ≠ i) :
    t'.lexRow l = t.lexRow l - (t.entries l j / t.entries i j) • t.lexRow i := by
  ext c
  refine Fin.cases ?_ (fun c => ?_) c
  · exact h.basicValues_other ht hl
  · exact h.entries_other ht hl c

theorem costRow_eq :
    t'.costRow = t.costRow - (t.relativeCost j / t.entries i j) • t.lexRow i := by
  ext c
  refine Fin.cases ?_ (fun c => ?_) c
  · exact h.objective_eq ht
  · exact h.relativeCost_eq ht c

end IsExchange

/-- The cost row decreases exactly if the leaving row is positive. -/
theorem IsPrimalPivot.costRow_lt_iff (h : IsPrimalPivot t t' i j) (ht : t.IsValid) :
    toLex t'.costRow < toLex t.costRow ↔ 0 < toLex (t.lexRow i) := by
  rw [h.costRow_eq ht, ← toLex_smul_pos_iff (div_pos h.profitable h.entry_pos), toLex_sub,
    sub_lt_self_iff]

/-- Lexicographic pivots keep the rows positive. -/
theorem IsLexPivot.isLexPositive (h : IsLexPivot t t' i j) (ht : t.IsValid)
    (hpos : t.IsLexPositive) : t'.IsLexPositive := by
  intro l
  by_cases hl : l = i
  · rw [hl, h.lexRow_pivot ht, toLex_smul_pos_iff (one_div_pos.mpr h.entry_pos)]
    exact hpos i
  · rw [h.lexRow_other ht hl]
    rcases lt_or_ge 0 (t.entries l j) with hlj | hlj
    · -- the row is a positive multiple of the difference of the two compared rows
      have hdiff : t.lexRow l - (t.entries l j / t.entries i j) • t.lexRow i =
          t.entries l j •
            ((1 / t.entries l j) • t.lexRow l - (1 / t.entries i j) • t.lexRow i) := by
        rw [smul_sub, smul_smul, smul_smul, mul_one_div_cancel hlj.ne', one_smul, mul_one_div]
      rw [hdiff, toLex_smul_pos_iff hlj, toLex_sub, sub_pos]
      exact h.row_lt l hl hlj
    · rcases hlj.lt_or_eq with hneg | hzero
      · rw [sub_eq_add_neg, ← neg_smul, toLex_add]
        refine add_pos (hpos l) ((toLex_smul_pos_iff ?_).mpr (hpos i))
        exact neg_pos.mpr (div_neg_of_neg_of_pos hneg h.entry_pos)
      · rw [hzero, zero_div, zero_smul, sub_zero]
        exact hpos l

namespace IsValid

variable (ht : t.IsValid) (ht' : t'.IsValid) (hP : t'.program = t.program)
  (hb : t'.basicColumns = t.basicColumns)

include ht ht' hP

theorem lexRow_eq_of_basicColumns {l : Fin m} (hb : t'.basicColumns = t.basicColumns)
    (hil : t'.basis.get i = t.basis.get l) : t'.lexRow i = t.lexRow l := by
  have hrow : t.inverse l ᵥ* t'.program.basisMatrix t'.basis = Pi.single i 1 := by
    ext r
    obtain ⟨s, hs⟩ := mem_basicColumns.mp (hb ▸ mem_basicColumns.mpr ⟨r, rfl⟩)
    have hiff : l = s ↔ r = i := by
      rw [← ht.basis_injective.eq_iff, hs, ← hil, ht'.basis_injective.eq_iff, eq_comm]
    rw [Pi.single_apply, hP]
    change t.entries l (t'.basis.get r) = _
    rw [← hs, ht.entries_basic]
    simp only [hiff]
  have hinv : t'.inverse i = t.inverse l := by
    calc t'.inverse i = Pi.single i 1 ᵥ* t'.inverse := (Matrix.single_one_vecMul ..).symm
      _ = t.inverse l := by
        rw [← hrow, Matrix.vecMul_vecMul, ht'.basisMatrix_mul_inverse, Matrix.vecMul_one]
  ext c
  refine Fin.cases ?_ (fun c => ?_) c
  · change t'.basicValues.get i = t.basicValues.get l
    rw [ht'.basicValues_get, ht.basicValues_get, hP]
    change t'.inverse i ⬝ᵥ _ = t.inverse l ⬝ᵥ _
    rw [hinv]
  · change t'.entries i c = t.entries l c
    rw [← inverse_dotProduct_col, ← inverse_dotProduct_col, hinv, hP]

include hb

theorem isLexPositive_of_basicColumns (hpos : t'.IsLexPositive) : t.IsLexPositive := by
  intro l
  obtain ⟨i, hi⟩ := mem_basicColumns.mp (hb.symm ▸ mem_basicColumns.mpr ⟨l, rfl⟩)
  rw [← ht.lexRow_eq_of_basicColumns ht' hP hb hi]
  exact hpos i

theorem costRow_eq_of_basicColumns : t'.costRow = t.costRow := by
  rw [costRow, costRow, ht.objective_eq_of_basicColumns ht' hP hb,
    funext (ht.relativeCost_eq_of_basicColumns ht' hP hb)]

end IsValid

namespace IsExact

variable (ht : t.IsExact) (ht' : t'.IsExact) (hP : t'.program = t.program)
  (hb : t'.basicColumns = t.basicColumns)

include ht ht' hP hb

/-- The column that leaves depends on the set of basic columns only. -/
theorem basis_get_eq_of_leavingRow {i' : Fin m}
    (h : t.leavingRow .lexicographic (t.column j) = some i)
    (h' : t'.leavingRow .lexicographic (t'.column j) = some i') :
    t'.basis.get i' = t.basis.get i := by
  obtain ⟨l, hl⟩ := mem_basicColumns.mp (hb ▸ mem_basicColumns.mpr ⟨i', rfl⟩)
  obtain ⟨l', hl'⟩ := mem_basicColumns.mp (hb.symm ▸ mem_basicColumns.mpr ⟨i, rfl⟩)
  have hrow := ht.lexRow_eq_of_basicColumns ht'.toIsValid hP hb hl.symm
  have hrow' := ht.lexRow_eq_of_basicColumns ht'.toIsValid hP hb hl'
  have hentry : t'.entries i' j = t.entries l j := congrFun hrow j.succ
  have hentry' : t'.entries l' j = t.entries i j := congrFun hrow' j.succ
  have hpos := (leavingRow_spec ht.tolerance_eq h).1
  have hpos' := (leavingRow_spec ht'.tolerance_eq h').1
  rw [column_get] at hpos hpos'
  have hle := ht.lexRow_le h (hentry ▸ hpos')
  have hle' := ht'.lexRow_le h' (hentry'.symm ▸ hpos)
  rw [hrow, hrow', hentry, hentry'] at hle'
  have heq := toLex.injective (le_antisymm hle hle')
  rw [← hl, ht.eq_of_smul_lexRow (one_div_pos.mpr hpos).ne' heq]

theorem pricesLike_of_basicColumns (hart : t'.artificial = t.artificial) : PricesLike t t' where
  isBasic_eq := by
    funext c
    rw [Bool.eq_iff_iff, isBasic_iff, isBasic_iff, ← mem_basicColumns, hb, mem_basicColumns]
  relativeCost_eq := funext (ht.relativeCost_eq_of_basicColumns ht'.toIsValid hP hb)
  tolerance_eq := ht'.tolerance_eq.trans ht.tolerance_eq.symm
  artificial_eq := hart

end IsExact
end Tableau
end RevisedSimplex
