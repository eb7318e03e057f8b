import RevisedSimplex.Proofs.Insertion

/-! # Reinsertion of prices

Inserting zeros at the removed rows undoes the removal. The rows and the prices lie in separate
lists, and deletion of the same positions from both pairs each price with the row it belongs to.
-/

namespace RevisedSimplex

section Deletion

variable {α : Type}

/-- The entries at the other positions, in their order. -/
def withoutPositions (positions : List ℕ) (l : List α) : List α :=
  (l.zipIdx.filter (·.2 ∉ positions)).map Prod.fst

theorem withoutPositions_nil (l : List α) : withoutPositions [] l = l := by
  simp [withoutPositions]

theorem filter_zipIdx_of_forall_lt {positions : List ℕ} {l : List α}
    (h : ∀ i ∈ positions, l.length ≤ i) : l.zipIdx.filter (·.2 ∉ positions) = l.zipIdx := by
  rw [List.filter_eq_self]
  rintro ⟨a, i⟩ ha
  have hi := List.snd_lt_of_mem_zipIdx ha
  simpa using fun hmem => (h i hmem).not_gt hi

theorem eraseIdx_withoutPositions {i : ℕ} {positions : List ℕ} (hi : ∀ k ∈ positions, i < k)
    {l : List α} (hl : i < l.length) :
    (withoutPositions positions l).eraseIdx i = withoutPositions (i :: positions) l := by
  obtain ⟨before, a, after, rfl, rfl⟩ : ∃ before a after,
      l = before ++ a :: after ∧ before.length = i :=
    ⟨l.take i, l[i], l.drop (i + 1), by simp, by simpa using hl.le⟩
  -- All entries before the position are kept, so it is still the position of the same entry.
  have hbefore : ∀ k ∈ before.length :: positions, before.length ≤ k := by
    rintro k hk
    rcases List.mem_cons.mp hk with rfl | hk
    · exact le_rfl
    · exact (hi k hk).le
  have hafter : (after.zipIdx (before.length + 1)).filter
        (fun e => e.2 ∉ before.length :: positions) =
      (after.zipIdx (before.length + 1)).filter (fun e => e.2 ∉ positions) := by
    apply List.filter_congr
    rintro ⟨b, k⟩ hk
    have hle := List.le_snd_of_mem_zipIdx hk
    have hne : k ≠ before.length := by omega
    simp [hne]
  have hkept : before.length ∉ positions := fun h => (hi _ h).ne rfl
  simp only [withoutPositions, List.zipIdx_append, List.zipIdx_cons, List.filter_append,
    List.map_append, zero_add, filter_zipIdx_of_forall_lt hbefore,
    filter_zipIdx_of_forall_lt fun k hk => (hi k hk).le]
  rw [List.filter_cons_of_pos (by simpa using hkept), List.filter_cons_of_neg (by simp), hafter,
    List.eraseIdx_append_of_length_le (by simp)]
  simp

theorem foldr_eraseIdx {positions : List ℕ} (hs : positions.Pairwise (· < ·)) {l : List α}
    (hl : ∀ i ∈ positions, i < l.length) :
    positions.foldr (fun i l => l.eraseIdx i) l = withoutPositions positions l := by
  induction positions with
  | nil => exact (withoutPositions_nil l).symm
  | cons i positions ih =>
    obtain ⟨hi, hs⟩ := List.pairwise_cons.mp hs
    rw [List.foldr_cons, ih hs fun k hk => hl k (List.mem_cons_of_mem _ hk)]
    exact eraseIdx_withoutPositions hi (hl i (List.mem_cons_self ..))

theorem withoutPositions_ofFn {m : ℕ} (removed : List (Fin m)) (f : Fin m → α) :
    withoutPositions (removed.map Fin.val) (List.ofFn f) = (remainingRows removed).map f := by
  have hzip : (List.ofFn f).zipIdx = (List.finRange m).map fun i => (f i, i.val) := by
    apply List.ext_getElem <;> simp
  have hkept : (fun i : Fin m => decide (i.val ∉ removed.map Fin.val)) =
      fun i => decide (i ∉ removed) := by
    funext i
    simp [Fin.val_inj]
  rw [withoutPositions, hzip, List.filter_map, List.map_map, remainingRows, ← hkept]
  rfl

/-- It deletes the listed positions, if they grow and exist, and keeps the order of the rest. -/
def DeletesPositions (delete : ∀ α : Type, List ℕ → List α → List α) : Prop :=
  ∀ (α : Type) (positions : List ℕ) (l : List α), positions.Pairwise (· < ·) →
    (∀ i ∈ positions, i < l.length) → delete α positions l = withoutPositions positions l

theorem DeletesPositions.ofFn {delete : ∀ α : Type, List ℕ → List α → List α}
    (h : DeletesPositions delete) {m : ℕ} {removed : List (Fin m)}
    (hs : removed.Pairwise (· < ·)) (f : Fin m → α) :
    delete α (removed.map Fin.val) (List.ofFn f) = (remainingRows removed).map f := by
  rw [h _ _ _ (List.pairwise_map.mpr hs) (by simp), withoutPositions_ofFn]

end Deletion

namespace Program

variable {F : Type} {m n : ℕ}

theorem withoutRows_row (P : Program F m n) (removed : List (Fin m))
    (k : Fin (remainingRows removed).length) :
    (P.withoutRows removed).constraints.row k =
      P.constraints.row ((remainingRows removed).get k) := by
  simp [withoutRows, RowMatrix.selectRows, RowMatrix.row]

theorem withoutRows_toLists (P : Program F m n) (removed : List (Fin m)) :
    (P.withoutRows removed).constraints.toLists =
      (remainingRows removed).map fun i => (P.constraints.row i).toList := by
  rw [RowMatrix.toLists_eq_ofFn]
  apply List.ext_getElem <;> simp [withoutRows_row]

theorem withoutRows_rhs_toList (P : Program F m n) (removed : List (Fin m)) :
    (P.withoutRows removed).rhs.toList = (remainingRows removed).map P.rhs.get := by
  rw [toList_eq_ofFn]
  apply List.ext_getElem
  · simp
  · intro k hk hk'
    simp only [List.getElem_ofFn, List.getElem_map]
    exact P.withoutRows_rhs_get removed _

end Program

variable {F : Type} [Scalar F]

theorem foldr_eraseIdx_insertZeros (positions : List ℕ) (values : List F) :
    positions.foldr (fun i l => l.eraseIdx i) (insertZeros positions values) = values := by
  induction positions generalizing values with
  | nil => rfl
  | cons i positions ih =>
    rw [List.foldr_cons, insertZeros_cons, ih, List.eraseIdx_insertIdx_self]

theorem exists_insertZeros_eq_ofFn {m : ℕ} {removed : List (Fin m)}
    (hs : removed.Pairwise (· < ·)) {values : List F}
    (hlength : values.length + removed.length = m) :
    ∃ y : Fin m → F, insertZeros (removed.map Fin.val) values = List.ofFn y ∧
      InsertsWithin (removed.map Fin.val) values.length ∧
      (∀ i ∈ removed, y i = 0) ∧ values = (remainingRows removed).map y := by
  have hsorted : (removed.map Fin.val).Pairwise (· < ·) := List.pairwise_map.mpr hs
  have hinserts : InsertsWithin (removed.map Fin.val) values.length := by
    apply insertsWithin_of_sorted hsorted
    simp [hlength]
  have hm : (insertZeros (removed.map Fin.val) values).length = m := by
    rw [length_insertZeros hinserts, List.length_map, hlength]
  obtain ⟨y, hy⟩ : ∃ y : Fin m → F, insertZeros (removed.map Fin.val) values = List.ofFn y :=
    ⟨fun i => (insertZeros (removed.map Fin.val) values)[i], by
      apply List.ext_getElem <;> simp [hm]⟩
  refine ⟨y, hy, hinserts, ?_, ?_⟩
  · intro i hi
    have hzero := insertZeros_getElem?_of_mem hsorted hinserts (List.mem_map_of_mem hi)
    simpa [hy] using hzero
  · calc values = withoutPositions (removed.map Fin.val) (List.ofFn y) := by
          rw [← hy, ← foldr_eraseIdx hsorted (by simp [hm]), foldr_eraseIdx_insertZeros]
      _ = (remainingRows removed).map y := withoutPositions_ofFn removed y

/-- The `prices` of all rows belong to the prices of the rows that are kept when `delete` removes
the others. -/
structure Program.CompletesPrices {m n : ℕ} (P : Program F m n)
    (delete : ∀ α : Type, List ℕ → List α → List α) (removed : List (Fin m))
    (kept prices : List F) : Prop where
  /-- No zero is inserted past the end. -/
  insertsWithin : InsertsWithin (removed.map Fin.val) kept.length
  length_prices : prices.length = m
  /-- Zeros stand at the removed rows, and elsewhere only if they are prices of kept rows. -/
  price_eq_zero_iff : ∀ i : Fin m, prices[i.val]? = some 0 ↔
    i ∈ removed ∨ ∃ k : ℕ, (remainingRows removed)[k]? = some i ∧ kept[k]? = some 0
  delete_prices : delete F (removed.map Fin.val) prices = kept
  delete_indices : delete (Fin m) (removed.map Fin.val) (List.finRange m) = remainingRows removed
  delete_constraints : delete (List F) (removed.map Fin.val) P.constraints.toLists =
    (P.withoutRows removed).constraints.toLists
  delete_rhs : delete F (removed.map Fin.val) P.rhs.toList = (P.withoutRows removed).rhs.toList
  price_kept : ∀ i ∉ removed, ∃ k, (remainingRows removed).get k = i ∧
    prices[i.val]? = kept[k.val]? ∧
    (P.withoutRows removed).constraints.row k = P.constraints.row i ∧
    (P.withoutRows removed).rhs.get k = P.rhs.get i

theorem Program.completesPrices_insertZeros {m n : ℕ} (P : Program F m n)
    {delete : ∀ α : Type, List ℕ → List α → List α} (hdelete : DeletesPositions delete)
    {removed : List (Fin m)} (hs : removed.Pairwise (· < ·)) {kept : List F}
    (hlength : kept.length + removed.length = m) :
    P.CompletesPrices delete removed kept (insertZeros (removed.map Fin.val) kept) := by
  obtain ⟨y, hy, hinserts, hzero, rfl⟩ := exists_insertZeros_eq_ofFn hs hlength
  have hprice (i : Fin m) : (List.ofFn y)[i.val]? = some (y i) := by simp
  rw [hy]
  constructor
  · exact hinserts
  · simp
  · intro i
    rw [hprice, Option.some_inj]
    constructor
    · intro hi
      by_cases hmem : i ∈ removed
      · exact .inl hmem
      · obtain ⟨k, hk⟩ := List.mem_iff_getElem?.mp (mem_remainingRows.mpr hmem)
        exact .inr ⟨k, hk, by simp [hk, hi]⟩
    · rintro (hi | ⟨k, hk, hk0⟩)
      · exact hzero i hi
      · simpa [hk] using hk0
  · exact hdelete.ofFn hs y
  · simpa [List.ofFn_eq_map] using hdelete.ofFn hs id
  · rw [RowMatrix.toLists_eq_ofFn, hdelete.ofFn hs, withoutRows_toLists]
  · rw [toList_eq_ofFn, hdelete.ofFn hs, withoutRows_rhs_toList]
  · rintro i hi
    obtain ⟨k, rfl⟩ := List.mem_iff_get.mp (mem_remainingRows.mpr hi)
    exact ⟨k, rfl, by simp, P.withoutRows_row removed k, P.withoutRows_rhs_get removed k⟩

namespace Problem

def signedPrices (p : Problem F) {k n : ℕ} (t : Tableau F k n) : List F :=
  t.shadowPrice.toList.map (p.objective.sign * ·)

/-- The optimum of a tableau on the rows that are kept has a price for each row of the problem. To
the rows that `delete` removes belong the zeros, to the others their prices in the tableau. -/
theorem verdict_completesPrices {delete : ∀ α : Type, List ℕ → List α → List α}
    (hdelete : DeletesPositions delete) (p : Problem F) {removed : List (Fin p.rows)}
    (hs : removed.Pairwise (· < ·)) {k : ℕ} (hk : k + removed.length = p.rows)
    (t : Tableau F k p.columns) :
    ∃ o, p.verdict .optimal t (removed.map Fin.val) = .optimal o ∧
      p.standardForm.CompletesPrices delete removed (p.signedPrices t) o.shadowPrice :=
  ⟨_, rfl, p.standardForm.completesPrices_insertZeros hdelete hs (by simpa [signedPrices] using hk)⟩

/-- Each of two equations is stated twice. -/
def doubledRows : Problem ℚ where
  objective := .maximize
  program := ⟨.ofFn ![3, 5], .ofFn ![![1, 0], ![1, 0], ![0, 1], ![0, 1]], .ofFn ![1, 1, 2, 2]⟩
  rows_pos := by decide
  columns_pos := by decide
  isFinite := by decide +kernel

def firstStatements : List (Fin doubledRows.rows) := [⟨0, by decide⟩, ⟨2, by decide⟩]

def doubledRowsTableau : Tableau ℚ 2 doubledRows.columns where
  program := doubledRows.standardForm.withoutRows firstStatements
  basis := .ofFn ![⟨0, by decide⟩, ⟨1, by decide⟩]
  evaluation := ⟨.identity 2, .ofFn ![1, 2], .ofFn ![-3, -5]⟩
  tolerance := 0
  artificial := 0

/-- To delete the positions from the last one on is such a deletion. -/
theorem verdict_completesPrices_doubledRows :
    DeletesPositions (fun _ positions l => positions.foldr (fun i l => l.eraseIdx i) l) ∧
      ∃ o, doubledRows.verdict .optimal doubledRowsTableau [0, 2] = .optimal o ∧
        o.shadowPrice = [0, 3, 0, 5] ∧
        doubledRows.standardForm.CompletesPrices
          (fun _ positions l => positions.foldr (fun i l => l.eraseIdx i) l) firstStatements [3, 5]
          o.shadowPrice := by
  have hdelete : DeletesPositions
      (fun _ positions l => positions.foldr (fun i l => l.eraseIdx i) l) :=
    fun _ _ _ hs hl => foldr_eraseIdx hs hl
  have hs : firstStatements.Pairwise (· < ·) := by decide
  obtain ⟨o, ho, hprices⟩ := verdict_completesPrices hdelete doubledRows hs rfl doubledRowsTableau
  have hsigned : doubledRows.signedPrices doubledRowsTableau = [3, 5] := by decide +kernel
  rw [hsigned] at hprices
  refine ⟨hdelete, o, ho, ?_, hprices⟩
  cases ho
  decide +kernel

end Problem
end RevisedSimplex
