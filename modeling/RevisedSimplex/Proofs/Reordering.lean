import RevisedSimplex.Proofs.LexRows

/-! # Bases in another order

Two exact tableaux with the same basic columns differ in the order of their rows only. Apart from
the first minimum, every choice of the methods depends on the column that is basic in a row and
not on the place of the row, so they make the same moves.
-/

namespace RevisedSimplex

variable {m n : ℕ}

def rearrange {α : Type} (σ : Equiv.Perm (Fin m)) (l : List α) : List α :=
  (List.finRange m).filterMap fun i => l[(σ i).val]?

theorem rearrange_ofFn {α : Type} (σ : Equiv.Perm (Fin m)) (f : Fin m → α) :
    rearrange σ (List.ofFn f) = List.ofFn (f ∘ σ) := by
  have h : (fun i : Fin m => (List.ofFn f)[(σ i).val]?) = some ∘ (f ∘ σ) := by
    ext i
    simp
  rw [rearrange, h, List.filterMap_eq_map, List.ofFn_eq_map]

example : rearrange (finRotate 3) [5, 3, 4] = [3, 4, 5] := by decide

namespace Basis

theorem indices_eq_ofFn (basis : Basis m n) :
    basis.indices = List.ofFn fun i => (basis.get i).val := by
  rw [indices, toList_eq_ofFn, List.map_ofFn]
  rfl

theorem indices_rearrange {σ : Equiv.Perm (Fin m)} {basis basis' : Basis m n}
    (h : ∀ i, basis'.get i = basis.get (σ i)) : basis'.indices = rearrange σ basis.indices := by
  rw [indices_eq_ofFn, indices_eq_ofFn, rearrange_ofFn]
  simp only [h]
  rfl

theorem exists_perm {basis basis' : Basis m n} (hb : Function.Injective basis'.get)
    (hmem : ∀ i, ∃ l, basis.get l = basis'.get i) :
    ∃ σ : Equiv.Perm (Fin m), ∀ i, basis'.get i = basis.get (σ i) := by
  choose f hf using hmem
  have hinj : Function.Injective f := by
    intro i k hik
    apply hb
    rw [← hf, ← hf, hik]
  refine ⟨Equiv.ofBijective f (Finite.injective_iff_bijective.mp hinj), fun i => ?_⟩
  exact (hf i).symm

end Basis

def Move.rearrange {F : Type} (σ : Equiv.Perm (Fin m)) : Move F m n → Move F m n
  | .optimal => .optimal
  | .unbounded j => .unbounded j
  | .infeasible i => .infeasible (σ.symm i)
  | .pivot i j cost => .pivot (σ.symm i) j cost

namespace Tableau

/-- The column that is basic in row `i` of `t'` is basic in row `σ i` of `t`. -/
structure Reorders (σ : Equiv.Perm (Fin m)) (t t' : Tableau ℚ m n) : Prop where
  isExact : t.IsExact
  isExact' : t'.IsExact
  program_eq : t'.program = t.program
  artificial_eq : t'.artificial = t.artificial
  basis_get : ∀ i, t'.basis.get i = t.basis.get (σ i)

namespace Reorders

variable {σ : Equiv.Perm (Fin m)} {t t' : Tableau ℚ m n} (h : Reorders σ t t')

include h

theorem basicColumns_eq : t'.basicColumns = t.basicColumns := by
  ext c
  simp only [mem_basicColumns, h.basis_get]
  exact σ.exists_congr fun _ => Iff.rfl

theorem tolerance_eq : t'.tolerance = t.tolerance :=
  h.isExact'.tolerance_eq.trans h.isExact.tolerance_eq.symm

theorem pricesLike : PricesLike t t' :=
  h.isExact.pricesLike_of_basicColumns h.isExact' h.program_eq h.basicColumns_eq h.artificial_eq

theorem lexRow_eq (i : Fin m) : t'.lexRow i = t.lexRow (σ i) :=
  h.isExact.lexRow_eq_of_basicColumns h.isExact'.toIsValid h.program_eq h.basicColumns_eq
    (h.basis_get i)

theorem basicValues_get (i : Fin m) : t'.basicValues.get i = t.basicValues.get (σ i) :=
  congrFun (h.lexRow_eq i) 0

theorem entries_eq (i : Fin m) (j : Fin n) : t'.entries i j = t.entries (σ i) j :=
  congrFun (h.lexRow_eq i) j.succ

theorem shadowPrice_eq : t'.shadowPrice = t.shadowPrice :=
  get_injective (h.isExact.shadowPrice_eq_of_basicColumns h.isExact'.toIsValid h.program_eq
    h.basicColumns_eq)

theorem objective_eq : t'.objective = t.objective :=
  h.isExact.objective_eq_of_basicColumns h.isExact'.toIsValid h.program_eq h.basicColumns_eq

theorem point_eq : t'.point = t.point := by
  apply get_injective
  apply h.isExact.eq_point
  · rw [← h.program_eq]
    exact h.isExact'.constraints_mulVec_point
  · intro j hj
    have hj' : ∀ i, t'.basis.get i ≠ j := fun i => by
      rw [h.basis_get]
      exact hj (σ i)
    rw [h.isExact'.point_get, spread_nonbasic hj']

theorem isPrimalFeasible_eq : t'.isPrimalFeasible = t.isPrimalFeasible := by
  rw [Bool.eq_iff_iff, h.isExact.isPrimalFeasible_iff, h.isExact'.isPrimalFeasible_iff]
  simp only [h.basicValues_get]
  exact σ.forall_congr fun _ => Iff.rfl

/-! ### Choices -/

theorem smallestBasic_eq {rows rows' : List (Fin m)} (hrows : ∀ i, i ∈ rows' ↔ σ i ∈ rows) :
    t'.smallestBasic rows' = (t.smallestBasic rows).map σ.symm := by
  ext i
  rw [Option.map_eq_some_iff]
  simp only [σ.symm_apply_eq, exists_eq_right]
  rw [smallestBasic_eq_some_iff h.isExact'.basis_injective,
    smallestBasic_eq_some_iff h.isExact.basis_injective, hrows]
  refine and_congr_right fun _ => σ.forall_congr fun k => ?_
  rw [hrows, h.basis_get, h.basis_get, σ.injective.ne_iff]

theorem mem_tiedRows_iff (i : Fin m) (j : Fin n) :
    i ∈ t'.tiedRows (t'.column j) ↔ σ i ∈ t.tiedRows (t.column j) := by
  simp only [mem_tiedRows, ratioWindow_zero h.isExact.tolerance_eq,
    ratioWindow_zero h.isExact'.tolerance_eq, h.tolerance_eq, column_get, h.entries_eq,
    h.basicValues_get]
  exact and_congr_right fun _ => σ.forall_congr fun _ => Iff.rfl

theorem leavingRow_eq {rule : LeavingRule} (hrule : rule ≠ .firstMinimum) (j : Fin n) :
    t'.leavingRow rule (t'.column j) = (t.leavingRow rule (t.column j)).map σ.symm := by
  cases rule with
  | firstMinimum => exact absurd rfl hrule
  | smallestIndex => exact h.smallestBasic_eq fun i => h.mem_tiedRows_iff i j
  | lexicographic =>
    have hnone : t'.leavingRow .lexicographic (t'.column j) = none ↔
        t.leavingRow .lexicographic (t.column j) = none := by
      rw [leavingRow_eq_none_iff h.isExact.tolerance_nonneg,
        leavingRow_eq_none_iff h.isExact'.tolerance_nonneg]
      simp only [column_get, h.entries_eq, h.tolerance_eq]
      exact σ.forall_congr fun _ => Iff.rfl
    cases hi : t.leavingRow .lexicographic (t.column j) with
    | none => exact hnone.mpr hi
    | some i =>
      obtain ⟨i', hi'⟩ := Option.ne_none_iff_exists'.mp (mt hnone.mp (by simp [hi]))
      have hb := h.isExact.basis_get_eq_of_leavingRow h.isExact' h.program_eq h.basicColumns_eq
        hi hi'
      rw [h.basis_get] at hb
      rw [hi', Option.map_some, σ.eq_symm_apply.mpr (h.isExact.basis_injective hb)]

theorem primalMove_eq {options : Options ℚ} (ho : options.leaving ≠ .firstMinimum)
    (last : Option (Fin n)) :
    primalMove options last t' = (primalMove options last t).rearrange σ := by
  rw [primalMove, primalMove, h.pricesLike.enteringColumn_eq]
  cases t.enteringColumn options.entering last with
  | none => rfl
  | some priced =>
    dsimp only
    rw [h.leavingRow_eq ho]
    cases t.leavingRow options.leaving (t.column priced.1) <;> rfl

theorem dualLeavingRow_eq : t'.dualLeavingRow = t.dualLeavingRow.map σ.symm := by
  refine h.smallestBasic_eq fun i => ?_
  simp only [mem_minimizers, mem_infeasibleRows, h.basicValues_get, h.tolerance_eq]
  exact and_congr_right fun _ => σ.forall_congr fun _ => Iff.rfl

theorem dualEnteringColumn_eq (i : Fin m) :
    t'.dualEnteringColumn i = t.dualEnteringColumn (σ i) := by
  have hrow : t'.rowEntry i = t.rowEntry (σ i) := by
    funext j
    rw [rowEntry_eq, rowEntry_eq, h.entries_eq]
  rw [dualEnteringColumn, dualEnteringColumn, pivotColumns, pivotColumns,
    h.pricesLike.nonbasicCandidates_eq, h.pricesLike.relativeCost_eq, hrow, h.tolerance_eq]

theorem dualMove_eq : t'.dualMove = t.dualMove.rearrange σ := by
  rw [dualMove, dualMove, h.dualLeavingRow_eq]
  cases t.dualLeavingRow with
  | none => rfl
  | some i =>
    dsimp only [Option.map_some]
    rw [h.dualEnteringColumn_eq, σ.apply_symm_apply, h.pricesLike.relativeCost_eq]
    cases t.dualEnteringColumn i <;> rfl

/-! ### Pivots -/

/-- Both tableaux can be pivoted on a nonzero entry, and then differ as before. -/
theorem pivot {i : Fin m} {j : Fin n} (hp : t.entries i j ≠ 0) :
    ∃ t₁ t₁', t.pivot i j = .ok t₁ ∧ t'.pivot (σ.symm i) j = .ok t₁' ∧ Reorders σ t₁ t₁' := by
  have hp' : t'.entries (σ.symm i) j ≠ 0 := by
    rwa [h.entries_eq, σ.apply_symm_apply]
  obtain ⟨t₁, ht₁⟩ := h.isExact.pivot_exists h.isExact.tolerance_eq hp
  obtain ⟨t₁', ht₁'⟩ := h.isExact'.pivot_exists h.isExact'.tolerance_eq hp'
  have he := h.isExact.isExchange_of_pivot ht₁
  have he' := h.isExact'.isExchange_of_pivot ht₁'
  refine ⟨t₁, t₁', ht₁, ht₁', h.isExact.of_isExchange he, h.isExact'.of_isExchange he', ?_, ?_,
    fun k => ?_⟩
  · rw [he'.program_eq, he.program_eq, h.program_eq]
  · rw [he'.artificial_eq, he.artificial_eq, h.artificial_eq]
  · rw [he'.basis_get, he.basis_get, h.basis_get]
    simp only [σ.eq_symm_apply]

end Reorders

namespace IsExact

variable {t t' : Tableau ℚ m n} (ht : t.IsExact) (ht' : t'.IsExact)
  (hP : t'.program = t.program) (hb : t'.basicColumns = t.basicColumns)
  (hart : t'.artificial = t.artificial)

include ht ht' hP hb hart

theorem exists_reorders : ∃ σ, Reorders σ t t' := by
  obtain ⟨σ, hσ⟩ := Basis.exists_perm ht'.basis_injective fun i =>
    mem_basicColumns.mp (hb ▸ mem_basicColumns.mpr ⟨i, rfl⟩)
  exact ⟨σ, ht, ht', hP, hart, hσ⟩

/-- Without memory the next set of basic columns depends on this one only. -/
theorem step_of_basicColumns {options : Options ℚ} (ho : options.leaving ≠ .firstMinimum)
    (hrule : options.entering ≠ .firstProfitableWithMemory) {last last' : Option (Fin n)}
    {s : Position ℚ m n} (h : Step (primalMove options) ⟨last, t⟩ s) :
    ∃ s', Step (primalMove options) ⟨last', t'⟩ s' ∧
      s'.tableau.basicColumns = s.tableau.basicColumns := by
  obtain ⟨σ, hre⟩ := ht.exists_reorders ht' hP hb hart
  cases h with
  | @pivot _ _ t₁ i j cost hm ht₁ =>
    have hm' : t'.primalMove options last' = .pivot (σ.symm i) j cost := by
      rw [hre.primalMove_eq ho, primalMove, t.enteringColumn_of_memoryless hrule last' last,
        ← primalMove, hm]
      rfl
    obtain ⟨t₂, t₂', ht₂, ht₂', h₂⟩ := hre.pivot (ht.entry_pos hm).ne'
    cases ht₁.symm.trans ht₂
    exact ⟨⟨some j, t₂'⟩, .pivot hm' ht₂', h₂.basicColumns_eq⟩

end IsExact
end Tableau
end RevisedSimplex
