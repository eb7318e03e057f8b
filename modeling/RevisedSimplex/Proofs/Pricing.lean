import RevisedSimplex.Proofs.Evaluation
import RevisedSimplex.Tableau.Pricing

/-! # Pricing rules

Each rule picks one of the profitable columns. Two of them take the first one and differ in the
order of their search. Over the rationals they find none exactly in a dual feasible tableau.
-/

namespace RevisedSimplex

variable {m n : ℕ}

namespace Tableau

section Scalar

variable {F : Type} [Scalar F] {t : Tableau F m n}

theorem mem_profitable {columns : List (Fin n)} {p : Priced F n} :
    p ∈ t.profitable columns ↔
      p.1 ∈ columns ∧ t.isBasic p.1 = false ∧ p.2 = t.relativeCost p.1 ∧ t.tolerance < p.2 := by
  obtain ⟨j, cost⟩ := p
  simp only [profitable, List.mem_filter, List.mem_map, Bool.not_eq_true', decide_eq_true_eq,
    Prod.mk.injEq]
  constructor
  · rintro ⟨⟨j', ⟨hj, hb⟩, rfl, rfl⟩, hc⟩
    exact ⟨hj, hb, rfl, hc⟩
  · rintro ⟨hj, hb, rfl, hc⟩
    exact ⟨⟨j, ⟨hj, hb⟩, rfl, rfl⟩, hc⟩

/-- A nonbasic column that may enter and is worth more than it costs. -/
def IsProfitable (t : Tableau F m n) (j : Fin n) : Prop :=
  j.val < t.structural ∧ t.isBasic j = false ∧ t.tolerance < t.relativeCost j

theorem mem_profitable_candidates {p : Priced F n} :
    p ∈ t.profitable t.candidates ↔ t.IsProfitable p.1 ∧ p.2 = t.relativeCost p.1 := by
  rw [mem_profitable, mem_candidates]
  constructor
  · rintro ⟨hj, hb, hc, hlt⟩
    exact ⟨⟨hj, hb, hc ▸ hlt⟩, hc⟩
  · rintro ⟨⟨hj, hb, hlt⟩, hc⟩
    exact ⟨hj, hb, hc, hc.symm ▸ hlt⟩

theorem profitable_append (columns columns' : List (Fin n)) :
    t.profitable (columns ++ columns') = t.profitable columns ++ t.profitable columns' := by
  simp only [profitable, List.filter_append, List.map_append]

theorem pairwise_profitable {κ : Type} [Preorder κ] (place : Fin n → κ) {columns : List (Fin n)}
    (h : columns.Pairwise fun a b => place a < place b) :
    (t.profitable columns).Pairwise fun p q => place p.1 < place q.1 := by
  refine List.Pairwise.filter _ (List.pairwise_map.mpr ?_)
  exact h.filter _

theorem head?_profitable_eq_some_iff {κ : Type} [Preorder κ] (place : Fin n → κ)
    {columns : List (Fin n)} (hcolumns : ∀ j, j ∈ columns ↔ j ∈ t.candidates)
    (hsorted : columns.Pairwise fun a b => place a < place b) {j : Fin n} {cost : F} :
    (t.profitable columns).head? = some (j, cost) ↔
      (t.IsProfitable j ∧ cost = t.relativeCost j) ∧
        ∀ k ≠ j, t.IsProfitable k → place j < place k := by
  have hmem : ∀ p, p ∈ t.profitable columns ↔
      t.IsProfitable p.1 ∧ p.2 = t.relativeCost p.1 := fun p => by
    rw [← mem_profitable_candidates, mem_profitable, mem_profitable, hcolumns]
  rw [head?_eq_some_iff_of_pairwise (fun p : Priced F n => place p.1)
    (pairwise_profitable place hsorted), hmem]
  refine and_congr_right fun hj => ⟨fun h k hk hprofitable => ?_, fun h p hp hne => ?_⟩
  · exact h (k, t.relativeCost k) ((hmem _).mpr ⟨hprofitable, rfl⟩)
      fun he => hk (congrArg Prod.fst he)
  · obtain ⟨hprofitable, hc⟩ := (hmem p).mp hp
    refine h p.1 (fun he => hne (Prod.ext he ?_)) hprofitable
    rw [hc, hj.2, he]

omit [Scalar F] in
theorem pairwise_candidates (t : Tableau F m n) : t.candidates.Pairwise (· < ·) :=
  (List.pairwise_lt_finRange n).filter _

def searchOrder (t : Tableau F m n) : Option (Fin n) → List (Fin n)
  | none => t.candidates
  | some last => t.candidates.filter (last < ·) ++ t.candidates.filter (· ≤ last)

omit [Scalar F] in
theorem mem_searchOrder {last : Option (Fin n)} {j : Fin n} :
    j ∈ t.searchOrder last ↔ j ∈ t.candidates := by
  cases last with
  | none => exact Iff.rfl
  | some last =>
    simp only [searchOrder, List.mem_append, List.mem_filter, decide_eq_true_eq, ← and_or_left]
    exact and_iff_left (lt_or_ge last j)

theorem enteringColumn_withMemory (t : Tableau F m n) (last : Option (Fin n)) :
    t.enteringColumn .firstProfitableWithMemory last =
      (t.profitable (t.searchOrder last)).head? := by
  cases last with
  | none => rfl
  | some last =>
    rw [searchOrder, profitable_append, List.head?_append]
    exact Option.orElse_eq_or

theorem mem_of_largestCost {columns : List (Priced F n)} {p : Priced F n}
    (h : largestCost columns = some p) : p ∈ columns := by
  refine mem_of_foldl_choice (fun best column => ?_) h
  cases best with
  | none => exact Or.inr rfl
  | some best => exact ite_eq_or_eq _ _ _

theorem mem_of_enteringColumn {rule : EnteringRule} {last : Option (Fin n)} {p : Priced F n}
    (h : t.enteringColumn rule last = some p) : p ∈ t.profitable t.candidates := by
  cases rule with
  | dantzig => exact mem_of_largestCost h
  | firstProfitable => exact List.mem_of_head? h
  | firstProfitableWithMemory =>
    rw [enteringColumn_withMemory] at h
    obtain ⟨hj, hp⟩ := mem_profitable.mp (List.mem_of_head? h)
    exact mem_profitable.mpr ⟨mem_searchOrder.mp hj, hp⟩

end Scalar

variable {t : Tableau ℚ m n}

theorem profitable_eq_nil_iff {columns : List (Fin n)} :
    t.profitable columns = [] ↔
      ∀ j ∈ columns, t.isBasic j = false → t.relativeCost j ≤ t.tolerance := by
  rw [List.eq_nil_iff_forall_not_mem]
  constructor
  · intro h j hj hb
    by_contra hc
    exact h (j, t.relativeCost j) (mem_profitable.mpr ⟨hj, hb, rfl, not_le.mp hc⟩)
  · intro h p hp
    obtain ⟨hj, hb, hc, hlt⟩ := mem_profitable.mp hp
    exact absurd (h p.1 hj hb) (not_le.mpr (hc ▸ hlt))

theorem profitable_candidates_eq_nil_iff :
    t.profitable t.candidates = [] ↔ t.isDualFeasible = true := by
  rw [profitable_eq_nil_iff, isDualFeasible_iff]
  simp only [mem_candidates]

theorem largestCost_spec (columns : List (Priced ℚ n)) :
    largestCost columns = none ∧ columns = [] ∨
      ∃ before p after, columns = before ++ p :: after ∧ largestCost columns = some p ∧
        (∀ q ∈ before, q.2 < p.2) ∧ ∀ q ∈ after, q.2 ≤ p.2 := by
  refine foldl_firstLeast (fun p : Priced ℚ n => OrderDual.toDual p.2) (fun _ => rfl) ?_ columns
  rintro ⟨j, cost⟩ p
  change (if p.2 ≤ cost then _ else _) = if cost < p.2 then some p else some (j, cost)
  split
  · rename_i h
    exact (if_neg (not_lt.mpr h)).symm
  · rename_i h
    exact (if_pos (not_le.mp h)).symm

theorem largestCost_eq_none {columns : List (Priced ℚ n)} (h : largestCost columns = none) :
    columns = [] := by
  rcases largestCost_spec columns with ⟨-, hn⟩ | ⟨before, q, after, -, hq, -⟩
  · exact hn
  · rw [hq] at h
    cases h

theorem isDualFeasible_of_enteringColumn {rule : EnteringRule} {last : Option (Fin n)}
    (h : t.enteringColumn rule last = none) : t.isDualFeasible = true := by
  rw [← profitable_candidates_eq_nil_iff]
  cases rule with
  | dantzig => exact largestCost_eq_none h
  | firstProfitable => exact List.head?_eq_none_iff.mp h
  | firstProfitableWithMemory =>
    rw [enteringColumn_withMemory, List.head?_eq_none_iff, profitable_eq_nil_iff] at h
    exact profitable_eq_nil_iff.mpr fun j hj => h j (mem_searchOrder.mpr hj)

/-- What the choice of an entering column promises the iteration. -/
theorem enteringColumn_spec {rule : EnteringRule} {last : Option (Fin n)} {j : Fin n} {cost : ℚ}
    (h : t.enteringColumn rule last = some (j, cost)) :
    j.val < t.structural ∧ (∀ i, t.basis.get i ≠ j) ∧ cost = t.relativeCost j ∧
      t.tolerance < t.relativeCost j := by
  obtain ⟨hj, hb, hc, hlt⟩ := mem_profitable.mp (mem_of_enteringColumn h)
  exact ⟨mem_candidates.mp hj, (t.isBasic_eq_false_iff j).mp hb, hc, hc ▸ hlt⟩

theorem relativeCost_le_of_lt_firstProfitable {last : Option (Fin n)} {j k : Fin n} {cost : ℚ}
    (h : t.enteringColumn .firstProfitable last = some (j, cost)) (hk : k < j)
    (hb : ∀ i, t.basis.get i ≠ k) : t.relativeCost k ≤ t.tolerance := by
  by_contra hc
  obtain ⟨⟨hj, -⟩, hfirst⟩ :=
    (head?_profitable_eq_some_iff id (fun _ => Iff.rfl) t.pairwise_candidates).mp h
  have hkj : k.val < t.structural := lt_trans hk hj.1
  exact lt_asymm hk
    (hfirst k hk.ne ⟨hkj, (t.isBasic_eq_false_iff k).mpr hb, not_le.mp hc⟩)

end Tableau
end RevisedSimplex
