import RevisedSimplex.Proofs.Pricing
import RevisedSimplex.Proofs.Soundness

/-! # Contract of the pricing rules

A rule chooses one of the profitable columns, and none if there is none. It is the first one with
the largest relative cost, the first one in the order of the columns, or the first one in the cyclic
order that begins after the column that the rule chose last.
-/

namespace RevisedSimplex

variable {m n N start j : ℕ}

/-- The place of column `j` in the cyclic order of `N` columns that begins with column `start`. -/
def cyclicPlace (N start j : ℕ) : ℕ := (j + (N - start)) % N

theorem cyclicPlace_of_le (h : start ≤ j) (hj : j < N) : cyclicPlace N start j = j - start := by
  rw [cyclicPlace, show j + (N - start) = j - start + N by omega, Nat.add_mod_right,
    Nat.mod_eq_of_lt (by omega)]

theorem cyclicPlace_of_lt (h : j < start) (hstart : start ≤ N) :
    cyclicPlace N start j = j + (N - start) :=
  Nat.mod_eq_of_lt (by omega)

namespace Memory

def next (memory : Memory) : ℕ := memory.last.elim 0 (· + 1)

/-- Nothing is remembered, or one of the first `N` columns. -/
def IsWithin (memory : Memory) (N : ℕ) : Prop := ∀ last ∈ memory.last, last < N

theorem IsWithin.column?_eq {memory : Memory} (h : memory.IsWithin N) (hn : N ≤ n) :
    memory.last = none ∧ memory.column? n = none ∨
      ∃ last : Fin n, last.val < N ∧ memory.last = some last.val ∧
        memory.column? n = some last := by
  obtain ⟨last⟩ := memory
  cases last with
  | none => exact Or.inl ⟨rfl, rfl⟩
  | some last =>
    have hlast : last < N := h last rfl
    exact Or.inr ⟨⟨last, hlast.trans_le hn⟩, hlast, rfl, dif_pos (hlast.trans_le hn)⟩

end Memory

namespace Tableau

section Scalar

variable {F : Type} [Scalar F] {t : Tableau F m n} {memory : Memory}

omit [Scalar F] in
theorem pairwise_searchOrder (h : memory.IsWithin t.structural) :
    (t.searchOrder (memory.column? n)).Pairwise fun a b : Fin n =>
      cyclicPlace t.structural memory.next a < cyclicPlace t.structural memory.next b := by
  rcases h.column?_eq (Nat.sub_le n t.artificial) with ⟨hl, hc⟩ | ⟨last, hlast, hl, hc⟩
  · rw [hc, Memory.next, hl]
    refine t.pairwise_candidates.imp_of_mem fun {a b} ha hb hab => ?_
    rw [mem_searchOrder, mem_candidates] at ha hb
    rwa [Option.elim_none, cyclicPlace_of_le (Nat.zero_le _) ha,
      cyclicPlace_of_le (Nat.zero_le _) hb]
  · -- the columns after the last one come first, then those up to it
    rw [hc, Memory.next, hl, Option.elim_some, searchOrder, List.pairwise_append]
    have hafter : ∀ a ∈ t.candidates.filter (last < ·),
        last.val < a.val ∧ a.val < t.structural := fun a ha => by
      obtain ⟨ha, hlt⟩ := List.mem_filter.mp ha
      exact ⟨of_decide_eq_true hlt, mem_candidates.mp ha⟩
    have hupto : ∀ a ∈ t.candidates.filter (· ≤ last), a.val < last.val + 1 := fun a ha =>
      Nat.lt_succ_of_le (of_decide_eq_true (List.mem_filter.mp ha).2)
    refine ⟨?_, ?_, fun a ha b hb => ?_⟩
    · refine (t.pairwise_candidates.filter _).imp_of_mem fun {a b} ha hb hab => ?_
      obtain ⟨hla, ha⟩ := hafter a ha
      obtain ⟨hlb, hb⟩ := hafter b hb
      rw [cyclicPlace_of_le hla ha, cyclicPlace_of_le hlb hb]
      omega
    · refine (t.pairwise_candidates.filter _).imp_of_mem fun {a b} ha hb hab => ?_
      rw [cyclicPlace_of_lt (hupto a ha) hlast, cyclicPlace_of_lt (hupto b hb) hlast]
      omega
    · obtain ⟨hla, ha⟩ := hafter a ha
      rw [cyclicPlace_of_le hla ha, cyclicPlace_of_lt (hupto b hb) hlast]
      omega

theorem select_fst (t : Tableau F m n) (rule : EnteringRule) (memory : Memory) :
    (t.select rule memory).1 = t.enteringColumn rule (memory.column? n) := by
  cases rule <;> rfl

theorem isProfitable_of_select {rule : EnteringRule} {j : Fin n} {cost : F}
    (h : (t.select rule memory).1 = some (j, cost)) :
    t.IsProfitable j ∧ cost = t.relativeCost j := by
  rw [select_fst] at h
  exact mem_profitable_candidates.mp (mem_of_enteringColumn h)

theorem select_withMemory_eq_some_iff (h : memory.IsWithin t.structural) {j : Fin n} {cost : F} :
    (t.select .firstProfitableWithMemory memory).1 = some (j, cost) ↔
      (t.IsProfitable j ∧ cost = t.relativeCost j) ∧ ∀ k ≠ j, t.IsProfitable k →
        cyclicPlace t.structural memory.next j < cyclicPlace t.structural memory.next k := by
  rw [select_fst, enteringColumn_withMemory]
  exact head?_profitable_eq_some_iff (fun k : Fin n => cyclicPlace _ _ k)
    (fun _ => mem_searchOrder) (pairwise_searchOrder h)

end Scalar

variable {t : Tableau ℚ m n} {memory : Memory} {j k : Fin n} {cost : ℚ}

/-- What distinguishes the column that a rule chooses among the profitable ones. -/
def IsPreferred (t : Tableau ℚ m n) (memory : Memory) (j : Fin n) : EnteringRule → Prop
  | .dantzig => ∀ k ∈ t.nonbasicCandidates,
      t.relativeCost k ≤ t.relativeCost j ∧ (k < j → t.relativeCost k < t.relativeCost j)
  | .firstProfitable => ∀ k ≠ j, t.IsProfitable k → j < k
  | .firstProfitableWithMemory => ∀ k ≠ j, t.IsProfitable k →
      cyclicPlace t.structural memory.next j < cyclicPlace t.structural memory.next k

theorem isDualFeasible_iff_forall_not_isProfitable :
    t.isDualFeasible = true ↔ ∀ j, ¬ t.IsProfitable j := by
  simp only [isDualFeasible_iff, IsProfitable, not_and, not_lt]

theorem lt_of_largestCost {columns : List (Fin n)} (hsorted : columns.Pairwise (· < ·))
    {p q : Priced ℚ n} (h : largestCost (t.profitable columns) = some p)
    (hq : q ∈ t.profitable columns) : q.2 ≤ p.2 ∧ (q.1 < p.1 → q.2 < p.2) := by
  rcases largestCost_spec (t.profitable columns) with
    ⟨hnone, -⟩ | ⟨before, p', after, hsplit, hp, hbefore, hafter⟩
  · rw [hnone] at h
    cases h
  obtain rfl : p' = p := Option.some.inj (hp.symm.trans h)
  have hpairwise := pairwise_profitable (t := t) id hsorted
  rw [hsplit] at hq hpairwise
  rcases List.mem_append.mp hq with hq | hq
  · exact ⟨(hbefore q hq).le, fun _ => hbefore q hq⟩
  · rcases List.mem_cons.mp hq with rfl | hq
    · exact ⟨le_rfl, fun hlt => absurd hlt (lt_irrefl _)⟩
    · have hpq := List.rel_of_pairwise_cons (List.pairwise_append.mp hpairwise).2.1 hq
      exact ⟨hafter q hq, fun hlt => absurd hlt (lt_asymm hpq)⟩

theorem isPreferred_dantzig (h : (t.select .dantzig memory).1 = some (j, cost)) :
    t.IsPreferred memory j .dantzig := by
  obtain ⟨⟨-, -, hlt⟩, rfl⟩ := isProfitable_of_select h
  intro k hk
  obtain ⟨hstructural, hb⟩ := mem_nonbasicCandidates.mp hk
  rcases le_or_gt (t.relativeCost k) t.tolerance with hle | hgt
  · exact ⟨hle.trans hlt.le, fun _ => hle.trans_lt hlt⟩
  · have hmem : (k, t.relativeCost k) ∈ t.profitable t.candidates :=
      mem_profitable_candidates.mpr ⟨⟨hstructural, hb, hgt⟩, rfl⟩
    exact lt_of_largestCost t.pairwise_candidates h hmem

theorem IsPreferred.unique {rule : EnteringRule} (hj : t.IsPreferred memory j rule)
    (hk : t.IsPreferred memory k rule) (hpj : t.IsProfitable j) (hpk : t.IsProfitable k) :
    j = k := by
  by_contra hne
  cases rule with
  | dantzig =>
    have hjk := hj k (mem_nonbasicCandidates.mpr ⟨hpk.1, hpk.2.1⟩)
    have hkj := hk j (mem_nonbasicCandidates.mpr ⟨hpj.1, hpj.2.1⟩)
    rcases lt_or_gt_of_ne hne with hlt | hlt
    · exact (hkj.2 hlt).not_ge hjk.1
    · exact (hjk.2 hlt).not_ge hkj.1
  | firstProfitable | firstProfitableWithMemory =>
    exact lt_asymm (hj k (Ne.symm hne) hpk) (hk j hne hpj)

theorem isPreferred_of_select (h : memory.IsWithin t.structural) {rule : EnteringRule}
    (hj : (t.select rule memory).1 = some (j, cost)) : t.IsPreferred memory j rule := by
  cases rule with
  | dantzig => exact isPreferred_dantzig hj
  | firstProfitable =>
    exact ((head?_profitable_eq_some_iff id (fun _ => Iff.rfl) t.pairwise_candidates).mp hj).2
  | firstProfitableWithMemory => exact ((select_withMemory_eq_some_iff h).mp hj).2

theorem select_eq_none_iff (rule : EnteringRule) (memory : Memory) :
    (t.select rule memory).1 = none ↔ t.isDualFeasible = true := by
  rw [select_fst]
  refine ⟨isDualFeasible_of_enteringColumn, fun h => ?_⟩
  by_contra hne
  obtain ⟨⟨j, cost⟩, hj⟩ := Option.ne_none_iff_exists'.mp hne
  rw [← select_fst] at hj
  exact isDualFeasible_iff_forall_not_isProfitable.mp h j (isProfitable_of_select hj).1

/-- A rule finds no column exactly in a dual feasible tableau. Otherwise it chooses the profitable
column that it prefers, with its relative cost, and the rule with memory remembers it. -/
theorem select_contract (t : Tableau ℚ m n) (h : memory.IsWithin t.structural)
    (rule : EnteringRule) :
    ((t.select rule memory).1 = none ↔ t.isDualFeasible = true) ∧
    (∀ j cost, (t.select rule memory).1 = some (j, cost) ↔
      t.IsProfitable j ∧ cost = t.relativeCost j ∧ t.IsPreferred memory j rule) ∧
    (t.select rule memory).2.last =
      if rule = .firstProfitableWithMemory then (t.select rule memory).1.map (·.1.val)
      else memory.last := by
  refine ⟨select_eq_none_iff rule memory, fun j cost => ⟨fun hj => ?_, ?_⟩, ?_⟩
  · obtain ⟨hprofitable, hc⟩ := isProfitable_of_select hj
    exact ⟨hprofitable, hc, isPreferred_of_select h hj⟩
  · rintro ⟨hprofitable, rfl, hpreferred⟩
    have hne : (t.select rule memory).1 ≠ none := fun hnone =>
      isDualFeasible_iff_forall_not_isProfitable.mp
        ((select_eq_none_iff rule memory).mp hnone) j hprofitable
    obtain ⟨⟨k, cost⟩, hk⟩ := Option.ne_none_iff_exists'.mp hne
    obtain ⟨hprofitable', hc⟩ := isProfitable_of_select hk
    rw [hk, hc, hpreferred.unique (isPreferred_of_select h hk) hprofitable hprofitable']
  · cases rule <;> rfl

/-- Relative costs 1, 3 and 3, and 9 of an artificial column. -/
def pricedProgram : Program ℚ 1 5 :=
  ⟨#v[-1, -3, -3, 0, -9], ⟨#v[.replicate 5 1]⟩, #v[2]⟩

theorem select_contract_pricedProgram :
    ∃ t, ofBasis pricedProgram #v[3] (1 / 2) 1 = .ok t ∧ t.isDualFeasible = false ∧
      t.select .firstProfitableWithMemory ⟨some 2⟩ = (some (0, 1), ⟨some 0⟩) ∧
      t.IsPreferred ⟨some 2⟩ 0 .firstProfitableWithMemory ∧ t.IsPreferred ⟨some 2⟩ 1 .dantzig := by
  have h : (ofBasis pricedProgram #v[3] (1 / 2) 1).toOption.map (fun t =>
      (t.structural, t.select .firstProfitableWithMemory ⟨some 2⟩,
        (t.select .dantzig ⟨some 2⟩).1)) =
      some (4, (some (0, 1), ⟨some 0⟩), some (1, 3)) := by decide +kernel
  obtain ⟨t, ht, he⟩ := exists_ok_of_toOption_map h
  simp only [Prod.mk.injEq] at he
  obtain ⟨hstructural, hmemory, hdantzig⟩ := he
  have hwithin : (⟨some 2⟩ : Memory).IsWithin t.structural := by
    rw [hstructural]
    rintro last ⟨⟩
    decide
  obtain ⟨hnone, hcyclic, -⟩ := select_contract t hwithin .firstProfitableWithMemory
  obtain ⟨-, hlargest, -⟩ := select_contract t hwithin .dantzig
  refine ⟨t, ht, ?_, hmemory, ((hcyclic 0 1).mp (congrArg Prod.fst hmemory)).2.2,
    ((hlargest 1 3).mp hdantzig).2.2⟩
  rw [← Bool.not_eq_true, ← hnone, hmemory]
  exact Option.some_ne_none _

end Tableau
end RevisedSimplex
