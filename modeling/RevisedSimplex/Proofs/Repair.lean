import RevisedSimplex.Proofs.Bookkeeping
import RevisedSimplex.Proofs.Removal

/-! # Repair of the phase one basis

An artificial variable is exchanged at a structural entry of its row, and without such an entry the
row is redundant. Neither changes a row that was found redundant before. If the basic artificial
variables are zero the repair treats all of them.
-/

namespace RevisedSimplex

open Matrix

variable {m n : ℕ}

namespace Repair

def IsExhausted (s : Repair ℚ m n) : Prop :=
  ∀ r, ∀ k ∈ s.redundant, s.tableau.basis.get r = artificialColumn n k →
    ∀ j : Fin n, s.tableau.entries r (j.castAdd m) = 0

/-- What holds while the artificial variables in `todo` are still to be treated. -/
structure IsPartial (P : Program ℚ m n) (s : Repair ℚ m n) (todo : List (Fin m)) : Prop
    extends s.tableau.IsAuxiliary P where
  tracks : Tracks s todo
  basicValues_eq_zero : ∀ r k, s.tableau.basis.get r = artificialColumn n k →
    s.tableau.basicValues.get r = 0
  entries_eq_zero : ∀ r, ∀ k ∈ s.redundant, s.tableau.basis.get r = artificialColumn n k →
    ∀ j : Fin n, s.tableau.entries r (j.castAdd m) = 0

theorem mem_pivots {t : Tableau ℚ m (n + m)} {r : Fin m} {j : Fin (n + m)} {element : ℚ}
    (h0 : t.tolerance = 0) :
    (j, element) ∈ pivots t r ↔
      (j.val < t.structural ∧ t.isBasic j = false) ∧ t.entries r j = element ∧ element ≠ 0 := by
  simp only [pivots, List.mem_filter, List.mem_map, Tableau.mem_nonbasicCandidates,
    Tableau.element_eq, Prod.mk.injEq, decide_eq_true_eq, magnitude_eq_abs, h0, abs_pos]
  constructor
  · rintro ⟨⟨j, hj, rfl, rfl⟩, hne⟩
    exact ⟨hj, rfl, hne⟩
  · rintro ⟨hj, rfl, hne⟩
    exact ⟨⟨j, hj, rfl, rfl⟩, hne⟩

namespace IsExhausted

variable {s : Repair ℚ m n} (hz : s.IsExhausted) (hs : s.tableau.IsValid) {i r : Fin m}

include hz hs

theorem exchange {t' : Tableau ℚ m (n + m)} {j : Fin n}
    (h : Tableau.IsExchange s.tableau t' r (j.castAdd m)) : IsExhausted ⟨t', s.redundant⟩ := by
  intro l k hk hl q
  obtain ⟨hne, hl⟩ := (basis_get_eq_artificial_iff h.basis_eq).mp hl
  rw [h.entries_other hs hne, hz l k hk hl, hz l k hk hl, zero_div, zero_mul, sub_zero]

theorem redundantRow (h0 : s.tableau.tolerance = 0) (hart : s.tableau.artificial = m)
    (hr : s.tableau.basis.get r = artificialColumn n i) (h : pivots s.tableau r = []) :
    IsExhausted ⟨s.tableau, s.redundant ++ [i]⟩ := by
  have hrow : ∀ j : Fin n, s.tableau.entries r (j.castAdd m) = 0 := by
    intro j
    by_contra hne
    rcases hb : s.tableau.isBasic (j.castAdd m) with _ | _
    · have hj : (j.castAdd m).val < s.tableau.structural := by
        rw [Tableau.structural_of_artificial hart]
        exact j.isLt
      have hm := (mem_pivots (r := r) h0).mpr ⟨⟨hj, hb⟩, rfl, hne⟩
      rw [h] at hm
      cases hm
    · obtain ⟨l, hl⟩ := (s.tableau.isBasic_iff _).mp hb
      rw [← hl, hs.entries_basic] at hne
      obtain rfl : r = l := by
        by_contra hrl
        exact hne (if_neg hrl)
      exact castAdd_ne_artificialColumn j i (hl.symm.trans hr)
  intro l k hk hl j
  rcases List.mem_append.mp hk with hk | hk
  · exact hz l k hk hl j
  · rw [List.mem_singleton] at hk
    obtain rfl : l = r := hs.basis_injective (hl.trans (hk ▸ hr.symm))
    exact hrow j

end IsExhausted

theorem step_of_pivots_cons {s : Repair ℚ m n} {i r : Fin m} {q : Priced ℚ (n + m)}
    {qs : List (Priced ℚ (n + m))} {t' : Tableau ℚ m (n + m)}
    (hr : s.tableau.basis.finIdxOf? (artificialColumn n i) = some r)
    (hv : s.tableau.basicValues.get r ≤ s.tableau.tolerance) (hq : pivots s.tableau r = q :: qs)
    (ht' : s.tableau.pivot r q.1 = .ok t') : (step s i).outcome = .ok ⟨t', s.redundant⟩ := by
  unfold step
  simp only [hr, if_pos hv, hq, List.head?_cons, ht']
  rfl

theorem step_of_pivots_nil {s : Repair ℚ m n} {i r : Fin m}
    (hr : s.tableau.basis.finIdxOf? (artificialColumn n i) = some r)
    (hv : s.tableau.basicValues.get r ≤ s.tableau.tolerance) (hq : pivots s.tableau r = []) :
    (step s i).outcome = .ok ⟨s.tableau, s.redundant ++ [i]⟩ := by
  unfold step
  simp only [hr, if_pos hv, hq, List.head?_nil, List.isEmpty_nil, if_true]
  rfl

theorem IsPartial.isExhausted {P : Program ℚ m n} {s : Repair ℚ m n} {todo : List (Fin m)}
    (hs : IsPartial P s todo) : s.IsExhausted := hs.entries_eq_zero

namespace IsPartial

variable {P : Program ℚ m n} {s : Repair ℚ m n} {i : Fin m} {todo : List (Fin m)} {r : Fin m}
  (hs : IsPartial P s (i :: todo)) (hr : s.tableau.basis.get r = artificialColumn n i)

include hs

include hr

section Exchange

variable {t' : Tableau ℚ m (n + m)} {j : Fin n}
  (h : Tableau.IsExchange s.tableau t' r (j.castAdd m))

include h

theorem basicValues_exchange (l : Fin m) :
    t'.basicValues.get l = if l = r then 0 else s.tableau.basicValues.get l := by
  have hv := hs.basicValues_eq_zero r i hr
  split
  · rename_i hl
    rw [hl, h.basicValues_pivot hs.toIsValid, hv, zero_div]
  · rename_i hl
    rw [h.basicValues_other hs.toIsValid hl, hv, mul_zero, sub_zero]

/-- At zero level an exchange keeps the values, and the rows found redundant stay so. -/
theorem exchange : IsPartial P ⟨t', s.redundant⟩ todo where
  toIsAuxiliary := by
    refine ⟨⟨hs.of_isExchange h, fun l => ?_⟩, h.program_eq.trans hs.program_eq,
      h.artificial_eq.trans hs.artificial_eq⟩
    rw [hs.basicValues_exchange hr h]
    split
    · exact le_rfl
    · exact hs.basicValues_nonneg l
  tracks := hs.tracks.exchange hr h.basis_eq h.valid.basis_injective
    (h.artificial_eq.trans hs.artificial_eq)
  basicValues_eq_zero l k hl := by
    obtain ⟨hne, hl⟩ := (basis_get_eq_artificial_iff h.basis_eq).mp hl
    rw [hs.basicValues_exchange hr h, if_neg hne, hs.basicValues_eq_zero l k hl]
  entries_eq_zero := hs.isExhausted.exchange hs.toIsValid h

end Exchange

/-- A row without a structural entry is redundant. -/
theorem redundantRow (h : pivots s.tableau r = []) :
    IsPartial P ⟨s.tableau, s.redundant ++ [i]⟩ todo :=
  ⟨hs.toIsAuxiliary, hs.tracks.redundantRow, hs.basicValues_eq_zero,
    hs.isExhausted.redundantRow hs.toIsValid hs.tolerance_eq hs.artificial_eq hr h⟩

omit hr

theorem step_exists : ∃ s', (step s i).outcome = .ok s' ∧ IsPartial P s' todo := by
  cases hf : s.tableau.basis.finIdxOf? (artificialColumn n i) with
  | none =>
    obtain ⟨r, hr⟩ := (s.tableau.isBasic_iff _).mp ((hs.tracks.isBasic_iff i).mpr (by simp))
    refine absurd ?_ (Vector.finIdxOf?_eq_none_iff.mp hf)
    rw [← hr]
    exact Vector.getElem_mem ..
  | some r =>
    have hr := (Vector.finIdxOf?_eq_some_iff.mp hf).1
    have hv : s.tableau.basicValues.get r ≤ s.tableau.tolerance := by
      rw [hs.basicValues_eq_zero r i hr, hs.tolerance_eq]
    cases hq : pivots s.tableau r with
    | nil => exact ⟨_, step_of_pivots_nil hf hv hq, hs.redundantRow hr hq⟩
    | cons q qs =>
      obtain ⟨⟨hj, -⟩, he, hne⟩ := (mem_pivots hs.tolerance_eq).mp
        (hq ▸ List.mem_cons_self .. : (q.1, q.2) ∈ pivots s.tableau r)
      rw [← he] at hne
      obtain ⟨t', ht'⟩ := hs.pivot_exists hs.tolerance_eq hne
      obtain ⟨j, hqj⟩ : ∃ j : Fin n, q.1 = j.castAdd m := by
        rw [hs.structural_eq] at hj
        exact ⟨⟨q.1, hj⟩, rfl⟩
      exact ⟨_, step_of_pivots_cons hf hv hq ht',
        hs.exchange hr (hqj ▸ hs.isExchange_of_pivot ht')⟩

end IsPartial

theorem foldlM_step_exists {P : Program ℚ m n} {s : Repair ℚ m n} {todo : List (Fin m)}
    (hs : IsPartial P s todo) :
    ∃ s', (todo.foldlM step s).outcome = .ok s' ∧ IsPartial P s' [] := by
  induction todo generalizing s with
  | nil => exact ⟨s, rfl, hs⟩
  | cons i todo ih =>
    obtain ⟨s', h, hs'⟩ := hs.step_exists
    rw [List.foldlM_cons, Run.outcome_bind, h]
    exact ih hs'

/-- The repair succeeds if all basic artificial variables are zero. -/
theorem ofTableau_exists {P : Program ℚ m n} {t : Tableau ℚ m (n + m)} (ht : t.IsAuxiliary P)
    (hzero : ∀ r k, t.basis.get r = artificialColumn n k → t.basicValues.get r = 0) :
    ∃ s, (ofTableau t).outcome = .ok s ∧ IsPartial P s [] :=
  foldlM_step_exists ⟨ht, tracks_start ht.basis_injective ht.artificial_eq, hzero,
    fun _ _ hk => absurd hk List.not_mem_nil⟩

end Repair
end RevisedSimplex
