import RevisedSimplex.Proofs.EnteringColumn
import RevisedSimplex.Proofs.Replacement

/-! # Fairness of the rule with memory

Each call of the rule with memory chooses a column or brings it closer to the front of the cyclic
order, as long as the column is profitable. So a column that stays profitable is chosen after at
most as many calls as there are candidates. No law of arithmetic is used.
-/

namespace RevisedSimplex

variable {F : Type} [Scalar F] {N start j c : ℕ}

theorem cyclicPlace_lt (h : 0 < N) (start j : ℕ) : cyclicPlace N start j < N := Nat.mod_lt _ h

theorem cyclicPlace_eq (hj : j < N) (hstart : start ≤ N) :
    cyclicPlace N start j = if start ≤ j then j - start else j + (N - start) := by
  split
  · rename_i h
    exact cyclicPlace_of_le h hj
  · rename_i h
    exact cyclicPlace_of_lt (not_le.mp h) hstart

theorem cyclicPlace_succ_lt (hj : j < N) (hc : c < N) (hstart : start ≤ N)
    (h : cyclicPlace N start j < cyclicPlace N start c) :
    cyclicPlace N (j + 1) c < cyclicPlace N start c := by
  rw [cyclicPlace_eq hj hstart, cyclicPlace_eq hc hstart] at h
  rw [cyclicPlace_eq hc hj, cyclicPlace_eq hc hstart]
  split_ifs at h ⊢ <;> omega

theorem Memory.IsWithin.next_le {memory : Memory} (h : memory.IsWithin N) : memory.next ≤ N := by
  obtain ⟨last⟩ := memory
  cases last with
  | none => exact Nat.zero_le N
  | some last => exact h last rfl

namespace Tableau

section Call

variable {m n : ℕ} {t : Tableau F m n} {memory : Memory}

theorem isWithin_select (h : memory.IsWithin t.structural) (rule : EnteringRule) :
    (t.select rule memory).2.IsWithin t.structural := by
  cases rule with
  | firstProfitableWithMemory =>
    intro last hlast
    obtain ⟨⟨j, cost⟩, hj, rfl⟩ := Option.map_eq_some_iff.mp hlast
    have hselect : (t.select .firstProfitableWithMemory memory).1 = some (j, cost) := hj
    exact (isProfitable_of_select hselect).1.1
  | _ => exact h

theorem exists_select_of_isProfitable {c : Fin n} (hc : t.IsProfitable c) (memory : Memory) :
    ∃ p, (t.select .firstProfitableWithMemory memory).1 = some p := by
  refine Option.ne_none_iff_exists'.mp fun hnone => ?_
  rw [select_fst, enteringColumn_withMemory, List.head?_eq_none_iff] at hnone
  obtain ⟨hcandidate, hprofitable⟩ :=
    mem_profitable.mp (mem_profitable_candidates.mpr ⟨hc, rfl⟩ : (c, t.relativeCost c) ∈ _)
  exact List.ne_nil_of_mem (mem_profitable.mpr ⟨mem_searchOrder.mpr hcandidate, hprofitable⟩) hnone

/-- A call chooses a profitable column or brings it closer to the front. -/
theorem select_or_cyclicPlace_lt (h : memory.IsWithin t.structural) {c : Fin n}
    (hc : t.IsProfitable c) :
    (t.select .firstProfitableWithMemory memory).2.last = some c.val ∨
      cyclicPlace t.structural (t.select .firstProfitableWithMemory memory).2.next c <
        cyclicPlace t.structural memory.next c := by
  obtain ⟨⟨j, cost⟩, hj⟩ := exists_select_of_isProfitable hc memory
  have hlast : (t.select .firstProfitableWithMemory memory).2.last = some j.val :=
    congrArg (Option.map fun p : Priced F n => p.1.val) hj
  obtain ⟨⟨hprofitable, -⟩, hfirst⟩ := (select_withMemory_eq_some_iff h).mp hj
  by_cases hcj : c = j
  · exact Or.inl (hcj ▸ hlast)
  · right
    rw [Memory.next, hlast]
    exact cyclicPlace_succ_lt hprofitable.1 hc.1 h.next_le (hfirst c hcj hc)

end Call

section Sequence

variable {m n : ℕ → ℕ} (t : ∀ k, Tableau F (m k) (n k)) (memory : Memory)

/-- What the rule with memory remembers before each of its calls on a sequence of tableaux. -/
def memoryBefore : ℕ → Memory
  | 0 => memory
  | k + 1 => ((t k).select .firstProfitableWithMemory (memoryBefore k)).2

def chosen (k : ℕ) : Option ℕ :=
  ((t k).select .firstProfitableWithMemory (memoryBefore t memory k)).1.map (·.1.val)

variable {t memory} {K : ℕ}

theorem isWithin_memoryBefore (h : memory.IsWithin N) {k : ℕ}
    (ht : ∀ l < k, (t l).structural = N) : (memoryBefore t memory k).IsWithin N := by
  induction k with
  | zero => exact h
  | succ k ih =>
    have hk : (t k).structural = N := ht k (Nat.lt_succ_self k)
    have hbefore := ih fun l hl => ht l (Nat.lt_succ_of_lt hl)
    exact hk ▸ isWithin_select (hk.symm ▸ hbefore) _

/-- Every call that does not choose a profitable column brings it at least one place closer to the
front. -/
theorem chosen_or_cyclicPlace_add_le (h : memory.IsWithin N)
    (ht : ∀ l < start + K, (t l).structural = N)
    (hc : ∀ l < K, ∃ j : Fin (n (start + l)), j.val = c ∧ (t (start + l)).IsProfitable j) :
    (∃ l < K, chosen t memory (start + l) = some c) ∨
      cyclicPlace N (memoryBefore t memory (start + K)).next c + K ≤
        cyclicPlace N (memoryBefore t memory start).next c := by
  induction K with
  | zero => exact Or.inr le_rfl
  | succ K ih =>
    have hlt : start + K < start + (K + 1) := Nat.lt_succ_self _
    rcases ih (fun l hl => ht l (hl.trans hlt)) (fun l hl => hc l (Nat.lt_succ_of_lt hl)) with
      ⟨l, hl, hchosen⟩ | hle
    · exact Or.inl ⟨l, Nat.lt_succ_of_lt hl, hchosen⟩
    · have hN : (t (start + K)).structural = N := ht _ hlt
      have hwithin := isWithin_memoryBefore h fun l hl => ht l (hl.trans hlt)
      obtain ⟨j, rfl, hj⟩ := hc K (Nat.lt_succ_self K)
      rcases select_or_cyclicPlace_lt (hN.symm ▸ hwithin) hj with hchosen | hcloser
      · exact Or.inl ⟨K, Nat.lt_succ_self K, hchosen⟩
      · right
        rw [hN] at hcloser
        change cyclicPlace N (memoryBefore t memory (start + K + 1)).next j.val < _ at hcloser
        rw [← Nat.add_assoc start K 1]
        omega

/-- A column that is profitable in as many consecutive calls as there are candidates is chosen in
one of them. -/
theorem exists_chosen_of_isProfitable (hN : 0 < N) (h : memory.IsWithin N)
    (ht : ∀ l < start + N, (t l).structural = N)
    (hc : ∀ l < N, ∃ j : Fin (n (start + l)), j.val = c ∧ (t (start + l)).IsProfitable j) :
    ∃ l < N, chosen t memory (start + l) = some c := by
  rcases chosen_or_cyclicPlace_add_le h ht hc with hchosen | hle
  · exact hchosen
  · have := cyclicPlace_lt hN (memoryBefore t memory start).next c
    omega

end Sequence

theorem exists_chosen_pricedProgram :
    ∃ t t', ofBasis pricedProgram #v[3] (1 / 2) 1 = .ok t ∧
      ofBasis pricedProgram #v[0] (1 / 2) 1 = .ok t' ∧
      ∃ l < 4, chosen (fun k => if k % 2 = 0 then t else t') ⟨some 2⟩ (0 + l) = some 2 := by
  have h (basis : Basis 1 5) (hbasis : basis = #v[3] ∨ basis = #v[0]) :
      ∃ t, ofBasis pricedProgram basis (1 / 2) 1 = .ok t ∧ t.structural = 4 ∧
        t.IsProfitable 2 := by
    have he : (ofBasis pricedProgram basis (1 / 2) 1).toOption.map (fun t =>
        (t.structural, t.isBasic 2, decide (t.tolerance < t.relativeCost 2))) =
          some (4, false, true) := by
      rcases hbasis with rfl | rfl <;> decide +kernel
    obtain ⟨t, ht, he⟩ := exists_ok_of_toOption_map he
    simp only [Prod.mk.injEq, decide_eq_true_eq] at he
    exact ⟨t, ht, he.1, by rw [he.1]; decide, he.2⟩
  obtain ⟨t, ht, hN, hc⟩ := h #v[3] (Or.inl rfl)
  obtain ⟨t', ht', hN', hc'⟩ := h #v[0] (Or.inr rfl)
  refine ⟨t, t', ht, ht', exists_chosen_of_isProfitable (by decide) ?_ (fun l _ => ?_)
    fun l _ => ⟨2, rfl, ?_⟩⟩
  · rintro last ⟨⟩
    decide
  all_goals split <;> assumption

/-! ### Pivots by the rule with memory -/

section Path

variable {m n : ℕ} {options : Options F} {p : ℕ → Position F m n} {k : ℕ}
  (hp : IsPath (primalMove options) p k)

include hp

theorem IsPath.structural_eq {l : ℕ} (hl : l ≤ k) :
    (p l).tableau.structural = (p 0).tableau.structural := by
  refine hp.invariant (P := fun s => s.tableau.structural = (p 0).tableau.structural) ?_ rfl l hl
  intro s s' hs hstep
  obtain ⟨i, j, h⟩ := hstep.isReplacement (entersNonbasic_primalMove options)
  rw [structural, h.artificial_eq]
  exact hs

variable (hrule : options.entering = .firstProfitableWithMemory)

include hrule

theorem IsPath.memoryBefore_eq {l : ℕ} (hl : l ≤ k) :
    memoryBefore (fun l => (p l).tableau) ⟨(p 0).last.map Fin.val⟩ l =
      ⟨(p l).last.map Fin.val⟩ := by
  induction l with
  | zero => rfl
  | succ l ih =>
    obtain ⟨i, j, cost, hmove, hlast, -⟩ := (hp l hl).spec
    have henter := (primalMove_eq_pivot hmove).1
    rw [hrule] at henter
    have hcolumn : (⟨(p l).last.map Fin.val⟩ : Memory).column? n = (p l).last := by
      cases (p l).last <;> simp [Memory.column?]
    rw [memoryBefore, ih (Nat.le_of_succ_le hl), select, hcolumn]
    simp only [henter, hlast, Option.map_some]

/-- A column that is profitable before as many consecutive pivots as there are candidates enters
in one of them. -/
theorem IsPath.exists_last_eq_some {start N : ℕ} {c : Fin n} (hk : start + N ≤ k)
    (hlast : ∀ j ∈ (p 0).last, j.val < N) (hN : (p 0).tableau.structural = N)
    (hc : ∀ l < N, (p (start + l)).tableau.IsProfitable c) (hpos : 0 < N) :
    ∃ l < N, (p (start + l + 1)).last = some c := by
  have hwithin : (⟨(p 0).last.map Fin.val⟩ : Memory).IsWithin N := by
    intro last h
    obtain ⟨j, hj, rfl⟩ := Option.map_eq_some_iff.mp h
    exact hlast j hj
  rcases chosen_or_cyclicPlace_add_le (t := fun l => (p l).tableau) hwithin
      (fun l hl => (hp.structural_eq (hl.le.trans hk)).trans hN)
      (fun l hl => ⟨c, rfl, hc l hl⟩) with ⟨l, hl, hchosen⟩ | hle
  · have hnext := hp.memoryBefore_eq hrule (l := start + l + 1) (by omega)
    have hremembered : (p (start + l + 1)).last.map Fin.val = some c.val :=
      (congrArg Memory.last hnext).symm.trans hchosen
    obtain ⟨j, hj, hval⟩ := Option.map_eq_some_iff.mp hremembered
    exact ⟨l, hl, hj.trans (congrArg some (Fin.ext hval))⟩
  · have := cyclicPlace_lt hpos
      (memoryBefore (fun l => (p l).tableau) ⟨(p 0).last.map Fin.val⟩ start).next c
    omega

end Path

end Tableau
end RevisedSimplex
