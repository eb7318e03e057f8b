import RevisedSimplex.Proofs.Lexicographic

/-! # Descent under the lexicographic rule

From lexicographically positive rows the lexicographic rule leads to such rows again, and the
cost row decreases. So the primal method ends from every tableau with positive rows, which are
those with positive values and those whose basic columns come before all others.
-/

namespace RevisedSimplex

variable {m n : ℕ}

namespace Tableau

variable {t : Tableau ℚ m n}

theorem IsExact.exists_lexPivot (ht : t.IsExact) {i : Fin m} {j : Fin n}
    (hj : j.val < t.structural) (hb : t.isBasic j = false) (hc : 0 < t.relativeCost j)
    (h : t.leavingRow .lexicographic (t.column j) = some i) :
    ∃ t', t.pivot i j = .ok t' ∧ IsLexPivot t t' i j := by
  obtain ⟨hp, hmin⟩ := leavingRow_spec ht.tolerance_eq h
  simp only [column_get] at hp hmin
  obtain ⟨t', ht'⟩ := ht.pivot_exists ht.tolerance_eq hp.ne'
  have hnonbasic := (t.isBasic_eq_false_iff j).mp hb
  have hpivot : IsPrimalPivot t t' i j :=
    ⟨ht.isExchange_of_pivot ht', hj, hnonbasic, hc, hp, hmin⟩
  exact ⟨t', ht', ht.isLexPivot hpivot h⟩

theorem IsExact.isLexPositive_of_perm_range (ht : t.IsExact)
    (hv : ∀ i, 0 ≤ t.basicValues.get i) (hb : t.basis.indices.Perm (List.range m)) :
    t.IsLexPositive := by
  refine ht.isLexPositive_of_first hv fun i c hc => ?_
  have hi : (t.basis.get i).val < m := by
    rw [← List.mem_range, ← hb.mem_iff]
    exact Basis.mem_indices.mpr ⟨i, rfl⟩
  have hcm : c.val < m := lt_trans hc hi
  rw [mem_basicColumns, ← Basis.mem_indices, hb.mem_iff, List.mem_range]
  exact hcm

/-- A lexicographic pivot from positive rows succeeds, keeps the rows positive and decreases the
cost row. So from such rows the cost row decreases along the pivots of the method, no set of basic
columns comes back, and the method ends. -/
theorem lexicographic_descends (ht : t.IsExact) :
    (t.IsLexPositive →
      (∀ i j, j.val < t.structural → t.isBasic j = false → 0 < t.relativeCost j →
        t.leavingRow .lexicographic (t.column j) = some i →
          ∃ t', t.pivot i j = .ok t' ∧ t'.IsLexPositive ∧
            toLex t'.costRow < toLex t.costRow) ∧
      ∀ phase options, options.leaving = .lexicographic →
        ∃ (p : ℕ → Position ℚ m n) (k : ℕ), p 0 = ⟨none, t⟩ ∧ IsPath (primalMove options) p k ∧
          (t.primal phase options).snapshots =
            (List.range (k + 1)).map (fun l => (p l).tableau.snapshot phase l) ∧
          (∀ l ≤ k, (p l).tableau.IsLexPositive) ∧
          (∀ a b, a < b → b ≤ k → toLex (p b).tableau.costRow < toLex (p a).tableau.costRow) ∧
          ((t.primal phase options).snapshots.map (·.basis.toFinset)).Nodup ∧
          (t.primal phase options).snapshots.length ≤ t.program.bases.card ∧
          (options.iterationLimit = none → ∃ stop, (t.primal phase options).outcome = .ok stop ∧
            stop.tableau = (p k).tableau ∧
            (stop.status = .optimal ∨ stop.status = .unbounded))) ∧
    ((∀ i, 0 < t.basicValues.get i) → t.IsLexPositive) ∧
    ((∀ i, 0 ≤ t.basicValues.get i) → t.basis.indices.Perm (List.range m) →
      t.IsLexPositive) := by
  refine ⟨fun hpos => ⟨?_, ?_⟩, isLexPositive_of_pos, ht.isLexPositive_of_perm_range⟩
  · intro i j hj hb hc hrow
    obtain ⟨t', ht', hpivot⟩ := ht.exists_lexPivot hj hb hc hrow
    exact ⟨t', ht', hpivot.isLexPositive ht.toIsValid hpos,
      (hpivot.costRow_lt_iff ht.toIsValid).mpr (hpos i)⟩
  · intro phase options ho
    have hinj := fun (p : ℕ → Position ℚ m n) (k : ℕ) (hp : IsPath (primalMove options) p k)
      (h0 : (p 0).tableau = t) => ht.basicColumns_injOn_of_isLexPositive ho hp h0 hpos
    obtain ⟨p, k, hp, hpath, hsnapshots, hnodup, hstops⟩ :=
      IsBasicFeasible.primal_of_injOn ⟨ht, hpos.basicValues_nonneg⟩ hinj phase
    have h0 : (p 0).tableau = t := by rw [hp]
    have hfirst : (p 0).tableau.IsLexPositive := h0 ▸ hpos
    have hlength : (t.primal phase options).snapshots.length ≤ t.program.bases.card := by
      rw [hsnapshots, List.length_map, List.length_range]
      exact ht.lt_card_bases hpath h0 (hinj p k hpath h0)
    refine ⟨p, k, hp, hpath, hsnapshots, fun l hl => ?_, fun a b hab hb => ?_, hnodup, hlength,
      hstops⟩
    · exact ht.isLexPositive_mono ho hpath h0 l.zero_le hl hfirst
    · exact ht.costRow_lt ho hpath h0 hab hb
        (ht.isLexPositive_mono ho hpath h0 a.zero_le (hab.le.trans hb) hfirst)

theorem lexicographic_descends_beale :
    ∃ t t', ofBasis bealeProgram #v[0, 1, 2] 0 0 = .ok t ∧ t.pivot 1 3 = .ok t' ∧
      t'.IsLexPositive ∧ toLex t'.costRow < toLex t.costRow ∧
      ∃ stop, (t.primal .two ⟨0, 0, .dantzig, .lexicographic, none⟩).outcome = .ok stop := by
  have h : (ofBasis bealeProgram #v[0, 1, 2] 0 0).toOption.map (fun t =>
      (t.isPrimalFeasible, t.isBasic 3, decide (0 < t.relativeCost 3),
        t.leavingRow .lexicographic (t.column 3))) = some (true, false, true, some 1) := by
    decide +kernel
  obtain ⟨t, ht, he⟩ := exists_ok_of_toOption_map h
  simp only [Prod.mk.injEq, decide_eq_true_eq] at he
  obtain ⟨hf, hbasic, hcost, hrow⟩ := he
  obtain ⟨hv, -, hb, htol, hart⟩ := isValid_of_ofBasis le_rfl ht
  have hexact : t.IsExact := ⟨hv, htol⟩
  obtain ⟨hdescends, -, hfirst⟩ := lexicographic_descends hexact
  have hpos := hfirst (hexact.isPrimalFeasible_iff.mp hf) (by
    rw [hb]
    decide)
  obtain ⟨hpivot, hprimal⟩ := hdescends hpos
  obtain ⟨t', ht', hpos', hlt⟩ := hpivot 1 3 (lt_structural hart 3) hbasic hcost hrow
  obtain ⟨p, k, -, -, -, -, -, -, -, hstops⟩ :=
    hprimal .two ⟨0, 0, .dantzig, .lexicographic, none⟩ rfl
  obtain ⟨stop, hstop, -⟩ := hstops rfl
  exact ⟨t, t', ht, ht', hpos', hlt, stop, hstop⟩

end Tableau
end RevisedSimplex
