import RevisedSimplex.Proofs.Contracts
import RevisedSimplex.Proofs.Insertion
import RevisedSimplex.Proofs.Restart

/-! # Well-formed answers

Whatever the arithmetic, rounding and undefined values included, a solve names only rows and
columns that exist, and what it calls an optimum fits together: each row that is not removed has a
basic column of its own, and what is not basic or removed is exactly zero.
-/

namespace RevisedSimplex

variable {F : Type} [Scalar F]

/-- An optimum of a problem with `m` rows and `n` columns. -/
structure Optimum.IsWellFormed (m n : ℕ) (o : Optimum F) : Prop where
  nodup_basis : o.basis.Nodup
  basis_lt : ∀ j ∈ o.basis, j < n
  sorted_removedRows : o.removedRows.Pairwise (· < ·)
  removedRows_lt : ∀ i ∈ o.removedRows, i < m
  length_add_length : o.basis.length + o.removedRows.length = m
  length_point : o.point.length = n
  point_eq_zero : ∀ j < n, j ∉ o.basis → o.point[j]? = some 0
  /-- The prices are those of the other rows, and no zero is inserted past their end. -/
  exists_prices : ∃ prices : List F, prices.length = o.basis.length ∧
    InsertsWithin o.removedRows prices.length ∧
    o.shadowPrice = insertZeros o.removedRows prices
  length_shadowPrice : o.shadowPrice.length = m
  shadowPrice_eq_zero : ∀ i ∈ o.removedRows, o.shadowPrice[i]? = some 0

def Verdict.IsWellFormed (m n : ℕ) (v : Verdict F) : Prop :=
  ∀ o, v = .optimal o → o.IsWellFormed m n

theorem Tableau.point_getElem?_of_notMem {m n : ℕ} {t : Tableau F m n}
    (hb : Function.Injective t.basis.get) {j : ℕ} (hj : j < n) (hn : j ∉ t.basis.indices) :
    t.point.toList[j]? = some 0 := by
  have hzero : t.point.get ⟨j, hj⟩ = 0 :=
    basicPoint_get_of_nonbasic hb t.basicValues fun i hi => hn (Basis.mem_indices.mpr ⟨i, hi⟩)
  rw [← hzero]
  simp [hj, get_eq_getElem]

namespace Problem

open Tableau

variable (p : Problem F) (options : Options F)

theorem lt_rows_of_mem (redundant : List (Fin p.rows)) :
    ∀ i ∈ redundant.map Fin.val, i < p.rows := by
  intro i hi
  obtain ⟨r, -, rfl⟩ := List.mem_map.mp hi
  exact r.isLt

variable {k : ℕ} {removed : List ℕ}
  (hs : removed.Pairwise (· < ·)) (hlt : ∀ i ∈ removed, i < p.rows)
  (hlen : k + removed.length = p.rows)

include hs hlt hlen

theorem isWellFormed_verdict {t : Tableau F k p.columns} (hb : Function.Injective t.basis.get)
    (status : Status) : (p.verdict status t removed).IsWellFormed p.rows p.columns := by
  rintro o ho
  cases status with
  | unbounded => cases ho
  | infeasible => cases ho
  | optimal =>
    cases ho
    have hprices : (t.shadowPrice.toList.map (p.objective.sign * ·)).length = k := by simp
    have hinserts : InsertsWithin removed
        (t.shadowPrice.toList.map (p.objective.sign * ·)).length :=
      insertsWithin_of_sorted hs fun i hi => by rw [hprices, hlen]; exact hlt i hi
    exact {
      nodup_basis := Basis.nodup_indices_iff.mpr hb
      basis_lt := fun j => Basis.lt_of_mem_indices
      sorted_removedRows := hs
      removedRows_lt := hlt
      length_add_length := by rw [Basis.length_indices, hlen]
      length_point := by simp
      point_eq_zero := fun j hj hn => Tableau.point_getElem?_of_notMem hb hj hn
      exists_prices := ⟨_, by rw [hprices, Basis.length_indices], hinserts, rfl⟩
      length_shadowPrice := by rw [length_insertZeros hinserts, hprices, hlen]
      shadowPrice_eq_zero := fun i hi => insertZeros_getElem?_of_mem hs hinserts hi }

theorem ensures_optimize {t : Tableau F k p.columns} (ht : t.IsProper 0) (before : ℕ) :
    (p.optimize options t removed before).Ensures (Event.IsWithin p.rows p.columns)
      (Failure.IsArithmetical options.iterationLimit)
      fun s => s.verdict.IsWellFormed p.rows p.columns := by
  have hk : k ≤ p.rows := hlen ▸ Nat.le_add_right ..
  exact .bind (Tableau.ensures_primal .two options hk rfl ht) fun stop hstop =>
    .pure (p.isWellFormed_verdict hs hlt hlen hstop.injective stop.status)

omit hs hlt hlen

def phaseTwo (options : Options F) (basis : List ℕ) (redundant : List (Fin p.rows))
    (before : ℕ) : Run F (Solution F) :=
  Run.ofExcept (Tableau.ofIndices (p.standardForm.withoutRows redundant) basis options.tolerance 0)
    >>= fun t => p.optimize options t (redundant.map Fin.val) before

/-- What a solve in two phases makes of the answer of phase one. -/
def proceed (options : Options F) : Feasibility p.rows × ℕ → Run F (Solution F)
  | (.infeasible, before) => pure {
      verdict := .infeasible
      pivots := fun
        | .one => before
        | _ => 0 }
  | (.feasible basis redundant, before) =>
    if redundant = [] then p.phaseTwo options basis redundant before
    else Run.emit (.removedRows (redundant.map Fin.val)) >>= fun _ =>
      p.phaseTwo options basis redundant before

theorem solveTwoPhase_eq :
    p.solveTwoPhase options = p.standardForm.feasibility options >>= p.proceed options := by
  rw [solveTwoPhase]
  congr 1
  funext answer
  obtain ⟨answer, before⟩ := answer
  cases answer with
  | infeasible => rfl
  | feasible basis redundant => cases redundant <;> rfl

theorem ensures_phaseTwo {basis : List ℕ} {redundant : List (Fin p.rows)}
    (h : Feasibility.IsSound p.columns (.feasible basis redundant)) (before : ℕ) :
    (p.phaseTwo options basis redundant before).Ensures (Event.IsWithin p.rows p.columns)
      (Failure.IsArithmetical options.iterationLimit)
      fun s => s.verdict.IsWellFormed p.rows p.columns := by
  cases h with
  | feasible hd hlt hlen hs =>
    have hkept := length_remainingRows (hs.imp fun h => h.ne)
    refine .bind ((ensures_ofIndices (by omega) hlt hd).mono_failure Or.inl) fun t ht => ?_
    exact p.ensures_optimize options (List.pairwise_map.mpr hs) (p.lt_rows_of_mem redundant)
      (by rw [List.length_map, hkept]) ht before

theorem ensures_solveTwoPhase :
    (p.solveTwoPhase options).Ensures (Event.NamesWithin p.rows p.columns)
      (Failure.IsArithmetical options.iterationLimit)
      fun s => s.verdict.IsWellFormed p.rows p.columns := by
  rw [solveTwoPhase_eq]
  refine .bind ((p.standardForm.ensures_feasibility options).mono_event
    Event.IsWithin.namesWithin) ?_
  rintro ⟨answer, before⟩ h
  cases answer with
  | infeasible => exact .pure nofun
  | feasible basis redundant =>
    have hphase := (p.ensures_phaseTwo options h before).mono_event Event.IsWithin.namesWithin
    cases h with
    | feasible _ _ _ hs =>
      rw [proceed]
      split
      · exact hphase
      · exact .emit_bind ⟨List.pairwise_map.mpr hs, p.lt_rows_of_mem redundant⟩ hphase

theorem ensures_solveFrom (basis : List ℕ) :
    (p.solveFrom options basis).Ensures (Event.IsWithin p.rows p.columns) (fun _ => True)
      fun s => s.verdict.IsWellFormed p.rows p.columns := by
  rw [solveFrom]
  refine .bind (.ofExcept (fun _ _ => trivial) fun t ht => And.intro (isProper_of_ofIndices ht)
    (indices_of_ofIndices ht)) fun t ht => ?_
  obtain ⟨hproper, rfl⟩ := ht
  split
  · refine .emit_bind ⟨⟨Basis.length_indices _, fun j => Basis.lt_of_mem_indices⟩, rfl⟩ ?_
    exact (p.ensures_optimize options .nil (List.forall_mem_nil _) (Nat.add_zero _) hproper
      0).mono_failure fun _ => trivial
  · exact .fail trivial

theorem ensures_solveDual (basis : List ℕ) :
    (p.solveDual options basis).Ensures (Event.IsWithin p.rows p.columns) (fun _ => True)
      fun s => s.verdict.IsWellFormed p.rows p.columns := by
  rw [solveDual]
  refine .emit_bind ⟨⟨rfl, rfl⟩, rfl⟩ ?_
  refine .bind (.ofExcept (fun _ _ => trivial) fun t => isProper_of_ofIndices) fun t ht => ?_
  refine .bind (ensures_dual options ht) fun stop hstop => .pure ?_
  exact p.isWellFormed_verdict .nil (List.forall_mem_nil _) (Nat.add_zero _) hstop.injective
    stop.status

theorem ensures_solve (basis : Option (List ℕ)) :
    (p.solve options basis).Ensures (Event.NamesWithin p.rows p.columns)
      (fun e => basis = none → e.IsArithmetical options.iterationLimit)
      fun s => s.verdict.IsWellFormed p.rows p.columns := by
  refine .emit_bind ⟨rfl, rfl⟩ ?_
  cases basis with
  | some basis =>
    exact (p.ensures_solveFrom options basis).imp (fun _ h => h.namesWithin)
      (fun _ _ h => absurd h (Option.some_ne_none basis)) fun _ h => h
  | none =>
    exact (p.ensures_solveTwoPhase options).mono_failure fun h _ => h

/-- A solve names only rows and columns that exist, and its optima are well-formed. Without a given
basis it fails for a numerical reason or at its limit of pivots, and an artificial variable that
is to be exchanged is basic. -/
theorem solve_isSound :
    (∀ basis, ∀ e ∈ (p.solve options basis).events, e.NamesWithin p.rows p.columns) ∧
      (∀ basis, ∀ e ∈ (p.solveDual options basis).events, e.NamesWithin p.rows p.columns) ∧
      (∀ e, (p.solve options none).outcome = .error e →
        e.kind ≠ .dimension ∧ e.kind ≠ .invalidInitialBasis ∧
          ∀ column, e ≠ .numerical (.artificialNotBasic column)) ∧
      (∀ basis s, (p.solve options basis).outcome = .ok s →
        s.verdict.IsWellFormed p.rows p.columns) ∧
      ∀ basis s, (p.solveDual options basis).outcome = .ok s →
        s.verdict.IsWellFormed p.rows p.columns :=
  ⟨fun basis => (p.ensures_solve options basis).event,
    fun basis e he => ((p.ensures_solveDual options basis).event e he).namesWithin,
    fun e he => ((p.ensures_solve options none).failure e he rfl).spec,
    fun basis => (p.ensures_solve options basis).answer,
    fun basis => (p.ensures_solveDual options basis).answer⟩

def withoutPivots : Options ℚ where
  tolerance := 0
  feasibilityTolerance := 0
  iterationLimit := some 0

/-- One of the two rows is removed, and a solve that may not pivot fails. -/
theorem solve_isSound_repeatedRow :
    (∃ s o, (repeatedRow.solve { tolerance := 0, feasibilityTolerance := 0 } none).outcome =
        .ok s ∧ s.verdict = .optimal o ∧ o.removedRows = [0] ∧ o.IsWellFormed 2 2) ∧
      (∃ s o, (covering.solveDual { tolerance := 0, feasibilityTolerance := 0 } [2, 3]).outcome =
        .ok s ∧ s.verdict = .optimal o ∧ o.IsWellFormed 2 4) ∧
      ∃ e, (repeatedRow.solve withoutPivots none).outcome = .error e ∧
        e.kind ≠ .dimension ∧ e.kind ≠ .invalidInitialBasis := by
  have hprimal : (repeatedRow.solve { tolerance := 0, feasibilityTolerance := 0 }
      none).outcome.toOption.map (·.verdict.optimum?.map (·.removedRows)) = some (some [0]) := by
    decide +kernel
  have hdual : (covering.solveDual { tolerance := 0, feasibilityTolerance := 0 }
      [2, 3]).outcome.toOption.map (·.verdict.optimum?.map (·.removedRows)) = some (some []) := by
    decide +kernel
  have hlimit : (repeatedRow.solve withoutPivots none).outcome.toOption.isNone = true := by
    decide +kernel
  refine ⟨?_, ?_, ?_⟩
  · obtain ⟨s, o, hs, ho, hremoved⟩ := exists_optimum_of_toOption_map hprimal
    exact ⟨s, o, hs, ho, hremoved, (repeatedRow.solve_isSound _).2.2.2.1 none s hs o ho⟩
  · obtain ⟨s, o, hs, ho, -⟩ := exists_optimum_of_toOption_map hdual
    exact ⟨s, o, hs, ho, (covering.solve_isSound _).2.2.2.2 [2, 3] s hs o ho⟩
  · cases he : (repeatedRow.solve withoutPivots none).outcome with
    | ok s =>
      rw [he] at hlimit
      cases hlimit
    | error e =>
      obtain ⟨hdimension, hbasis, -⟩ := (repeatedRow.solve_isSound _).2.2.1 e he
      exact ⟨e, rfl, hdimension, hbasis⟩

end Problem
end RevisedSimplex
