import RevisedSimplex.Proofs.Mirror
import RevisedSimplex.Proofs.Signs
import RevisedSimplex.Proofs.WellFormed

/-! # Symmetry in the signs of the rows

A row and its right-hand side may both change their sign. The solver takes the same steps, and its
answer only changes the signs of the shadow prices of these rows.
-/

namespace RevisedSimplex

open Matrix

variable {m n k : ℕ}

namespace Signs

def onProgram (σ : Signs m) (P : Program ℚ m n) : Program ℚ m n where
  cost := P.cost
  constraints := σ.onRows P.constraints
  rhs := σ.onVector P.rhs

def onEvaluation (σ : Signs m) (e : Evaluation ℚ m) : Evaluation ℚ m where
  inverse := σ.onColumns e.inverse
  basicValues := e.basicValues
  shadowPrice := σ.onVector e.shadowPrice

def onTableau (σ : Signs m) (t : Tableau ℚ m n) : Tableau ℚ m n :=
  { t with program := σ.onProgram t.program, evaluation := σ.onEvaluation t.evaluation }

variable (σ : Signs m)

/-! ### Tableaux -/

theorem evaluate?_onProgram (P : Program ℚ m n) (basis : Basis m n) (tolerance : ℚ) :
    (σ.onProgram P).evaluate? basis tolerance =
      (P.evaluate? basis tolerance).map σ.onEvaluation := by
  rw [Program.evaluate?, Program.evaluate?, onProgram, selectColumns_onRows,
    RowMatrix.inverse?_onRows, Option.map_map, Option.map_map]
  congr 1
  funext inverse
  simp only [Function.comp_apply, onEvaluation, mulVec_onColumns, vecMul_onColumns,
    Program.basicCosts]

theorem ofBasis_onProgram (P : Program ℚ m n) (basis : Basis m n) (tolerance : ℚ)
    (artificial : ℕ) :
    Tableau.ofBasis (σ.onProgram P) basis tolerance artificial =
      (Tableau.ofBasis P basis tolerance artificial).map σ.onTableau := by
  rw [Tableau.ofBasis, Tableau.ofBasis, evaluate?_onProgram]
  cases P.evaluate? basis tolerance <;> rfl

theorem ofIndices_onProgram (P : Program ℚ m n) (indices : List ℕ) (tolerance : ℚ)
    (artificial : ℕ) :
    Tableau.ofIndices (σ.onProgram P) indices tolerance artificial =
      (Tableau.ofIndices P indices tolerance artificial).map σ.onTableau := by
  rw [Tableau.ofIndices, Tableau.ofIndices]
  cases Basis.ofIndices indices with
  | error fault => rfl
  | ok basis => exact σ.ofBasis_onProgram P basis tolerance artificial

theorem entries_onTableau (t : Tableau ℚ m n) : (σ.onTableau t).entries = t.entries :=
  σ.onColumns_mul_onRows ..

theorem relativeCost_onTableau (t : Tableau ℚ m n) :
    (σ.onTableau t).relativeCost = t.relativeCost := by
  funext j
  change dot (σ.onVector _).toList ((σ.onRows _).column j).toList - _ = _
  rw [column_onRows, dot_onVector]
  rfl

theorem looksLike_onTableau (t : Tableau ℚ m n) : t.LooksLike (σ.onTableau t) where
  basis_eq := rfl
  tolerance_eq := rfl
  artificial_eq := rfl
  basicValues_eq := rfl
  relativeCost_eq := σ.relativeCost_onTableau t
  column_eq := by
    funext j
    apply get_injective
    ext i
    rw [Tableau.column_get, Tableau.column_get, entries_onTableau]
  rowEntry_eq := by
    funext i j
    rw [Tableau.rowEntry_eq, Tableau.rowEntry_eq, entries_onTableau]

theorem isDisguise_onTableau : Tableau.IsDisguise (σ.onTableau (n := n)) where
  looksLike := σ.looksLike_onTableau
  pivot_eq t _ _ := σ.ofBasis_onProgram t.program _ t.tolerance t.artificial

/-! ### Phase one -/

theorem rowSign_onProgram {P : Program ℚ m n} {i : Fin m}
    (h : σ.factor i = 1 ∨ P.rhs.get i ≠ 0) :
    (σ.onProgram P).rowSign i = P.rowSign i * σ.factor i := by
  have hrhs : (σ.onProgram P).rhs.get i = σ.factor i * P.rhs.get i := σ.onVector_get _ i
  rw [Program.rowSign, Program.rowSign, hrhs]
  rcases σ.factor_eq_or i with hi | hi
  · rw [hi, one_mul, mul_one]
  · have hne : P.rhs.get i ≠ 0 := h.resolve_left (by rw [hi]; norm_num)
    rw [hi, neg_one_mul]
    rcases lt_or_gt_of_ne hne with hneg | hpos
    · rw [if_neg (neg_pos.mpr hneg).not_gt, if_pos hneg]
      norm_num
    · rw [if_pos (neg_lt_zero.mpr hpos), if_neg hpos.not_gt]
      norm_num

variable {P : Program ℚ m n} (h : ∀ i, σ.factor i = 1 ∨ P.rhs.get i ≠ 0)

include h

theorem signed_onProgram : (σ.onProgram P).signed = P.signed := by
  have hconstraints : (σ.onProgram P).signed.constraints = P.signed.constraints := by
    apply RowMatrix.ext_get
    intro i j
    rw [Program.signed_get, Program.signed_get, σ.rowSign_onProgram (h i)]
    exact (congrArg _ (σ.onRows_get ..)).trans (σ.mul_factor_mul ..)
  have hrhs : (σ.onProgram P).signed.rhs = P.signed.rhs := by
    apply get_injective
    ext i
    rw [Program.signed_rhs_get, Program.signed_rhs_get, σ.rowSign_onProgram (h i)]
    exact (congrArg _ (σ.onVector_get ..)).trans (σ.mul_factor_mul ..)
  exact congrArg₂ (Program.mk P.cost) hconstraints hrhs

theorem feasibility_onProgram (options : Options ℚ) :
    (σ.onProgram P).feasibility options = P.feasibility options := by
  rw [Program.feasibility_eq, Program.feasibility_eq, Program.auxiliary, signed_onProgram σ h,
    Program.auxiliary]

omit h

theorem withoutRows_onProgram (P : Program ℚ m n) (removed : List (Fin m)) :
    (σ.onProgram P).withoutRows removed =
      (σ.comap (remainingRows removed).get).onProgram (P.withoutRows removed) := by
  refine congrArg₂ (Program.mk P.cost) (RowMatrix.ext_get fun i j => ?_) (get_injective ?_)
  · simp only [onProgram, Program.withoutRows, RowMatrix.get_selectRows, onRows_get, comap]
  · ext i
    simp only [onProgram, Program.withoutRows, Vector.get_ofFn, onVector_get, comap]

end Signs

/-! ### Problems -/

/-- The program with the rows in `S` and their right-hand sides negated. -/
def Program.negateRows (P : Program ℚ m n) (S : Finset (Fin m)) : Program ℚ m n where
  cost := P.cost
  constraints := ⟨.ofFn fun i =>
    if i ∈ S then (P.constraints.row i).map (-·) else P.constraints.row i⟩
  rhs := .ofFn fun i => if i ∈ S then -P.rhs.get i else P.rhs.get i

theorem Program.negateRows_eq (P : Program ℚ m n) (S : Finset (Fin m)) :
    P.negateRows S = (Signs.negative S).onProgram P := by
  refine congrArg₂ (Program.mk P.cost) (RowMatrix.ext_get fun i j => ?_) (get_injective ?_)
  · rw [Signs.onRows_get, Signs.negative_mul, RowMatrix.get, Vector.get_ofFn]
    split
    · exact Vector.get_map ..
    · rfl
  · ext i
    rw [Signs.onVector_get, Signs.negative_mul, Vector.get_ofFn]

def negateAt (S : Finset (Fin m)) (values : List ℚ) : List ℚ :=
  values.mapIdx fun i v => if ∃ r ∈ S, r.val = i then -v else v

theorem negateAt_ofFn (S : Finset (Fin m)) (y : Fin m → ℚ) :
    negateAt S (List.ofFn y) = List.ofFn fun i => (Signs.negative S).factor i * y i := by
  apply List.ext_getElem
  · simp [negateAt]
  · intro i hi hi'
    rw [List.length_ofFn] at hi'
    have hmem : (∃ r ∈ S, r.val = i) ↔ ⟨i, hi'⟩ ∈ S :=
      ⟨fun ⟨r, hr, he⟩ => he ▸ hr, fun h => ⟨_, h, rfl⟩⟩
    simp only [negateAt, List.getElem_mapIdx, List.getElem_ofFn, Signs.negative_mul, hmem]

def Optimum.negatePrices (S : Finset (Fin m)) (o : Optimum ℚ) : Optimum ℚ :=
  { o with shadowPrice := negateAt S o.shadowPrice }

def Verdict.negatePrices (S : Finset (Fin m)) : Verdict ℚ → Verdict ℚ
  | .optimal o => .optimal (o.negatePrices S)
  | .unbounded => .unbounded
  | .infeasible => .infeasible

def Solution.negatePrices (S : Finset (Fin m)) (s : Solution ℚ) : Solution ℚ :=
  { s with verdict := s.verdict.negatePrices S }

/-- The signs of the rows that are left, when the removed ones are put back, are those of `S`. -/
def Signs.Restores (σ : Signs k) (removed : List ℕ) (S : Finset (Fin m)) : Prop :=
  ∀ v : Vector ℚ k,
    insertZeros removed (σ.onVector v).toList = negateAt S (insertZeros removed v.toList)

theorem Signs.restores_nil (S : Finset (Fin m)) : (negative S).Restores [] S := by
  intro v
  change (onVector _ v).toList = negateAt S v.toList
  rw [toList_eq_ofFn, toList_eq_ofFn, negateAt_ofFn]
  exact congrArg List.ofFn (funext fun i => onVector_get _ v i)

theorem Signs.restores_remainingRows (S : Finset (Fin m)) {removed : List (Fin m)}
    (hs : removed.Pairwise (· < ·)) :
    ((negative S).comap (remainingRows removed).get).Restores (removed.map Fin.val) S := by
  intro v
  rw [insertZeros_eq hs, insertZeros_eq hs, negateAt_ofFn]
  refine congrArg List.ofFn (funext fun i => ?_)
  by_cases hi : i ∈ removed
  · rw [completed_of_mem hi, completed_of_mem hi, mul_zero]
  · obtain ⟨l, rfl⟩ := List.mem_iff_get.mp (mem_remainingRows.mpr hi)
    rw [completed_get, completed_get, onVector_get]
    rfl

namespace Problem

variable (p : Problem ℚ) (options : Options ℚ) (S : Finset (Fin p.rows))

/-- The problem with the rows in `S` and their right-hand sides negated. -/
def negateRows : Problem ℚ :=
  { p with program := p.program.negateRows S, isFinite := Program.isFinite_eq_true _ }

theorem standardForm_negateRows :
    (p.negateRows S).standardForm = (Signs.negative S).onProgram p.standardForm := by
  obtain ⟨objective, program, -, -, -⟩ := p
  cases objective with
  | minimize => exact program.negateRows_eq S
  | maximize =>
    exact congrArg (fun P : Program ℚ _ _ => { P with cost := P.cost.map (-·) })
      (program.negateRows_eq S)

variable {σ : Signs k} {removed : List ℕ} {S} (hσ : σ.Restores removed S)

include hσ

theorem verdict_negateRows (status : Status) (t : Tableau ℚ k p.columns) :
    (p.negateRows S).verdict status (σ.onTableau t) removed =
      (p.verdict status t removed).negatePrices S := by
  have hlooks := σ.looksLike_onTableau t
  have hprices : insertZeros removed
      ((σ.onTableau t).shadowPrice.toList.map (p.objective.sign * ·)) =
      negateAt S (insertZeros removed (t.shadowPrice.toList.map (p.objective.sign * ·))) := by
    rw [← Vector.toList_map, ← Vector.toList_map, ← hσ]
    congr 2
    apply get_injective
    ext i
    rw [Vector.get_map, σ.onVector_get, Vector.get_map, mul_left_comm]
    exact congrArg _ (σ.onVector_get ..)
  cases status with
  | unbounded => rfl
  | infeasible => rfl
  | optimal =>
    change Verdict.optimal ⟨p.objective.sign * (σ.onTableau t).objective,
      (σ.onTableau t).point.toList, _, insertZeros removed
        ((σ.onTableau t).shadowPrice.toList.map (p.objective.sign * ·)), removed⟩ = _
    rw [hprices, hlooks.objective_eq rfl, hlooks.point_eq]
    rfl

theorem optimize_negateRows (t : Tableau ℚ k p.columns) (before : ℕ) :
    Run.Mirrors (Solution.negatePrices S) (p.optimize options t removed before)
      ((p.negateRows S).optimize options (σ.onTableau t) removed before) := by
  refine .bind (Tableau.primal_mirrors σ.isDisguise_onTableau t .two options) fun stop _ => ?_
  exact congrArg (fun v => Except.ok (Solution.mk v _))
    (p.verdict_negateRows hσ stop.status stop.tableau)

omit hσ

theorem solveFrom_negateRows (basis : List ℕ) :
    Run.Mirrors (Solution.negatePrices S) (p.solveFrom options basis)
      ((p.negateRows S).solveFrom options basis) := by
  have hstart := (Signs.negative S).ofIndices_onProgram p.standardForm basis options.tolerance 0
  rw [← standardForm_negateRows] at hstart
  refine .bind (.ofExcept hstart) fun t _ => ?_
  have hfeasible := ((Signs.negative S).looksLike_onTableau t).isPrimalFeasible_eq
  refine .ite (by rw [← hfeasible]; rfl) (.emit_bind ?_) (.fail _ _)
  exact p.optimize_negateRows options (Signs.restores_nil S) t 0

theorem solveDual_negateRows (basis : List ℕ) :
    Run.Mirrors (Solution.negatePrices S) (p.solveDual options basis)
      ((p.negateRows S).solveDual options basis) := by
  have hstart := (Signs.negative S).ofIndices_onProgram p.standardForm basis options.tolerance 0
  rw [← standardForm_negateRows] at hstart
  refine .emit_bind (.bind (.ofExcept hstart) fun t _ => ?_)
  refine .bind (Tableau.dual_mirrors (Signs.negative S).isDisguise_onTableau t options)
    fun stop _ => ?_
  exact congrArg (fun v => Except.ok (Solution.mk v _))
    (p.verdict_negateRows (Signs.restores_nil S) stop.status stop.tableau)

theorem phaseTwo_negateRows {redundant : List (Fin p.rows)}
    (hs : redundant.Pairwise (· < ·)) (basis : List ℕ) (before : ℕ) :
    Run.Mirrors (Solution.negatePrices S) (p.phaseTwo options basis redundant before)
      ((p.negateRows S).phaseTwo options basis redundant before) := by
  have hstart := ((Signs.negative S).comap (remainingRows redundant).get).ofIndices_onProgram
    (p.standardForm.withoutRows redundant) basis options.tolerance 0
  rw [← Signs.withoutRows_onProgram, ← standardForm_negateRows] at hstart
  refine .bind (.ofExcept hstart) fun t _ => ?_
  exact p.optimize_negateRows options (Signs.restores_remainingRows S hs) t before

theorem solveTwoPhase_negateRows (hS : ∀ i ∈ S, p.program.rhs.get i ≠ 0) :
    Run.Mirrors (Solution.negatePrices S) (p.solveTwoPhase options)
      ((p.negateRows S).solveTwoPhase options) := by
  have hrhs : ∀ i, (Signs.negative S).factor i = 1 ∨ p.standardForm.rhs.get i ≠ 0 := by
    intro i
    rw [p.standardForm_rhs]
    by_cases hi : i ∈ S
    · exact Or.inr (hS i hi)
    · exact Or.inl (if_neg hi)
  have hfeasibility := (Signs.negative S).feasibility_onProgram hrhs options
  rw [← standardForm_negateRows] at hfeasibility
  rw [solveTwoPhase_eq, solveTwoPhase_eq]
  refine .bind (.of_eq hfeasibility) ?_
  rintro ⟨answer, before⟩ h
  have hsound := (p.standardForm.ensures_feasibility options).answer _ h
  cases answer with
  | infeasible => exact .pure _ _
  | feasible basis redundant =>
    cases hsound with
    | feasible _ _ _ hs =>
      have hphase := p.phaseTwo_negateRows (S := S) options hs basis before
      cases redundant with
      | nil => exact hphase
      | cons => exact .emit_bind hphase

/-- A change of the signs of some rows only changes the signs of their shadow prices. In two phases
this needs right-hand sides that have a sign. -/
theorem solve_negateRows (S : Finset (Fin p.rows)) :
    (∀ basis, ((p.negateRows S).solve options (some basis)).outcome =
        (p.solve options (some basis)).outcome.map (·.negatePrices S)) ∧
      (∀ basis, ((p.negateRows S).solveDual options basis).outcome =
        (p.solveDual options basis).outcome.map (·.negatePrices S)) ∧
      ((∀ i ∈ S, p.program.rhs.get i ≠ 0) → ((p.negateRows S).solve options none).outcome =
        (p.solve options none).outcome.map (·.negatePrices S)) :=
  ⟨fun basis => Run.Mirrors.emit_bind (p.solveFrom_negateRows options basis),
    fun basis => p.solveDual_negateRows options basis,
    fun hS => Run.Mirrors.emit_bind (p.solveTwoPhase_negateRows options hS)⟩

def secondRow : Finset (Fin repeatedRow.rows) := {⟨1, Nat.one_lt_two⟩}

theorem solve_negateRows_repeatedRow :
    (∀ i ∈ secondRow, repeatedRow.program.rhs.get i ≠ 0) ∧
      ∃ s o, (repeatedRow.solve { tolerance := 0, feasibilityTolerance := 0 } none).outcome =
          .ok s ∧ s.verdict = .optimal o ∧ o.shadowPrice = [0, -2] ∧
        (o.negatePrices secondRow).shadowPrice = [0, 2] ∧
        ((repeatedRow.negateRows secondRow).solve { tolerance := 0, feasibilityTolerance := 0 }
          none).outcome = .ok (s.negatePrices secondRow) := by
  have hrhs : ∀ i ∈ secondRow, repeatedRow.program.rhs.get i ≠ 0 := by
    intro i hi
    obtain rfl := Finset.mem_singleton.mp hi
    decide
  have hprices : (repeatedRow.solve { tolerance := 0, feasibilityTolerance := 0 }
      none).outcome.toOption.map (·.verdict.optimum?.map (·.shadowPrice)) =
        some (some [0, -2]) := by
    decide +kernel
  obtain ⟨s, o, hs, ho, hprice⟩ := exists_optimum_of_toOption_map hprices
  refine ⟨hrhs, s, o, hs, ho, hprice, ?_, ?_⟩
  · exact (congrArg (negateAt secondRow) hprice).trans (by decide +kernel)
  · rw [(repeatedRow.solve_negateRows _ secondRow).2.2 hrhs, hs]
    rfl

end Problem
end RevisedSimplex
