import RevisedSimplex.Proofs.Phases

/-! # Soundness of the solver

In exact arithmetic every verdict holds for the problem as it was stated, with all its rows
and in its own direction. The shadow price of an optimum certifies it.
-/

namespace RevisedSimplex

open Matrix

namespace Objective

def Le : Objective → ℚ → ℚ → Prop
  | minimize, a, b => a ≤ b
  | maximize, a, b => b ≤ a

def Lt : Objective → ℚ → ℚ → Prop
  | minimize, a, b => a < b
  | maximize, a, b => b < a

theorem sign_mul_self (o : Objective) (a : ℚ) : o.sign * (o.sign * a) = a := by
  cases o
  · change 1 * (1 * a) = a
    ring
  · change -1 * (-1 * a) = a
    ring

theorem le_iff (o : Objective) (a b : ℚ) : o.Le a b ↔ o.sign * a ≤ o.sign * b := by
  cases o
  · change a ≤ b ↔ 1 * a ≤ 1 * b
    rw [one_mul, one_mul]
  · change b ≤ a ↔ -1 * a ≤ -1 * b
    rw [neg_one_mul, neg_one_mul, neg_le_neg_iff]

theorem lt_iff (o : Objective) (a b : ℚ) : o.Lt a b ↔ o.sign * a < o.sign * b := by
  cases o
  · change a < b ↔ 1 * a < 1 * b
    rw [one_mul, one_mul]
  · change b < a ↔ -1 * a < -1 * b
    rw [neg_one_mul, neg_one_mul, neg_lt_neg_iff]

end Objective

theorem eq_ok_of_toOption {ε α : Type} {x : Except ε α} {a : α} (h : x.toOption = some a) :
    x = .ok a := by
  cases x with
  | error e => cases h
  | ok a' => exact congrArg _ (Option.some.inj h)

theorem exists_error_of_toOption {ε α : Type} {x : Except ε α} (h : x.toOption = none) :
    ∃ e, x = .error e := by
  cases x with
  | error e => exact ⟨e, rfl⟩
  | ok a => cases h

theorem exists_ok_of_toOption_map {ε α β : Type} {x : Except ε α} {f : α → β} {b : β}
    (h : x.toOption.map f = some b) : ∃ a, x = .ok a ∧ f a = b := by
  cases x with
  | error e => cases h
  | ok a => exact ⟨a, rfl, Option.some.inj h⟩

theorem exists_optimum_of_toOption_map {ε β : Type} {x : Except ε (Solution ℚ)} {f : Optimum ℚ → β}
    {b : β} (h : x.toOption.map (·.verdict.optimum?.map f) = some (some b)) :
    ∃ s o, x = .ok s ∧ s.verdict = .optimal o ∧ f o = b := by
  obtain ⟨s, hs, hb⟩ := exists_ok_of_toOption_map h
  obtain ⟨o, ho, hfo⟩ := Option.map_eq_some_iff.mp hb
  refine ⟨s, o, hs, ?_, hfo⟩
  cases hv : s.verdict <;> rw [hv] at ho <;> cases ho
  rfl

theorem Program.isFinite_eq_true {m n : ℕ} (P : Program ℚ m n) : P.isFinite = true := by
  simp [isFinite, RowMatrix.isFinite, Scalar.isFinite]

namespace Problem

variable {m : ℕ} (p : Problem ℚ)

theorem standardForm_constraints : p.standardForm.constraints = p.program.constraints := by
  unfold standardForm
  split <;> rfl

theorem standardForm_rhs : p.standardForm.rhs = p.program.rhs := by
  unfold standardForm
  split <;> rfl

theorem standardForm_cost_get (j : Fin p.columns) :
    p.standardForm.cost.get j = p.objective.sign * p.program.cost.get j := by
  unfold standardForm
  split <;> rename_i h <;> rw [h]
  · exact (one_mul _).symm
  · rw [Vector.get_map]
    exact (neg_one_mul _).symm

theorem standardForm_cost_dotProduct (x : Fin p.columns → ℚ) :
    p.standardForm.cost.get ⬝ᵥ x = p.objective.sign * (p.program.cost.get ⬝ᵥ x) := by
  simp only [dotProduct, standardForm_cost_get, Finset.mul_sum, mul_assoc]

theorem isFeasible_standardForm (x : Fin p.columns → ℚ) :
    p.standardForm.IsFeasible x ↔ p.program.IsFeasible x := by
  rw [Program.IsFeasible, Program.IsFeasible, standardForm_constraints, standardForm_rhs]

/-- The optimum has the point `x` and the prices `y` that certify it. -/
structure IsOptimum (o : Optimum ℚ) (x : Fin p.columns → ℚ) (y : Fin p.rows → ℚ) : Prop where
  point_eq : o.point = List.ofFn x
  shadowPrice_eq : o.shadowPrice = List.ofFn y
  isFeasible : p.program.IsFeasible x
  objective_eq : o.objective = p.program.cost.get ⬝ᵥ x
  objective_le : ∀ z, p.program.IsFeasible z → p.objective.Le o.objective (p.program.cost.get ⬝ᵥ z)
  price_rhs : y ⬝ᵥ p.program.rhs.get = o.objective
  price_le : ∀ j, p.objective.Le (y ⬝ᵥ p.program.constraints.toMatrix.col j) (p.program.cost.get j)

/-- What a verdict says about the problem. -/
def Holds : Verdict ℚ → Prop
  | .optimal o => ∃ x y, p.IsOptimum o x y
  | .infeasible => ∀ x, ¬ p.program.IsFeasible x
  | .unbounded => (∃ x, p.program.IsFeasible x) ∧
      ∀ bound, ∃ x, p.program.IsFeasible x ∧ p.objective.Lt (p.program.cost.get ⬝ᵥ x) bound

variable {p} {t : Tableau ℚ m p.columns} (ht : t.IsValid)

include ht

theorem sign_mul_objective (hcost : t.program.cost = p.standardForm.cost) :
    p.objective.sign * t.objective = p.program.cost.get ⬝ᵥ t.point.get := by
  rw [ht.objective_eq, hcost, standardForm_cost_dotProduct, Objective.sign_mul_self]

/-- What prices of the problem are worth that come from the shadow price of a tableau. -/
theorem price_spec (hcost : t.program.cost = p.standardForm.cost) {y : Fin p.rows → ℚ}
    (hrhs : y ⬝ᵥ p.standardForm.rhs.get =
      (t.shadowPrice.map (p.objective.sign * ·)).get ⬝ᵥ t.program.rhs.get)
    (hcol : y ᵥ* p.standardForm.constraints.toMatrix =
      (t.shadowPrice.map (p.objective.sign * ·)).get ᵥ* t.program.constraints.toMatrix) :
    y ⬝ᵥ p.program.rhs.get = p.objective.sign * t.objective ∧
      ∀ j, p.objective.sign *
        (y ⬝ᵥ p.program.constraints.toMatrix.col j - p.program.cost.get j) = t.relativeCost j := by
  have hsmul : (t.shadowPrice.map (p.objective.sign * ·)).get =
      (p.objective.sign : ℚ) • t.shadowPrice.get := by
    ext i
    rw [Vector.get_map]
    rfl
  constructor
  · rw [← p.standardForm_rhs, hrhs, hsmul, smul_dotProduct, ht.objective_eq_price, smul_eq_mul]
  · intro j
    have hprice := congrFun hcol j
    rw [hsmul, Matrix.smul_vecMul, p.standardForm_constraints] at hprice
    change y ⬝ᵥ p.program.constraints.toMatrix.col j =
      p.objective.sign * (t.shadowPrice.get ⬝ᵥ t.program.constraints.toMatrix.col j) at hprice
    rw [hprice, mul_sub, Objective.sign_mul_self, t.relativeCost_eq, hcost, standardForm_cost_get]

variable {removed : List ℕ} (hred : p.standardForm.IsReduction removed t.program)

include hred

theorem holds_optimal (hv : ∀ i, 0 ≤ t.basicValues.get i) (hz : ∀ j, t.relativeCost j ≤ 0) :
    p.Holds (p.verdict .optimal t removed) := by
  obtain ⟨y, hy, hrhs, hcol⟩ := hred.price (t.shadowPrice.map (p.objective.sign * ·))
  obtain ⟨hworth, hrelative⟩ := price_spec ht hred.cost_eq hrhs hcol
  have hx := ht.isFeasible_point hv
  refine ⟨t.point.get, y, toList_eq_ofFn _, ?_, ?_, ?_, ?_, hworth, ?_⟩
  · rw [← hy, Vector.toList_map]
  · exact (p.isFeasible_standardForm _).mp ((hred.isFeasible_iff _).mp hx)
  · exact sign_mul_objective ht hred.cost_eq
  · intro z hz'
    have hle := ht.objective_le_cost hz
      ((hred.isFeasible_iff z).mpr ((p.isFeasible_standardForm z).mpr hz'))
    rw [hred.cost_eq, standardForm_cost_dotProduct] at hle
    rw [Objective.le_iff]
    change p.objective.sign * (p.objective.sign * t.objective) ≤ _
    rwa [Objective.sign_mul_self]
  · intro j
    have hzj := hz j
    rwa [← hrelative, mul_sub, sub_nonpos, ← Objective.le_iff] at hzj

theorem holds_unbounded (hv : ∀ i, 0 ≤ t.basicValues.get i) {j : Fin p.columns}
    (hj : ∀ i, t.basis.get i ≠ j) (hz : 0 < t.relativeCost j) (hcol : ∀ i, t.entries i j ≤ 0) :
    p.Holds (p.verdict .unbounded t removed) := by
  have hfeasible : ∀ x, t.program.IsFeasible x → p.program.IsFeasible x := fun x hx =>
    (p.isFeasible_standardForm x).mp ((hred.isFeasible_iff x).mp hx)
  refine ⟨⟨_, hfeasible _ (ht.isFeasible_point hv)⟩, fun bound => ?_⟩
  obtain ⟨x, hx, hlt⟩ := ht.exists_cost_lt hv hj hz hcol (p.objective.sign * bound)
  rw [hred.cost_eq, standardForm_cost_dotProduct] at hlt
  exact ⟨x, hfeasible x hx, (Objective.lt_iff ..).mpr hlt⟩

omit ht

theorem optimize_holds {options : Options ℚ} {before : ℕ} {s : Solution ℚ}
    (ht : t.IsBasicFeasible) (ha : t.artificial = 0)
    (h : (p.optimize options t removed before).outcome = .ok s) : p.Holds s.verdict := by
  cases hstop : (t.primal .two options).outcome with
  | error e =>
    rw [optimize_of_error hstop] at h
    cases h
  | ok stop =>
    obtain ⟨counts, hs⟩ := optimize_of_ok hstop removed before
    rw [hs] at h
    cases h
    obtain ⟨hcont, hend⟩ := ht.primal_ok hstop
    have hred' : p.standardForm.IsReduction removed stop.tableau.program :=
      hcont.program_eq ▸ hred
    change p.Holds (p.verdict stop.status stop.tableau removed)
    generalize stop.status = status at hend
    cases hend with
    | optimal hd =>
      refine holds_optimal hcont.toIsValid hred' hcont.basicValues_nonneg fun j => ?_
      exact hcont.relativeCost_nonpos hd (Tableau.lt_structural (hcont.artificial_eq.trans ha) j)
    | unbounded hb hz hcol =>
      exact holds_unbounded hcont.toIsValid hred' hcont.basicValues_nonneg hb hz hcol

omit hred

variable {options : Options ℚ} (h0 : options.tolerance = 0) {s : Solution ℚ}

include h0

theorem solveFrom_holds {basis : List ℕ} (h : (p.solveFrom options basis).outcome = .ok s) :
    p.Holds s.verdict := by
  cases ht : Tableau.ofIndices p.standardForm basis options.tolerance 0 with
  | error e =>
    rw [solveFrom, ht] at h
    cases h
  | ok t =>
    by_cases hf : t.isPrimalFeasible = true
    · obtain ⟨hexact, hP, hart⟩ := Tableau.isExact_of_ofIndices h0 ht
      have hred : p.standardForm.IsReduction [] t.program := hP ▸ Program.IsReduction.refl _
      rw [solveFrom_of_isPrimalFeasible ht hf] at h
      exact optimize_holds hred ⟨hexact, hexact.isPrimalFeasible_iff.mp hf⟩ hart h
    · rw [solveFrom_of_not_isPrimalFeasible ht hf] at h
      cases h

theorem solveTwoPhase_holds (hf : options.feasibilityTolerance = 0)
    (h : (p.solveTwoPhase options).outcome = .ok s) : p.Holds s.verdict := by
  rcases p.solveTwoPhase_cases h0 hf with
    he | ⟨hno, counts, hs⟩ | ⟨redundant, t, before, hfeasible, hart, hred, ho⟩
  · rw [he] at h
    cases h
  · rw [hs] at h
    cases h
    exact fun x hx => hno x ((p.isFeasible_standardForm x).mpr hx)
  · exact optimize_holds hred hfeasible hart (ho.symm.trans h)

/-- Every verdict of the solver holds. An optimum satisfies all rows of the problem, no feasible
point is better, and its shadow price proves that. -/
theorem solve_holds (hf : options.feasibilityTolerance = 0) {basis : Option (List ℕ)}
    (h : (p.solve options basis).outcome = .ok s) : p.Holds s.verdict := by
  cases basis with
  | some basis => exact solveFrom_holds h0 h
  | none => exact solveTwoPhase_holds h0 hf h

omit h0

/-- A maximisation whose second row repeats the first one with a negative right-hand side. -/
def repeatedRow : Problem ℚ where
  objective := .maximize
  program := ⟨#v[1, 2], ⟨#v[#v[1, 1], #v[-1, -1]]⟩, #v[4, -4]⟩
  rows_pos := Nat.zero_lt_two
  columns_pos := Nat.zero_lt_two
  isFinite := Program.isFinite_eq_true _

theorem solve_holds_repeatedRow :
    ∃ s, (repeatedRow.solve { tolerance := 0, feasibilityTolerance := 0 } none).outcome = .ok s ∧
      s.verdict.status = .optimal ∧ repeatedRow.Holds s.verdict := by
  have h : (repeatedRow.solve { tolerance := 0, feasibilityTolerance := 0 }
      none).outcome.toOption.map (·.verdict.status) = some .optimal := by decide +kernel
  obtain ⟨s, hs, hstatus⟩ := exists_ok_of_toOption_map h
  exact ⟨s, hs, hstatus, solve_holds rfl rfl hs⟩

end Problem
end RevisedSimplex
