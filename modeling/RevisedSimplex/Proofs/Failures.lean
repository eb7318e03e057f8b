import RevisedSimplex.Proofs.Dual

/-! # Why a solve fails

In exact arithmetic a list of columns is refused exactly if it is no basis, if its columns are
dependent or if its basic solution does not suit the method. Nothing else but a limit of pivots
keeps a solve from its answer.
-/

namespace RevisedSimplex

open Matrix

variable {m n : ℕ}

namespace Program

/-- The columns of the basis are linearly independent. -/
def IsIndependent (P : Program ℚ m n) (basis : Basis m n) : Prop :=
  LinearIndependent ℚ (P.basisMatrix basis).col

/-- The basic solution `B⁻¹ b` has a negative entry. -/
def HasNegativeValue (P : Program ℚ m n) (basis : Basis m n) : Prop :=
  ∃ i, ((P.basisMatrix basis)⁻¹ *ᵥ P.rhs.get) i < 0

/-- A nonbasic column has a positive relative cost `c_B B⁻¹ A_j - c_j`. -/
def HasPositiveCost (P : Program ℚ m n) (basis : Basis m n) : Prop :=
  ∃ j, (∀ i, basis.get i ≠ j) ∧
    0 < ((P.cost.get ∘ basis.get) ᵥ* (P.basisMatrix basis)⁻¹) ⬝ᵥ P.constraints.toMatrix.col j -
      P.cost.get j

theorem isIndependent_iff {P : Program ℚ m n} {basis : Basis m n} :
    P.IsIndependent basis ↔ ∀ v, P.basisMatrix basis *ᵥ v = 0 → v = 0 := by
  rw [IsIndependent, ← Matrix.mulVec_injective_iff]
  exact injective_iff_map_eq_zero (Matrix.mulVecLin (P.basisMatrix basis))

end Program

namespace Tableau

theorem IsValid.isIndependent {t : Tableau ℚ m n} (ht : t.IsValid) :
    t.program.IsIndependent t.basis := by
  rw [Program.isIndependent_iff]
  intro v hv
  rw [← Matrix.one_mulVec v, ← ht.inverse_mul_basisMatrix, ← Matrix.mulVec_mulVec, hv,
    Matrix.mulVec_zero]

theorem IsValid.inverse_eq {t : Tableau ℚ m n} (ht : t.IsValid) :
    (t.program.basisMatrix t.basis)⁻¹ = t.inverse :=
  Matrix.inv_eq_left_inv ht.inverse_mul_basisMatrix

theorem IsExact.hasNegativeValue_iff {t : Tableau ℚ m n} (ht : t.IsExact) :
    t.program.HasNegativeValue t.basis ↔ ¬ t.isPrimalFeasible = true := by
  rw [Program.HasNegativeValue, ht.inverse_eq, ← ht.basicValues_get, ht.isPrimalFeasible_iff]
  push Not
  rfl

theorem IsExact.hasPositiveCost_iff {t : Tableau ℚ m n} (ht : t.IsExact)
    (ha : t.artificial = 0) :
    t.program.HasPositiveCost t.basis ↔ ¬ t.isDualFeasible = true := by
  rw [Program.HasPositiveCost, ht.inverse_eq, isDualFeasible_iff, ht.tolerance_eq]
  push Not
  refine exists_congr fun j => ?_
  rw [← t.isBasic_eq_false_iff, t.relativeCost_eq, ht.shadowPrice_get,
    and_iff_right (lt_structural ha j)]
  rfl

/-- What becomes of a list of columns that is to be evaluated as a basis. -/
inductive Reads (P : Program ℚ m n) (indices : List ℕ) :
    Except (Failure ℚ) (Tableau ℚ m n) → Prop where
  | malformed {fault : BasisFault} : Basis.IsMalformed m n indices →
      Reads P indices (.error (.invalidInitialBasis fault))
  | singular {basis : Basis m n} : basis.indices = indices → indices.Nodup →
      ¬ P.IsIndependent basis → Reads P indices (.error (.singularBasis indices))
  | ok {t : Tableau ℚ m n} : t.basis.indices = indices → t.program = P → t.IsExact →
      t.artificial = 0 → Reads P indices (.ok t)

theorem reads_ofIndices (P : Program ℚ m n) (indices : List ℕ) :
    Reads P indices (ofIndices P indices 0 0) := by
  unfold ofIndices
  cases hb : (Basis.ofIndices indices : Except BasisFault (Basis m n)) with
  | error fault => exact .malformed (Basis.ofIndices_eq_error_iff.mp ⟨fault, hb⟩)
  | ok basis =>
    obtain ⟨hindices, hd⟩ := Basis.of_ofIndices hb
    dsimp only
    by_cases hli : P.IsIndependent basis
    · obtain ⟨t, ht⟩ := ofBasis_exists (Program.isIndependent_iff.mp hli) 0
      obtain ⟨hv, hP, hbasis, htol, hart⟩ := isValid_of_ofBasis le_rfl ht
      rw [ht]
      exact .ok (hbasis ▸ hindices) hP ⟨hv, htol⟩ hart
    · cases ht : ofBasis P basis 0 0 with
      | ok t =>
        obtain ⟨hv, hP, hbasis, -, -⟩ := isValid_of_ofBasis le_rfl ht
        exact absurd (hP ▸ hbasis ▸ hv.isIndependent) hli
      | error e =>
        unfold ofBasis at ht
        split at ht
        · cases ht
        · cases ht
          rw [hindices]
          exact .singular hindices hd hli

end Tableau

/-- Which errors answer a list of columns, where some bases are unsuitable. -/
structure IsClassified {α : Type} (P : Program ℚ m n) (indices : List ℕ)
    (unsuitable : Basis m n → Prop) (limit : Option ℕ) (outcome : Except (Failure ℚ) α) :
    Prop where
  invalid_iff : (∃ fault, outcome = .error (.invalidInitialBasis fault)) ↔
    Basis.IsMalformed m n indices ∨
      ∃ basis, basis.indices = indices ∧ P.IsIndependent basis ∧ unsuitable basis
  singular_iff : outcome = .error (.singularBasis indices) ↔
    ∃ basis : Basis m n, basis.indices = indices ∧ indices.Nodup ∧ ¬ P.IsIndependent basis
  otherwise : ∀ e, outcome = .error e → (∃ fault, e = .invalidInitialBasis fault) ∨
    e = .singularBasis indices ∨ e = outOfPivots limit

section Classification

variable {P : Program ℚ m n} {indices : List ℕ}

/-- A method that starts from the basis fails if the basis is unsuitable or its pivots run out. -/
structure FailsOn {α : Type} (unsuitable : Prop) (limit : Option ℕ)
    (outcome : Except (Failure ℚ) α) : Prop where
  refused : unsuitable → ∃ fault, outcome = .error (.invalidInitialBasis fault)
  otherwise : ∀ e, outcome = .error e →
    (unsuitable ∧ ∃ fault, e = .invalidInitialBasis fault) ∨ e = outOfPivots limit

variable {α : Type} {unsuitable : Basis m n → Prop} {limit : Option ℕ}
  {x : Except (Failure ℚ) (Tableau ℚ m n)} {f : Tableau ℚ m n → Except (Failure ℚ) α}

theorem FailsOn.isClassified {t : Tableau ℚ m n} (hi : t.basis.indices = indices) (ht : t.IsExact)
    {outcome : Except (Failure ℚ) α} (h : FailsOn (unsuitable t.basis) limit outcome) :
    IsClassified t.program indices unsuitable limit outcome where
  invalid_iff := by
    have hd := hi ▸ Basis.nodup_indices_iff.mpr ht.basis_injective
    rw [Basis.exists_indices_eq_iff hi, and_iff_right ht.isIndependent,
      or_iff_right (Basis.not_isMalformed hi hd)]
    refine ⟨?_, h.refused⟩
    rintro ⟨fault, he⟩
    rcases h.otherwise _ he with ⟨hu, -⟩ | he
    · exact hu
    · cases limit <;> cases he
  singular_iff := by
    rw [Basis.exists_indices_eq_iff hi]
    refine iff_of_false (fun he => ?_) fun hs => hs.2 ht.isIndependent
    rcases h.otherwise _ he with ⟨-, fault, he⟩ | he
    · cases he
    · cases limit <;> cases he
  otherwise e he := by
    rcases h.otherwise e he with ⟨-, hfault⟩ | he
    · exact Or.inl hfault
    · exact Or.inr (Or.inr he)

theorem Tableau.Reads.isClassified (hx : Reads P indices x)
    (hf : ∀ t, t.program = P → t.IsExact → t.artificial = 0 →
      FailsOn (unsuitable t.basis) limit (f t)) :
    IsClassified P indices unsuitable limit (x.bind f) := by
  cases hx with
  | malformed hm =>
    refine ⟨iff_of_true ⟨_, rfl⟩ (Or.inl hm), iff_of_false nofun ?_, ?_⟩
    · rintro ⟨basis, hi, hd, -⟩
      exact Basis.not_isMalformed hi hd hm
    · rintro e ⟨⟩
      exact Or.inl ⟨_, rfl⟩
  | singular hi hd hdependent =>
    refine ⟨iff_of_false nofun ?_, iff_of_true rfl ⟨_, hi, hd, hdependent⟩, ?_⟩
    · rw [Basis.exists_indices_eq_iff hi]
      rintro (hm | ⟨hindependent, -⟩)
      · exact Basis.not_isMalformed hi hd hm
      · exact hdependent hindependent
    · rintro e ⟨⟩
      exact Or.inr (Or.inl rfl)
  | @ok t hi hP ht ha => exact hP ▸ (hf t hP ht ha).isClassified hi ht

end Classification

namespace Problem

variable {p : Problem ℚ} {options : Options ℚ} (h0 : options.tolerance = 0)

theorem optimize_error {m : ℕ} {t : Tableau ℚ m p.columns} (ht : t.IsBasicFeasible)
    {removed : List ℕ} {before : ℕ} {e : Failure ℚ}
    (h : (p.optimize options t removed before).outcome = .error e) :
    e = outOfPivots options.iterationLimit := by
  rcases Run.outcome_bind_eq_error.mp h with h | ⟨stop, -, h⟩
  · exact ht.primal_error h
  · cases h

include h0

theorem solve_isClassified (indices : List ℕ) :
    IsClassified p.standardForm indices p.standardForm.HasNegativeValue options.iterationLimit
      (p.solve options (some indices)).outcome := by
  change IsClassified _ _ _ _ (p.solveFrom options indices).outcome
  rw [solveFrom, Run.outcome_bind, Run.outcome_ofExcept, h0]
  refine (Tableau.reads_ofIndices p.standardForm indices).isClassified fun t hP ht ha => ?_
  rw [← hP, ht.hasNegativeValue_iff]
  by_cases hf : t.isPrimalFeasible = true
  · rw [if_pos hf]
    refine ⟨fun h => absurd hf h, fun e h => Or.inr ?_⟩
    exact optimize_error ⟨ht, ht.isPrimalFeasible_iff.mp hf⟩ h
  · rw [if_neg hf]
    refine ⟨fun _ => ⟨_, rfl⟩, ?_⟩
    rintro e ⟨⟩
    exact Or.inl ⟨hf, _, rfl⟩

theorem solveDual_isClassified (indices : List ℕ) :
    IsClassified p.standardForm indices p.standardForm.HasPositiveCost options.iterationLimit
      (p.solveDual options indices).outcome := by
  change IsClassified _ _ _ _ (Run.outcome (Run.ofExcept _ >>= _))
  rw [Run.outcome_bind, Run.outcome_ofExcept, h0]
  refine (Tableau.reads_ofIndices p.standardForm indices).isClassified fun t hP ht ha => ?_
  rw [← hP, ht.hasPositiveCost_iff ha]
  refine ⟨fun hd => ?_, fun e h => ?_⟩
  · refine ⟨.notDualFeasible, ?_⟩
    rw [Run.outcome_bind, Tableau.dual, if_neg hd]
    rfl
  · rcases Run.outcome_bind_eq_error.mp h with h | ⟨stop, -, h⟩
    · rcases ht.dual_error ha h with ⟨hd, rfl⟩ | ⟨-, rfl⟩
      · exact Or.inl ⟨hd, _, rfl⟩
      · exact Or.inr rfl
    · cases h

theorem solveTwoPhase_error (hf : options.feasibilityTolerance = 0) {e : Failure ℚ}
    (h : (p.solveTwoPhase options).outcome = .error e) :
    e = outOfPivots options.iterationLimit := by
  rcases p.solveTwoPhase_cases h0 hf with
    he | ⟨-, counts, hs⟩ | ⟨redundant, t, before, hfeasible, -, -, ho⟩
  · rw [he] at h
    cases h
    rfl
  · rw [hs] at h
    cases h
  · exact optimize_error hfeasible (ho.symm.trans h)

/-- A list of columns is refused exactly for the faults of a basis, dependent columns and an
unsuitable basic solution or prices. Otherwise, and without a list always, the only error is that
of the limit of pivots. -/
theorem solve_errors (hf : options.feasibilityTolerance = 0) :
    (∀ indices, IsClassified p.standardForm indices p.standardForm.HasNegativeValue
      options.iterationLimit (p.solve options (some indices)).outcome) ∧
    (∀ indices, IsClassified p.standardForm indices p.standardForm.HasPositiveCost
      options.iterationLimit (p.solveDual options indices).outcome) ∧
    ∀ e, (p.solve options none).outcome = .error e → e = outOfPivots options.iterationLimit :=
  ⟨solve_isClassified h0, solveDual_isClassified h0, fun _ h => solveTwoPhase_error h0 hf h⟩

omit h0

theorem solve_errors_repeatedRow :
    (∃ fault, (repeatedRow.solve { tolerance := 0, feasibilityTolerance := 0 }
      (some [0, 0])).outcome = .error (.invalidInitialBasis fault)) ∧
    (repeatedRow.solve { tolerance := 0, feasibilityTolerance := 0 } (some [0, 1])).outcome =
      .error (.singularBasis [0, 1]) := by
  have h0 : ({ tolerance := 0, feasibilityTolerance := 0 } : Options ℚ).tolerance = 0 := rfl
  obtain ⟨hsolve, -, -⟩ := solve_errors (p := repeatedRow) h0 rfl
  constructor
  · exact (hsolve [0, 0]).invalid_iff.mpr (Or.inl (Or.inr (Or.inr (by decide))))
  · refine (hsolve [0, 1]).singular_iff.mpr ⟨(#v[0, 1] : Basis 2 2), rfl, by decide, fun h => ?_⟩
    have hv : repeatedRow.standardForm.basisMatrix (#v[0, 1] : Basis 2 2) *ᵥ ![1, -1] = 0 := by
      decide +kernel
    have hzero := congrFun (Program.isIndependent_iff.mp h _ hv) (0 : Fin 2)
    exact absurd hzero (by decide +kernel)

end Problem
end RevisedSimplex
