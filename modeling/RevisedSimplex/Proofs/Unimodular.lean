import RevisedSimplex.Proofs.Auxiliary

/-! # Unimodular programs

Integral data whose basis matrices have determinant one up to sign have integral tableaux. The
auxiliary program of totally unimodular constraints is such a program.
-/

namespace RevisedSimplex

open Matrix

variable {m n : ℕ}

def rationalMatrix {k : ℕ} (C : Matrix (Fin m) (Fin k) ℤ) : Matrix (Fin m) (Fin k) ℚ :=
  C.map (Int.castRingHom ℚ)

namespace Program

/-- The constraints and the right-hand side are integral, and every basis matrix is singular or has
determinant one up to sign. -/
structure IsUnimodular (P : Program ℚ m n) : Prop where
  constraints : ∃ C : Matrix (Fin m) (Fin n) ℤ, P.constraints.toMatrix = rationalMatrix C ∧
    ∀ basis : Basis m n, (C.submatrix id basis.get).det ∈ Set.range SignType.cast
  rhs : ∃ b : Fin m → ℤ, P.rhs.get = Int.castRingHom ℚ ∘ b

end Program

namespace Tableau

structure IsIntegral (t : Tableau ℚ m n) : Prop where
  entries : ∃ E : Matrix (Fin m) (Fin n) ℤ, t.entries = rationalMatrix E
  basicValues : ∃ v : Fin m → ℤ, t.basicValues.get = Int.castRingHom ℚ ∘ v

theorem IsValid.isIntegral {t : Tableau ℚ m n} (ht : t.IsValid) (hP : t.program.IsUnimodular) :
    t.IsIntegral := by
  obtain ⟨⟨C, hC, hdet⟩, b, hb⟩ := hP
  have hbasis : t.program.basisMatrix t.basis = rationalMatrix (C.submatrix id t.basis.get) := by
    rw [Program.basisMatrix, hC]
    rfl
  have hne : (C.submatrix id t.basis.get).det ≠ 0 := by
    intro hzero
    have hunit := congrArg Matrix.det ht.inverse_mul_basisMatrix
    rw [hbasis, rationalMatrix, Matrix.det_mul, ← RingHom.mapMatrix_apply, ← RingHom.map_det, hzero,
      map_zero, mul_zero, Matrix.det_one] at hunit
    exact zero_ne_one hunit
  have hinv : t.inverse = rationalMatrix (C.submatrix id t.basis.get)⁻¹ := by
    have hunit : IsUnit (C.submatrix id t.basis.get).det := by
      obtain ⟨s, hs⟩ := hdet t.basis
      rw [Int.isUnit_iff]
      cases s <;> simp_all
    refine left_inv_eq_right_inv ht.inverse_mul_basisMatrix ?_
    rw [hbasis, rationalMatrix, rationalMatrix, ← Matrix.map_mul, Matrix.mul_nonsing_inv _ hunit]
    exact Matrix.map_one _ (map_zero _) (map_one _)
  refine ⟨⟨(C.submatrix id t.basis.get)⁻¹ * C, ?_⟩, (C.submatrix id t.basis.get)⁻¹ *ᵥ b, ?_⟩
  · rw [entries, hinv, hC, rationalMatrix, rationalMatrix, ← Matrix.map_mul]
    rfl
  · rw [ht.basicValues_get, hinv, hb]
    ext i
    exact (RingHom.map_mulVec ..).symm

end Tableau

theorem mul_mem_range_cast {a b : ℤ} (ha : a ∈ Set.range SignType.cast)
    (hb : b ∈ Set.range SignType.cast) : a * b ∈ Set.range (SignType.cast : SignType → ℤ) := by
  obtain ⟨s, rfl⟩ := ha
  obtain ⟨s', rfl⟩ := hb
  exact ⟨s * s', by cases s <;> cases s' <;> rfl⟩

theorem isTotallyUnimodular_scaleRows {C : Matrix (Fin m) (Fin n) ℤ} (hC : C.IsTotallyUnimodular)
    (s : Fin m → ℤˣ) : (Matrix.of fun i j => (s i : ℤ) * C i j).IsTotallyUnimodular := by
  rw [Matrix.isTotallyUnimodular_iff] at hC ⊢
  intro k f g
  have hdet := Matrix.det_mul_column (fun i => (s (f i) : ℤ)) (C.submatrix f g)
  have hsign : ∏ i, (s (f i) : ℤ) ∈ Set.range (SignType.cast : SignType → ℤ) := by
    rw [← Units.coe_prod]
    rcases Int.units_eq_one_or (∏ i, s (f i)) with h | h <;> rw [h]
    · exact ⟨1, rfl⟩
    · exact ⟨-1, rfl⟩
  exact hdet ▸ mul_mem_range_cast hsign (hC k f g)

namespace Program

/-- The constraints are totally unimodular and the right-hand side is integral. -/
structure IsTotallyUnimodular (P : Program ℚ m n) : Prop where
  constraints : ∃ C : Matrix (Fin m) (Fin n) ℤ, P.constraints.toMatrix = rationalMatrix C ∧
    C.IsTotallyUnimodular
  rhs : ∃ b : Fin m → ℤ, P.rhs.get = Int.castRingHom ℚ ∘ b

def rowUnit (P : Program ℚ m n) (i : Fin m) : ℤˣ := if P.rhs.get i < 0 then -1 else 1

theorem rowSign_eq (P : Program ℚ m n) (i : Fin m) : P.rowSign i = ((P.rowUnit i : ℤ) : ℚ) := by
  unfold rowSign rowUnit
  split <;> simp

theorem IsTotallyUnimodular.auxiliary {P : Program ℚ m n} (h : P.IsTotallyUnimodular) :
    P.auxiliary.IsUnimodular := by
  obtain ⟨⟨C, hC, htotal⟩, b, hb⟩ := h
  let signed : Matrix (Fin m) (Fin n) ℤ := .of fun i j => P.rowUnit i * C i j
  let S : Matrix (Fin m) (Fin (n + m)) ℤ := (signed.fromCols 1).submatrix id finSumFinEquiv.symm
  have hS : S.IsTotallyUnimodular :=
    (isTotallyUnimodular_scaleRows htotal P.rowUnit).fromCols_one.submatrix _ _
  refine ⟨⟨S, ?_, fun basis => ?_⟩, fun i => P.rowUnit i * b i, ?_⟩
  · have hget : ∀ i j, P.constraints.get i j = (C i j : ℚ) := fun i j => congrFun (congrFun hC i) j
    ext i j
    rcases column_cases j with ⟨j, rfl⟩ | ⟨k, rfl⟩
    · simp [S, signed, rationalMatrix, auxiliary_get_structural, signed_get, rowSign_eq, hget]
    · simpa [S, rationalMatrix, artificialColumn, Matrix.one_apply] using
        P.auxiliary_get_artificial i k
  · exact (Matrix.isTotallyUnimodular_iff S).mp hS m id basis.get
  · ext i
    change P.signed.rhs.get i = _
    rw [signed_rhs_get, rowSign_eq, hb]
    simp

end Program
end RevisedSimplex
