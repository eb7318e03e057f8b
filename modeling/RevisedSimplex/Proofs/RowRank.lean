import RevisedSimplex.Proofs.Repair
import RevisedSimplex.Proofs.Restart

/-! # Rows that are found redundant

Where the repair ends, the structural basic columns are independent and every redundant row combines
the rows that remain. So the remaining rows are as many as the rank of the constraints. This needs
exact zeros only: the artificial variables may have any value.
-/

namespace RevisedSimplex

open Matrix

variable {m n : ℕ}

theorem mulVec_of_combination {A : Matrix (Fin m) (Fin n) ℚ} {k : Fin m} {c b : Fin m → ℚ}
    {removed : List (Fin m)} (hzero : ∀ i ∈ removed, c i = 0) (hc : c ᵥ* A = A k) {x : Fin n → ℚ}
    (hx : ∀ i ∉ removed, (A *ᵥ x) i = b i) : (A *ᵥ x) k = c ⬝ᵥ b := by
  calc (A *ᵥ x) k = c ⬝ᵥ (A *ᵥ x) := by
        rw [Matrix.dotProduct_mulVec, hc]
        rfl
    _ = c ⬝ᵥ b := by
        refine Finset.sum_congr rfl fun i _ => ?_
        by_cases hi : i ∈ removed
        · rw [hzero i hi, zero_mul, zero_mul]
        · rw [hx i hi]

theorem Program.basisMatrix_withoutRows (P : Program ℚ m n) (removed : List (Fin m))
    (basis : Basis (remainingRows removed).length n) :
    (P.withoutRows removed).basisMatrix basis =
      P.constraints.toMatrix.submatrix (remainingRows removed).get basis.get := by
  ext i j
  simp [basisMatrix, withoutRows]

namespace Repair

section Repaired

variable {s s' : Repair ℚ m n} {i r : Fin m} {events : List (Event ℚ)} {todo : List (Fin m)}

theorem IsTreated.isExhausted (h : IsTreated s i r events s') (hs : s.tableau.IsValid)
    (h0 : s.tableau.tolerance = 0) (hart : s.tableau.artificial = m)
    (hr : s.tableau.basis.get r = artificialColumn n i) (hz : s.IsExhausted) :
    s'.IsExhausted := by
  cases h with
  | @exchanged q t' hq ht' =>
    have hlt := (of_mem_pivots hq).1
    rw [Tableau.structural_of_artificial hart] at hlt
    have hqj : q.1 = Fin.castAdd m ⟨q.1.val, hlt⟩ := rfl
    exact hz.exchange hs (hqj ▸ hs.isExchange_of_pivot ht')
  | redundant hnil => exact hz.redundantRow hs h0 hart hr hnil

theorem IsRepaired.isExhausted (h : IsRepaired s todo events s') (hs : s.tableau.IsValid)
    (h0 : s.tableau.tolerance = 0) (hart : s.tableau.artificial = m) (hz : s.IsExhausted) :
    s'.IsExhausted := by
  induction h with
  | nil => exact hz
  | cons hr htreated _ ih =>
    have hfirst := htreated.follows hs
    exact ih hfirst.toIsValid (hfirst.tolerance_eq.trans h0) (hfirst.artificial_eq.trans hart)
      (htreated.isExhausted hs h0 hart hr hz)

end Repaired

/-- A repair that has treated every artificial variable. -/
structure IsComplete (P : Program ℚ m n) (s : Repair ℚ m n) : Prop extends s.tableau.IsValid where
  program_eq : s.tableau.program = P.auxiliary
  tracks : Tracks s []
  isExhausted : s.IsExhausted

theorem IsPartial.isComplete {P : Program ℚ m n} {s : Repair ℚ m n} (hs : IsPartial P s []) :
    IsComplete P s :=
  ⟨hs.toIsValid, hs.program_eq, hs.tracks, hs.isExhausted⟩

theorem isComplete_of_ofTableau {P : Program ℚ m n} {t : Tableau ℚ m (n + m)} (ht : t.IsValid)
    (h0 : t.tolerance = 0) (hP : t.program = P.auxiliary) (hart : t.artificial = m)
    {s : Repair ℚ m n} (hs : (ofTableau t).outcome = .ok s) : IsComplete P s := by
  have hrepaired := isRepaired_of_foldlM hs
  have hfollows := hrepaired.follows ht
  exact ⟨hfollows.toIsValid, hfollows.program_eq.trans hP,
    (tracks_start ht.basis_injective hart).of_isRepaired hrepaired,
    hrepaired.isExhausted ht h0 hart fun _ _ hk => absurd hk List.not_mem_nil⟩

namespace IsComplete

variable {P : Program ℚ m n} {s : Repair ℚ m n} (hs : IsComplete P s)

include hs

theorem exists_row {k : Fin m} (hk : k ∈ s.redundant) :
    ∃ r, s.tableau.basis.get r = artificialColumn n k :=
  (s.tableau.isBasic_iff _).mp ((hs.tracks.isBasic_iff_mem k).mpr hk)

/-- The tableau rows of the redundant artificial variables are combinations of the rows of the
program in which every other redundant row has coefficient zero. -/
theorem inverse_eq {r k l : Fin m} (hr : s.tableau.basis.get r = artificialColumn n k)
    (hl : l ∈ s.redundant) : s.tableau.inverse r l = if k = l then 1 else 0 := by
  obtain ⟨r', hr'⟩ := hs.exists_row hl
  rw [Tableau.inverse_eq_artificial hs.program_eq, ← hr', hs.entries_basic]
  have hiff : r = r' ↔ k = l := by
    rw [← hs.basis_injective.eq_iff, hr, hr', artificialColumn_injective.eq_iff]
  simp only [hiff]

theorem rowSign_mul_inverse {r k : Fin m} (hk : k ∈ s.redundant)
    (hr : s.tableau.basis.get r = artificialColumn n k) :
    (P.rowSign * s.tableau.inverse r) ᵥ* P.constraints.toMatrix = 0 ∧
      (P.rowSign * s.tableau.inverse r) ⬝ᵥ P.rhs.get =
        s.tableau.point.get (artificialColumn n k) := by
  rw [← P.signed_vecMul, ← P.dotProduct_signed_rhs]
  constructor
  · ext j
    rw [← Tableau.entries_structural hs.program_eq, hs.isExhausted r k hk hr, Pi.zero_apply]
  · rw [hs.point_get, ← hr, spread_basic hs.basis_injective, hs.basicValues_get, hs.program_eq]
    rfl

/-- Every row combines the rows that remain, up to the value of its artificial variable. -/
theorem exists_combination (k : Fin m) : ∃ c : Fin m → ℚ, (∀ i ∈ s.redundant, c i = 0) ∧
    c ᵥ* P.constraints.toMatrix = P.constraints.toMatrix k ∧
    c ⬝ᵥ P.rhs.get = P.rhs.get k - P.rowSign k * s.tableau.point.get (artificialColumn n k) := by
  have hrow : Pi.single k 1 ᵥ* P.constraints.toMatrix = P.constraints.toMatrix k :=
    Matrix.single_one_vecMul ..
  by_cases hk : k ∈ s.redundant
  · obtain ⟨r, hr⟩ := hs.exists_row hk
    obtain ⟨hzero, hvalue⟩ := hs.rowSign_mul_inverse hk hr
    -- the multipliers have the sign of the row at `k`, so they cancel the unit coefficient
    refine ⟨Pi.single k 1 - P.rowSign k • (P.rowSign * s.tableau.inverse r), fun i hi => ?_, ?_, ?_⟩
    · rw [Pi.sub_apply, Pi.smul_apply, Pi.mul_apply, hs.inverse_eq hr hi, Pi.single_apply]
      by_cases hik : i = k
      · rw [hik, if_pos rfl, mul_one, smul_eq_mul, P.rowSign_mul_self, sub_self]
      · rw [if_neg hik, if_neg (Ne.symm hik), mul_zero, smul_zero, sub_zero]
    · rw [Matrix.sub_vecMul, Matrix.smul_vecMul, hzero, smul_zero, sub_zero, hrow]
    · rw [sub_dotProduct, smul_dotProduct, hvalue, single_one_dotProduct, smul_eq_mul]
  · refine ⟨Pi.single k 1, fun i hi => ?_, hrow, ?_⟩
    · exact Pi.single_eq_of_ne (fun h : i = k => hk (h ▸ hi)) 1
    · rw [single_one_dotProduct, hs.tracks.point_artificial hs.toIsValid hk, mul_zero, sub_zero]

theorem mulVec_eq_zero_of_remaining {x : Fin n → ℚ}
    (hx : ∀ i ∉ s.redundant, (P.constraints.toMatrix *ᵥ x) i = 0) :
    P.constraints.toMatrix *ᵥ x = 0 := by
  ext k
  obtain ⟨c, hzero, hc, -⟩ := hs.exists_combination k
  exact (mulVec_of_combination hzero hc hx).trans (dotProduct_zero c)

/-- The rows that remain imply the redundant ones if no artificial variable has a value. -/
theorem constraints_of_remaining
    (hvalue : ∀ k, s.tableau.point.get (artificialColumn n k) = 0) {x : Fin n → ℚ}
    (hx : ∀ i ∉ s.redundant, (P.constraints.toMatrix *ᵥ x) i = P.rhs.get i) :
    P.constraints.toMatrix *ᵥ x = P.rhs.get := by
  ext k
  obtain ⟨c, hzero, hc, hrhs⟩ := hs.exists_combination k
  rw [mulVec_of_combination hzero hc hx, hrhs, hvalue, mul_zero, sub_zero]

theorem eq_zero_of_mulVec {x : Fin n → ℚ} (hx : P.constraints.toMatrix *ᵥ x = 0)
    (hsupport : ∀ j, s.tableau.isBasic (j.castAdd m) = false → x j = 0) : x = 0 := by
  have hsigned : P.signed.constraints.toMatrix *ᵥ x = 0 := by
    ext i
    rw [P.signed_mulVec, hx, Pi.zero_apply, mul_zero]
  have hentries : s.tableau.entries *ᵥ structuralPoint m x = 0 := by
    rw [s.tableau.entries_mulVec, hs.program_eq, auxiliary_mulVec_structuralPoint, hsigned,
      Matrix.mulVec_zero]
  ext j
  rcases hb : s.tableau.isBasic (j.castAdd m) with _ | _
  · exact hsupport j hb
  · obtain ⟨i, hi⟩ := (s.tableau.isBasic_iff _).mp hb
    have hvalue := hs.entries_mulVec_of_support (x := structuralPoint m x) (fun q hq => ?_) i
    · rw [hentries, hi, structuralPoint_castAdd] at hvalue
      exact hvalue.symm
    · rcases column_cases q with ⟨q, rfl⟩ | ⟨q, rfl⟩
      · rw [structuralPoint_castAdd]
        exact hsupport q ((s.tableau.isBasic_eq_false_iff _).mpr hq)
      · exact structuralPoint_artificial x q

theorem exists_basis : ∃ basis : Basis (remainingRows s.redundant).length n,
    Basis.ofIndices s.structuralBasis = .ok basis ∧ Function.Injective basis.get ∧
      ∀ j, (∃ i, basis.get i = j) ↔ s.tableau.isBasic (j.castAdd m) = true := by
  have hlt : ∀ j ∈ s.structuralBasis, j < n := fun j hj => by simpa using (List.mem_filter.mp hj).2
  have hlength : s.structuralBasis.length = (remainingRows s.redundant).length := by
    have hm := hs.tracks.length_structuralBasis
    have hremaining := length_remainingRows hs.tracks.nodup_redundant
    omega
  obtain ⟨basis, hbasis, hindices⟩ :=
    Basis.ofIndices_exists hlength hlt hs.tracks.nodup_structuralBasis
  refine ⟨basis, hbasis, ?_, fun j => ?_⟩
  · exact Basis.nodup_indices_iff.mp (hindices ▸ hs.tracks.nodup_structuralBasis)
  · rw [← Basis.mem_indices, hindices, mem_structuralBasis]

theorem eq_zero_of_basisMatrix {basis : Basis (remainingRows s.redundant).length n}
    (hbasic : ∀ j, (∃ i, basis.get i = j) ↔ s.tableau.isBasic (j.castAdd m) = true)
    (hinj : Function.Injective basis.get) {v : Fin (remainingRows s.redundant).length → ℚ}
    (hv : (P.withoutRows s.redundant).basisMatrix basis *ᵥ v = 0) : v = 0 := by
  rw [Program.basisMatrix, ← mulVec_spread] at hv
  have hzero : spread basis v = 0 := by
    refine hs.eq_zero_of_mulVec (hs.mulVec_eq_zero_of_remaining fun i hi => ?_) fun j hj => ?_
    · obtain ⟨k, rfl⟩ := List.mem_iff_get.mp (mem_remainingRows.mpr hi)
      rw [← P.withoutRows_mulVec]
      exact congrFun hv k
    · refine spread_nonbasic (fun i hi => ?_) v
      rw [(hbasic j).mp ⟨i, hi⟩] at hj
      cases hj
  ext i
  rw [← spread_basic hinj v i, hzero]
  rfl

theorem det_basisMatrix_ne_zero : ∃ basis : Basis (remainingRows s.redundant).length n,
    basis.indices = s.structuralBasis ∧
      ((P.withoutRows s.redundant).basisMatrix basis).det ≠ 0 := by
  obtain ⟨basis, hbasis, hinj, hbasic⟩ := hs.exists_basis
  refine ⟨basis, (Basis.of_ofIndices hbasis).1, fun hdet => ?_⟩
  obtain ⟨v, hv, hker⟩ := Matrix.exists_mulVec_eq_zero_iff.mpr hdet
  exact hv (hs.eq_zero_of_basisMatrix hbasic hinj hker)

/-- The combinations of all rows form a matrix whose columns at the redundant rows are zero. -/
theorem rank_le : P.constraints.toMatrix.rank ≤ m - s.redundant.length := by
  -- row `k` of `C` holds the coefficients that combine row `k` of the constraints
  choose C hzero hC _ using hs.exists_combination
  have hmul : Matrix.of C * P.constraints.toMatrix = P.constraints.toMatrix := by
    ext k j
    exact congrFun (hC k) j
  calc P.constraints.toMatrix.rank
      = (Matrix.of C * P.constraints.toMatrix).rank := by rw [hmul]
    _ ≤ (Matrix.of C).rank := Matrix.rank_mul_le_left ..
    _ = (Matrix.of C)ᵀ.rank := (Matrix.rank_transpose _).symm
    _ ≤ s.redundant.toFinsetᶜ.card := by
      refine Matrix.rank_le_card_of_support_subset _ _ fun i hi => ?_
      rw [Finset.mem_coe, Finset.mem_compl, List.mem_toFinset]
      exact fun hmem => hi (funext fun k => hzero k i hmem)
    _ = m - s.redundant.length := by
      rw [Finset.card_compl, Fintype.card_fin,
        List.toFinset_card_of_nodup hs.tracks.nodup_redundant]

theorem length_add_rank : s.redundant.length + P.constraints.toMatrix.rank = m := by
  obtain ⟨basis, -, hdet⟩ := hs.det_basisMatrix_ne_zero
  have hge : (remainingRows s.redundant).length ≤ P.constraints.toMatrix.rank := by
    calc (remainingRows s.redundant).length
        = ((P.withoutRows s.redundant).basisMatrix basis).rank := by
          rw [Matrix.rank_of_det_ne_zero hdet, Fintype.card_fin]
      _ ≤ P.constraints.toMatrix.rank := by
          rw [P.basisMatrix_withoutRows]
          exact Matrix.rank_submatrix_le ..
  have hle := hs.rank_le
  have hlength := length_remainingRows hs.tracks.nodup_redundant
  omega

end IsComplete
end Repair
end RevisedSimplex
