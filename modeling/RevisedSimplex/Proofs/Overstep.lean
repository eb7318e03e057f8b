import RevisedSimplex.Proofs.Phases
import RevisedSimplex.Proofs.Unimodular

/-! # Pivots that leave the feasible region

A ratio test keeps the rows that it compares above zero up to the tolerance. A pivot can fall short
of that where the variable that leaves is negative already, or in a row whose entry is too small to
be compared. Without such a pivot all points of a run are nonnegative up to the tolerance.
-/

namespace RevisedSimplex

open Matrix

variable {m n : ℕ}

namespace Tableau

def ratio (t : Tableau ℚ m n) (i : Fin m) (j : Fin n) : ℚ := t.basicValues.get i / t.entries i j

/-- The entering variable falls below zero by more than the tolerance, or the variable of a row
does that the ratio test ignores. -/
def Oversteps (t : Tableau ℚ m n) (i : Fin m) (j : Fin n) : Prop :=
  t.ratio i j < -t.tolerance ∨ ∃ l ≠ i, t.entries l j ≤ t.tolerance ∧
    t.basicValues.get l + t.tolerance < t.ratio i j * t.entries l j

variable {t t' : Tableau ℚ m n} {i : Fin m} {j : Fin n}

theorem IsExchange.basicValues_get (h : IsExchange t t' i j) (ht : t.IsValid) (l : Fin m) :
    t'.basicValues.get l = if l = i then t.ratio i j
      else t.basicValues.get l - t.ratio i j * t.entries l j := by
  split
  · rename_i hl
    rw [hl, h.basicValues_pivot ht, ratio]
  · rename_i hl
    rw [h.basicValues_other ht hl, ratio]
    ring

theorem Oversteps.not_isPrimalFeasible (ho : t.Oversteps i j) (h : IsExchange t t' i j)
    (ht : t.IsValid) : ¬ t'.isPrimalFeasible = true := by
  rw [isPrimalFeasible_iff, h.tolerance_eq]
  intro hf
  rcases ho with hratio | ⟨l, hl, -, hlt⟩
  · have hi := hf i
    rw [h.basicValues_get ht, if_pos rfl] at hi
    exact absurd hratio (not_lt.mpr hi)
  · have hvalue := hf l
    rw [h.basicValues_get ht, if_neg hl] at hvalue
    linarith

theorem IsValid.ratio_mul_le (ht : t.IsValid) {rule : LeavingRule}
    (hi : t.leavingRow rule (t.column j) = some i) {l : Fin m} (hl : t.tolerance < t.entries l j) :
    t.ratio i j * t.entries l j ≤ t.basicValues.get l + t.tolerance := by
  have hle := ratio_mul_le_of_leavingRow (l := l) ht.tolerance_nonneg hi (by rwa [column_get])
  rwa [column_get, column_get] at hle

/-- A pivot of the primal method leads to a feasible tableau unless it oversteps. -/
theorem IsExchange.isPrimalFeasible_iff (h : IsExchange t t' i j) (ht : t.IsValid)
    {rule : LeavingRule} (hi : t.leavingRow rule (t.column j) = some i) :
    t'.isPrimalFeasible = true ↔ ¬ t.Oversteps i j := by
  refine ⟨fun hf ho => ho.not_isPrimalFeasible h ht hf, fun ho => ?_⟩
  rw [Oversteps, not_or] at ho
  obtain ⟨hratio, hignored⟩ := ho
  push Not at hratio hignored
  rw [Tableau.isPrimalFeasible_iff, h.tolerance_eq]
  intro l
  rw [h.basicValues_get ht]
  split
  · exact hratio
  · rename_i hl
    have hle : t.ratio i j * t.entries l j ≤ t.basicValues.get l + t.tolerance := by
      rcases lt_or_ge t.tolerance (t.entries l j) with hcompared | hsmall
      · exact ht.ratio_mul_le hi hcompared
      · exact hignored l hl hsmall
    linarith

/-- No basic value and no entry is so close to zero that the tolerance hides its sign. -/
structure IsSeparated (t : Tableau ℚ m n) : Prop where
  basicValues : ∀ i, -t.tolerance ≤ t.basicValues.get i → 0 ≤ t.basicValues.get i
  entries : ∀ i j, 0 < t.entries i j → t.tolerance < t.entries i j

theorem IsSeparated.not_oversteps (hs : t.IsSeparated) (htol : 0 ≤ t.tolerance)
    (hf : t.isPrimalFeasible = true) (hpos : 0 < t.entries i j) : ¬ t.Oversteps i j := by
  have hvalue : ∀ l, 0 ≤ t.basicValues.get l := fun l =>
    hs.basicValues l ((t.isPrimalFeasible_iff).mp hf l)
  have hratio : 0 ≤ t.ratio i j := div_nonneg (hvalue i) hpos.le
  rintro (hlt | ⟨l, -, hsmall, hlt⟩)
  · linarith
  · have hentry : t.entries l j ≤ 0 := by
      by_contra hl
      exact absurd (hs.entries l j (not_le.mp hl)) (not_lt.mpr hsmall)
    linarith [hvalue l, mul_nonpos_of_nonneg_of_nonpos hratio hentry]

theorem isSeparated_of_tolerance_eq (h0 : t.tolerance = 0) : t.IsSeparated :=
  ⟨fun _ h => by rwa [h0, neg_zero] at h, fun _ _ h => by rwa [h0]⟩

theorem IsIntegral.isSeparated (h : t.IsIntegral) (h1 : t.tolerance < 1) : t.IsSeparated := by
  obtain ⟨⟨E, hE⟩, v, hv⟩ := h
  constructor
  · intro i hi
    rw [hv] at hi ⊢
    have hlt : (-1 : ℚ) < (v i : ℚ) := by
      have hi' : -t.tolerance ≤ (v i : ℚ) := hi
      linarith
    have hint : (-1 : ℤ) < v i := by exact_mod_cast hlt
    have hge : (0 : ℤ) ≤ v i := by omega
    change (0 : ℚ) ≤ (v i : ℚ)
    exact_mod_cast hge
  · intro i j hpos
    rw [hE] at hpos ⊢
    have hint : 0 < E i j := by
      have hpos' : (0 : ℚ) < (E i j : ℚ) := hpos
      exact_mod_cast hpos'
    have hge : (1 : ℚ) ≤ (E i j : ℚ) := by exact_mod_cast hint
    exact h1.trans_le hge

end Tableau

inductive Visit.Oversteps : Visit ℚ → Visit ℚ → Prop where
  | exchange {m n k k' : ℕ} {phase phase' : Phase} {t t' : Tableau ℚ m n} {i : Fin m} {j : Fin n} :
      Tableau.IsExchange t t' i j → t.Oversteps i j →
      Oversteps ⟨phase, k, t⟩ ⟨phase', k', t'⟩

namespace Tableau

section Steps

variable {options : Options ℚ} {s s' : Position ℚ m n} (hs : s.tableau.IsValid)
  (h : Step (primalMove options) s s')

include hs h

theorem isPrimalFeasible_step_iff (phase phase' : Phase) (k k' : ℕ) :
    s'.tableau.isPrimalFeasible = true ↔
      ¬ Visit.Oversteps ⟨phase, k, s.tableau⟩ ⟨phase', k', s'.tableau⟩ := by
  obtain ⟨i, j, cost, hm, -, hexchange⟩ := hs.isExchange_of_step h
  constructor
  · intro hf ho
    cases ho with
    | exchange h ho => exact ho.not_isPrimalFeasible h hs hf
  · intro ho
    rw [hexchange.isPrimalFeasible_iff hs (primalMove_eq_pivot hm).2]
    exact fun h => ho (.exchange hexchange h)

theorem IsSeparated.isPrimalFeasible_step (hseparated : s.tableau.IsSeparated)
    (hf : s.tableau.isPrimalFeasible = true) : s'.tableau.isPrimalFeasible = true := by
  obtain ⟨i, j, cost, hm, -, hexchange⟩ := hs.isExchange_of_step h
  have hl := (primalMove_eq_pivot hm).2
  rw [hexchange.isPrimalFeasible_iff hs hl]
  have hentry := (mem_tiedRows.mp (mem_tiedRows_of_leavingRow hl)).1
  rw [column_get] at hentry
  exact hseparated.not_oversteps hs.tolerance_nonneg hf (hs.tolerance_nonneg.trans_lt hentry)

end Steps

section Phase

variable {t : Tableau ℚ m n} (ht : t.IsValid) (hf : t.isPrimalFeasible = true) (phase : Phase)
  (options : Options ℚ)

include ht hf

theorem isPrimalFeasible_visits_iff :
    (∀ v ∈ (t.primal phase options).visits, v.tableau.isPrimalFeasible = true) ↔
      (t.primal phase options).visits.IsChain fun v v' => ¬ v.Oversteps v' := by
  obtain ⟨p, k, hp, hpath, -, hvisits, -⟩ := t.primal_spec phase options
  have hvalid : ∀ l ≤ k, (p l).tableau.IsValid := fun l hl =>
    (ht.follows_path hpath (by rw [hp]) l hl).toIsValid
  rw [hvisits, visitsOf, List.isChain_map, List.isChain_range_succ]
  simp only [List.forall_mem_map, List.mem_range, Nat.lt_succ_iff]
  constructor
  · intro hall l hl
    exact (isPrimalFeasible_step_iff (hvalid l hl.le) (hpath l hl) ..).mp (hall (l + 1) hl)
  · rintro hsteps (_ | l) hl
    · rw [hp]
      exact hf
    · exact (isPrimalFeasible_step_iff (hvalid l (Nat.le_of_succ_le hl)) (hpath l hl) ..).mpr
        (hsteps l hl)

theorem isPrimalFeasible_of_isSeparated
    (hseparated : ∀ v ∈ (t.primal phase options).visits, v.tableau.IsSeparated) :
    ∀ v ∈ (t.primal phase options).visits, v.tableau.isPrimalFeasible = true := by
  obtain ⟨p, k, hp, hpath, -, hvisits, -⟩ := t.primal_spec phase options
  rw [hvisits, visitsOf] at hseparated ⊢
  simp only [List.forall_mem_map, List.mem_range, Nat.lt_succ_iff] at hseparated ⊢
  intro l hl
  induction l with
  | zero =>
    rw [hp]
    exact hf
  | succ l ih =>
    have hlk := Nat.le_of_succ_le hl
    have hvalid := (ht.follows_path hpath (by rw [hp]) l hlk).toIsValid
    exact (hseparated l hlk).isPrimalFeasible_step hvalid (hpath l hl) (ih hlk)

end Phase
end Tableau
end RevisedSimplex
