import RevisedSimplex.Proofs.Cycling
import RevisedSimplex.Proofs.LeavingRow

/-! # Progress of the primal method

A pivot decreases the objective by the relative cost of the entering column times the minimal ratio,
which is not negative. Between two tableaux with the same basic columns nothing is gained, so every
pivot is degenerate and the basic solution stays.
-/

namespace RevisedSimplex
namespace Tableau

variable {m n : ℕ}

namespace IsPrimalPivot

variable {t t' : Tableau ℚ m n} {i : Fin m} {j : Fin n} (h : IsPrimalPivot t t' i j)

include h

theorem objective_le (ht : t.IsBasicFeasible) : t'.objective ≤ t.objective := by
  rw [h.objective_eq ht.toIsValid, sub_le_self_iff]
  exact mul_nonneg (div_nonneg h.profitable.le h.entry_pos.le) (ht.basicValues_nonneg i)

theorem value_eq_zero (ht : t.IsValid) (he : t'.objective = t.objective) :
    t.basicValues.get i = 0 := by
  rw [h.objective_eq ht, sub_eq_self] at he
  exact (mul_eq_zero.mp he).resolve_left (div_pos h.profitable h.entry_pos).ne'

end IsPrimalPivot

/-- Basic feasible tableaux, each of them a primal pivot after the one before. -/
structure IsPrimalSequence (T : ℕ → Tableau ℚ m n) (k : ℕ) : Prop where
  feasible : ∀ l ≤ k, (T l).IsBasicFeasible
  pivot : ∀ l < k, ∃ i j, IsPrimalPivot (T l) (T (l + 1)) i j

namespace IsPrimalSequence

variable {T : ℕ → Tableau ℚ m n} {k : ℕ} (h : IsPrimalSequence T k)

include h

theorem program_eq {l : ℕ} (hl : l ≤ k) : (T l).program = (T 0).program := by
  induction l with
  | zero => rfl
  | succ l ih =>
    obtain ⟨i, j, hpivot⟩ := h.pivot l hl
    exact hpivot.program_eq.trans (ih (Nat.le_of_succ_le hl))

theorem objective_anti {a b : ℕ} (hab : a ≤ b) (hb : b ≤ k) :
    (T b).objective ≤ (T a).objective := by
  induction b, hab using Nat.le_induction with
  | base => exact le_rfl
  | succ b _ ih =>
    obtain ⟨i, j, hpivot⟩ := h.pivot b hb
    have hle := Nat.le_of_succ_le hb
    exact (hpivot.objective_le (h.feasible b hle)).trans (ih hle)

variable {a b : ℕ} (hb : b ≤ k) (hclosed : (T b).basicColumns = (T a).basicColumns)

include hb hclosed

theorem objective_eq {l : ℕ} (hal : a ≤ l) (hlb : l ≤ b) : (T l).objective = (T a).objective := by
  have ha := (hal.trans hlb).trans hb
  have hend : (T b).objective = (T a).objective :=
    (h.feasible a ha).objective_eq_of_basicColumns (h.feasible b hb).toIsValid
      ((h.program_eq hb).trans (h.program_eq ha).symm) hclosed
  exact le_antisymm (h.objective_anti hal (hlb.trans hb)) (hend ▸ h.objective_anti hlb hb)

theorem value_eq_zero {l : ℕ} (hal : a ≤ l) (hlb : l < b) {i : Fin m} {j : Fin n}
    (hpivot : IsPrimalPivot (T l) (T (l + 1)) i j) : (T l).basicValues.get i = 0 := by
  refine hpivot.value_eq_zero (h.feasible l (hlb.le.trans hb)).toIsValid ?_
  rw [h.objective_eq hb hclosed (Nat.le_succ_of_le hal) hlb, h.objective_eq hb hclosed hal hlb.le]

theorem point_eq {l : ℕ} (hal : a ≤ l) (hlb : l ≤ b) : (T l).point.get = (T a).point.get := by
  induction l, hal using Nat.le_induction with
  | base => rfl
  | succ l hal ih =>
    obtain ⟨i, j, hpivot⟩ := h.pivot l (hlb.trans hb)
    have hle := Nat.le_of_succ_le hlb
    rw [hpivot.point_eq (h.feasible l (hle.trans hb)).toIsValid
      (h.value_eq_zero hb hclosed hal hlb hpivot), ih hle]

end IsPrimalSequence

theorem IsBasicFeasible.isPrimalSequence {t : Tableau ℚ m n} (ht : t.IsBasicFeasible)
    {options : Options ℚ} {p : ℕ → Position ℚ m n} {k : ℕ} (hp : IsPath (primalMove options) p k)
    (h0 : (p 0).tableau = t) : IsPrimalSequence (fun l => (p l).tableau) k := by
  have hpath := ht.continues_path hp h0
  refine ⟨fun l hl => (hpath l hl).toIsBasicFeasible, fun l hl => ?_⟩
  obtain ⟨i, j, -, -, -, hpivot⟩ := (hpath l hl.le).toIsExact.isPrimalPivot_of_step rfl (hp l hl)
  exact ⟨i, j, hpivot⟩

end Tableau

/-- A degenerate program with a cycle under the largest cost and the first minimum. -/
def bealeProgram : Program ℚ 3 7 :=
  ⟨#v[0, 0, 0, -3 / 4, 20, -1 / 2, 6],
    ⟨#v[#v[1, 0, 0, 1 / 4, -8, -1, 9],
      #v[0, 1, 0, 1 / 2, -12, -1 / 2, 3],
      #v[0, 0, 1, 0, 0, 1, 0]]⟩,
    #v[0, 0, 1]⟩

end RevisedSimplex
