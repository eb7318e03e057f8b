import RevisedSimplex.Proofs.Dual

/-! # Bases along an iteration

Whatever the arithmetic, a pivot puts a column that is not basic and may enter in the place of a
basic one. So the basic columns stay different, and an artificial column that has left stays out.
-/

namespace RevisedSimplex.Tableau

variable {F : Type} [Scalar F] {m n : ℕ}

def MayEnter (t : Tableau F m n) (j : Fin n) : Prop :=
  j.val < t.structural ∧ ∀ k, t.basis.get k ≠ j

structure EntersNonbasic (move : Option (Fin n) → Tableau F m n → Move F m n) : Prop where
  pivot {last : Option (Fin n)} {t : Tableau F m n} {i : Fin m} {j : Fin n} {cost : F} :
    move last t = .pivot i j cost → t.MayEnter j
  unbounded {last : Option (Fin n)} {t : Tableau F m n} {j : Fin n} :
    move last t = .unbounded j → t.MayEnter j

theorem mayEnter_of_enteringColumn {t : Tableau F m n} {rule : EnteringRule}
    {last : Option (Fin n)} {q : Priced F n} (h : t.enteringColumn rule last = some q) :
    t.MayEnter q.1 := by
  obtain ⟨hj, hb, -, -⟩ := mem_profitable.mp (mem_of_enteringColumn h)
  exact ⟨mem_candidates.mp hj, (t.isBasic_eq_false_iff q.1).mp hb⟩

theorem entersNonbasic_primalMove (options : Options F) :
    EntersNonbasic (primalMove options : Option (Fin n) → Tableau F m n → Move F m n) where
  pivot h := mayEnter_of_enteringColumn (primalMove_eq_pivot h).1
  unbounded h := by
    obtain ⟨cost, he⟩ := (primalMove_eq_unbounded h).1
    exact mayEnter_of_enteringColumn he

theorem entersNonbasic_dualMove :
    EntersNonbasic fun (_ : Option (Fin n)) (t : Tableau F m n) => t.dualMove where
  pivot {last t i j cost} h := by
    have hj := (minimizers_sublist _ _ _).subset (List.mem_of_head? (dualMove_eq_pivot h).2)
    obtain ⟨hlt, hb⟩ := mem_nonbasicCandidates.mp (List.mem_filter.mp hj).1
    exact ⟨hlt, (t.isBasic_eq_false_iff j).mp hb⟩
  unbounded h := absurd h (dualMove_ne_unbounded _ _)

/-- The basis of `t'` is that of `t` with the nonbasic column `j` in row `i`. -/
structure IsReplacement (t t' : Tableau F m n) (i : Fin m) (j : Fin n) : Prop where
  basis_eq : t'.basis = t.basis.set i j i.isLt
  artificial_eq : t'.artificial = t.artificial
  mayEnter : t.MayEnter j

/-- The basic columns are different, and the last `artificial` columns may not enter. -/
structure IsProper (artificial : ℕ) (t : Tableau F m n) : Prop where
  injective : Function.Injective t.basis.get
  artificial_eq : t.artificial = artificial

theorem isProper_of_ofIndices {P : Program F m n} {indices : List ℕ} {tolerance : F}
    {artificial : ℕ} {t : Tableau F m n} (h : ofIndices P indices tolerance artificial = .ok t) :
    t.IsProper artificial := by
  unfold ofIndices at h
  split at h
  · rename_i basis hbasis
    obtain ⟨-, -, hb, -, ha⟩ := eq_of_ofBasis h
    obtain ⟨hi, hd⟩ := Basis.of_ofIndices hbasis
    exact ⟨Basis.nodup_indices_iff.mp (hb ▸ hi ▸ hd), ha⟩
  · cases h

theorem isReplacement_of_pivot {t t' : Tableau F m n} {i : Fin m} {j : Fin n}
    (hj : t.MayEnter j) (h : t.pivot i j = .ok t') : IsReplacement t t' i j := by
  obtain ⟨-, -, hb, -, ha⟩ := eq_of_ofBasis h
  exact ⟨hb, ha, hj⟩

namespace IsReplacement

variable {t t' : Tableau F m n} {i : Fin m} {j : Fin n} (h : IsReplacement t t' i j)

omit [Scalar F]

include h

theorem basis_get (k : Fin m) : t'.basis.get k = if k = i then j else t.basis.get k := by
  rw [h.basis_eq, set_get]

theorem isProper {artificial : ℕ} (ht : t.IsProper artificial) : t'.IsProper artificial :=
  ⟨h.basis_eq ▸ injective_set ht.injective i h.mayEnter.2, h.artificial_eq.trans ht.artificial_eq⟩

theorem mem_indices_of_le {c : ℕ} (hc : c ∈ t'.basis.indices) (hle : t.structural ≤ c) :
    c ∈ t.basis.indices := by
  obtain ⟨k, rfl⟩ : ∃ k : Fin n, c = k.val := ⟨⟨c, Basis.lt_of_mem_indices hc⟩, rfl⟩
  obtain ⟨l, hl⟩ := Basis.mem_indices.mp hc
  rw [h.basis_get] at hl
  split at hl
  · exact absurd h.mayEnter.1 (not_lt.mpr (hl ▸ hle))
  · exact Basis.mem_indices.mpr ⟨l, hl⟩

end IsReplacement

section Path

variable {move : Option (Fin n) → Tableau F m n → Move F m n} (hmove : EntersNonbasic move)

include hmove

theorem Step.isReplacement {s s' : Position F m n} (h : Step move s s') :
    ∃ i j, IsReplacement s.tableau s'.tableau i j := by
  obtain ⟨i, j, cost, hm, -, ht'⟩ := h.spec
  exact ⟨i, j, isReplacement_of_pivot (hmove.pivot hm) ht'⟩

variable {p : ℕ → Position F m n} {k artificial : ℕ} (hp : IsPath move p k)
  (h0 : (p 0).tableau.IsProper artificial)

include hp h0

theorem IsPath.isProper : ∀ l ≤ k, (p l).tableau.IsProper artificial := by
  refine hp.invariant (P := fun s => s.tableau.IsProper artificial) (fun s s' hs hstep => ?_) h0
  obtain ⟨i, j, h⟩ := hstep.isReplacement hmove
  exact h.isProper hs

/-- A column that may not enter is basic later only if it was basic all the time. -/
theorem IsPath.mem_indices_of_le {a b c : ℕ} (hab : a ≤ b) (hb : b ≤ k)
    (hc : c ∈ (p b).tableau.basis.indices) (hle : n - artificial ≤ c) :
    c ∈ (p a).tableau.basis.indices := by
  induction b, hab using Nat.le_induction with
  | base => exact hc
  | succ b _ ih =>
    obtain ⟨i, j, h⟩ := (hp b hb).isReplacement hmove
    refine ih (Nat.le_of_succ_le hb) (h.mem_indices_of_le hc ?_)
    rwa [structural, (hp.isProper hmove h0 b (Nat.le_of_succ_le hb)).artificial_eq]

end Path

end RevisedSimplex.Tableau
