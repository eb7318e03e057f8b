import RevisedSimplex.Proofs.Evaluation
import RevisedSimplex.Solver

/-! # Removal of redundant rows

A program without some rows is a reduction of the whole one if the rows that remain imply
the removed ones. Its prices, with zeros inserted at the removed rows, are prices of the
whole program.
-/

namespace RevisedSimplex

open Matrix

variable {m n : ℕ}

theorem mem_remainingRows {removed : List (Fin m)} {i : Fin m} :
    i ∈ remainingRows removed ↔ i ∉ removed := by
  simp [remainingRows]

theorem nodup_remainingRows (removed : List (Fin m)) : (remainingRows removed).Nodup :=
  (List.nodup_finRange m).filter _

theorem length_remainingRows {removed : List (Fin m)} (hd : removed.Nodup) :
    (remainingRows removed).length + removed.length = m := by
  have hperm : ((List.finRange m).filter fun i => !decide (i ∉ removed)).Perm removed := by
    rw [List.perm_ext_iff_of_nodup ((List.nodup_finRange m).filter _) hd]
    simp
  have hsplit := (List.finRange m).length_eq_length_filter_add (· ∉ removed)
  rw [List.length_finRange, hperm.length_eq] at hsplit
  exact hsplit.symm

theorem insertIdx_append {α : Type} {l : List α} {k : ℕ} (hk : l.length = k) (r : List α)
    (a : α) : (l ++ r).insertIdx k a = l ++ a :: r := by
  subst hk
  induction l with
  | nil => rfl
  | cons b l ih => rw [List.cons_append, List.length_cons, List.insertIdx_succ_cons, ih]; rfl

theorem exists_finRange_eq_append (r : Fin m) :
    ∃ before after, List.finRange m = before ++ r :: after ∧ before.length = r ∧
      (∀ i ∈ before, i < r) ∧ ∀ i ∈ after, r < i := by
  have hlen : r.val < (List.finRange m).length := by simp
  have hsplit : List.finRange m =
      (List.finRange m).take r ++ r :: (List.finRange m).drop (r + 1) := by
    have hd := List.drop_eq_getElem_cons hlen
    rw [List.getElem_finRange] at hd
    calc List.finRange m = (List.finRange m).take r ++ (List.finRange m).drop r :=
          (List.take_append_drop ..).symm
      _ = _ := by rw [hd]; rfl
  have hsorted := List.pairwise_lt_finRange m
  rw [hsplit, List.pairwise_append] at hsorted
  obtain ⟨-, hafter, hbefore⟩ := hsorted
  exact ⟨_, _, hsplit, by simp, fun i hi => hbefore i hi r (List.mem_cons_self ..),
    fun i hi => List.rel_of_pairwise_cons hafter hi⟩

theorem remainingRows_cons_insertIdx {removed : List (Fin m)} {r : Fin m}
    (hr : ∀ i ∈ removed, r < i) :
    (remainingRows (r :: removed)).insertIdx r r = remainingRows removed := by
  obtain ⟨before, after, hsplit, hlen, hbefore, hafter⟩ := exists_finRange_eq_append r
  have hkept : ∀ R : List (Fin m), (∀ i ∈ R, r ≤ i) → before.filter (· ∉ R) = before := by
    intro R hR
    rw [List.filter_eq_self]
    exact fun i hi => decide_eq_true fun h => absurd (hbefore i hi) (not_lt.mpr (hR i h))
  have hrest : after.filter (· ∉ r :: removed) = after.filter (· ∉ removed) := by
    apply List.filter_congr
    intro i hi
    simp [(hafter i hi).ne']
  have hr' : ∀ i ∈ r :: removed, r ≤ i := by
    rintro i hi
    rcases List.mem_cons.mp hi with rfl | hi
    · exact le_rfl
    · exact (hr i hi).le
  rw [remainingRows, remainingRows, hsplit, List.filter_append, List.filter_append,
    hkept _ hr', hkept removed fun i hi => (hr i hi).le, List.filter_cons_of_neg (by simp),
    List.filter_cons_of_pos (by simpa using fun h => lt_irrefl r (hr r h)), hrest]
  exact insertIdx_append hlen _ _

/-- Inserting zeros at the removed rows completes the values of the others. -/
theorem insertZeros_map {removed : List (Fin m)} (hs : removed.Pairwise (· < ·)) {y : Fin m → ℚ}
    (hy : ∀ i ∈ removed, y i = 0) :
    insertZeros (removed.map Fin.val) ((remainingRows removed).map y) = List.ofFn y := by
  induction removed with
  | nil =>
    rw [List.ofFn_eq_map]
    simp [insertZeros, remainingRows]
  | cons r removed ih =>
    rw [List.pairwise_cons] at hs
    have hstep : ((remainingRows (r :: removed)).map y).insertIdx r 0 =
        (remainingRows removed).map y := by
      rw [← hy r (List.mem_cons_self ..), ← List.map_insertIdx,
        remainingRows_cons_insertIdx hs.1]
    change insertZeros (removed.map Fin.val)
      (((remainingRows (r :: removed)).map y).insertIdx r 0) = _
    rw [hstep, ih hs.2 fun i hi => hy i (List.mem_cons_of_mem _ hi)]

def completed (removed : List (Fin m)) (v : Vector ℚ (remainingRows removed).length) :
    Fin m → ℚ :=
  fun i => ((remainingRows removed).finIdxOf? i).elim 0 v.get

theorem completed_get (removed : List (Fin m)) (v : Vector ℚ (remainingRows removed).length)
    (k : Fin (remainingRows removed).length) :
    completed removed v ((remainingRows removed).get k) = v.get k := by
  have hk : (remainingRows removed).finIdxOf? ((remainingRows removed).get k) = some k := by
    refine List.finIdxOf?_eq_some_iff.mpr ⟨rfl, fun l hl he => hl.ne ?_⟩
    exact (nodup_remainingRows removed).injective_get he
  rw [completed, hk, Option.elim_some]

theorem completed_of_mem {removed : List (Fin m)} {i : Fin m} (hi : i ∈ removed)
    (v : Vector ℚ (remainingRows removed).length) : completed removed v i = 0 := by
  have hnone : (remainingRows removed).finIdxOf? i = none :=
    List.finIdxOf?_eq_none_iff.mpr fun h => mem_remainingRows.mp h hi
  rw [completed, hnone, Option.elim_none]

theorem insertZeros_eq {removed : List (Fin m)} (hs : removed.Pairwise (· < ·))
    (v : Vector ℚ (remainingRows removed).length) :
    insertZeros (removed.map Fin.val) v.toList = List.ofFn (completed removed v) := by
  have hv : v.toList = (remainingRows removed).map (completed removed v) := by
    rw [toList_eq_ofFn]
    apply List.ext_getElem
    · simp
    · intro k hk hk'
      rw [List.length_ofFn] at hk
      rw [List.getElem_ofFn, List.getElem_map]
      exact (completed_get removed v ⟨k, hk⟩).symm
  rw [hv]
  apply insertZeros_map hs
  exact fun i hi => completed_of_mem hi v

theorem completed_dotProduct (removed : List (Fin m))
    (v : Vector ℚ (remainingRows removed).length) (f : Fin m → ℚ) :
    completed removed v ⬝ᵥ f = v.get ⬝ᵥ fun k => f ((remainingRows removed).get k) := by
  have hsum : ∑ i ∈ (remainingRows removed).toFinset, completed removed v i * f i =
      ∑ k, v.get k * f ((remainingRows removed).get k) := by
    rw [List.sum_toFinset _ (nodup_remainingRows removed), ← List.sum_ofFn]
    congr 1
    apply List.ext_getElem
    · simp
    · intro k hk hk'
      rw [List.length_map] at hk
      rw [List.getElem_map, List.getElem_ofFn]
      exact congrArg (· * _) (completed_get removed v ⟨k, hk⟩)
  rw [dotProduct, dotProduct, ← hsum]
  symm
  apply Finset.sum_subset (Finset.subset_univ _)
  intro i _ hi
  rw [List.mem_toFinset, mem_remainingRows, not_not] at hi
  rw [completed_of_mem hi, zero_mul]

namespace Program

/-- `Q` has the costs and the feasible points of `P`, and its prices become prices of `P` when
zeros are inserted at the removed rows. -/
structure IsReduction {k : ℕ} (P : Program ℚ m n) (removed : List ℕ) (Q : Program ℚ k n) :
    Prop where
  cost_eq : Q.cost = P.cost
  isFeasible_iff : ∀ x, Q.IsFeasible x ↔ P.IsFeasible x
  price : ∀ v : Vector ℚ k, ∃ y : Fin m → ℚ, insertZeros removed v.toList = List.ofFn y ∧
    y ⬝ᵥ P.rhs.get = v.get ⬝ᵥ Q.rhs.get ∧
    y ᵥ* P.constraints.toMatrix = v.get ᵥ* Q.constraints.toMatrix

theorem IsReduction.refl (P : Program ℚ m n) : IsReduction P [] P where
  cost_eq := rfl
  isFeasible_iff _ := Iff.rfl
  price v := ⟨v.get, toList_eq_ofFn v, rfl, rfl⟩

theorem withoutRows_mulVec (P : Program ℚ m n) (removed : List (Fin m)) (x : Fin n → ℚ)
    (k : Fin (remainingRows removed).length) :
    ((P.withoutRows removed).constraints.toMatrix *ᵥ x) k =
      (P.constraints.toMatrix *ᵥ x) ((remainingRows removed).get k) := by
  simp [withoutRows, Matrix.mulVec, dotProduct]

theorem withoutRows_rhs_get {F : Type} (P : Program F m n) (removed : List (Fin m))
    (k : Fin (remainingRows removed).length) :
    (P.withoutRows removed).rhs.get k = P.rhs.get ((remainingRows removed).get k) := by
  simp [withoutRows]

theorem withoutRows_mulVec_eq_iff (P : Program ℚ m n) (removed : List (Fin m))
    (x : Fin n → ℚ) :
    (P.withoutRows removed).constraints.toMatrix *ᵥ x = (P.withoutRows removed).rhs.get ↔
      ∀ i ∉ removed, (P.constraints.toMatrix *ᵥ x) i = P.rhs.get i := by
  rw [funext_iff]
  simp only [withoutRows_mulVec, withoutRows_rhs_get]
  constructor
  · intro h i hi
    obtain ⟨k, rfl⟩ := List.mem_iff_get.mp (mem_remainingRows.mpr hi)
    exact h k
  · exact fun h k => h _ (mem_remainingRows.mp (List.get_mem ..))

/-- `Q` has the costs of `P` and its rows that are not removed. Its prices become prices of `P` when
zeros are inserted at the removed rows. -/
structure IsRestriction {k : ℕ} (P : Program ℚ m n) (removed : List (Fin m)) (Q : Program ℚ k n) :
    Prop where
  cost_eq : Q.cost = P.cost
  mulVec_eq_iff : ∀ x, Q.constraints.toMatrix *ᵥ x = Q.rhs.get ↔
    ∀ i ∉ removed, (P.constraints.toMatrix *ᵥ x) i = P.rhs.get i
  price : ∀ v : Vector ℚ k, ∃ y : Fin m → ℚ,
    insertZeros (removed.map Fin.val) v.toList = List.ofFn y ∧ (∀ i ∈ removed, y i = 0) ∧
      y ⬝ᵥ P.rhs.get = v.get ⬝ᵥ Q.rhs.get ∧
      y ᵥ* P.constraints.toMatrix = v.get ᵥ* Q.constraints.toMatrix

theorem IsRestriction.refl (P : Program ℚ m n) : IsRestriction P [] P where
  cost_eq := rfl
  mulVec_eq_iff x := by simp [funext_iff]
  price v := ⟨v.get, toList_eq_ofFn v, nofun, rfl, rfl⟩

theorem isRestriction_withoutRows (P : Program ℚ m n) {removed : List (Fin m)}
    (hs : removed.Pairwise (· < ·)) : IsRestriction P removed (P.withoutRows removed) where
  cost_eq := rfl
  mulVec_eq_iff := P.withoutRows_mulVec_eq_iff removed
  price v := by
    refine ⟨completed removed v, insertZeros_eq hs v, fun i hi => completed_of_mem hi v, ?_, ?_⟩
    · rw [completed_dotProduct]
      congr 1
      exact funext fun k => (withoutRows_rhs_get P removed k).symm
    · ext j
      change completed removed v ⬝ᵥ P.constraints.toMatrix.col j = _
      rw [completed_dotProduct]
      change _ = v.get ⬝ᵥ (P.withoutRows removed).constraints.toMatrix.col j
      congr 1
      ext k
      simp [withoutRows]

theorem IsRestriction.isReduction {k : ℕ} {P : Program ℚ m n} {removed : List (Fin m)}
    {Q : Program ℚ k n} (h : IsRestriction P removed Q)
    (himp : ∀ x, (∀ i ∉ removed, (P.constraints.toMatrix *ᵥ x) i = P.rhs.get i) →
      P.constraints.toMatrix *ᵥ x = P.rhs.get) :
    IsReduction P (removed.map Fin.val) Q where
  cost_eq := h.cost_eq
  isFeasible_iff x := by
    refine and_congr_right fun _ => ?_
    rw [h.mulVec_eq_iff]
    exact ⟨himp x, fun hx i _ => congrFun hx i⟩
  price v := by
    obtain ⟨y, hy, -, hrhs, hcol⟩ := h.price v
    exact ⟨y, hy, hrhs, hcol⟩

end Program
end RevisedSimplex
