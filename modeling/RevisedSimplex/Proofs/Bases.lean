import RevisedSimplex.Proofs.Matrix

/-! # Lists of basic columns

A list of indices is a basis if it names as many different columns as there are rows. A basis
stays one when a column that is not basic takes the place of one that is.
-/

namespace RevisedSimplex

variable {m n : ℕ}

theorem set_get (basis : Basis m n) (i : Fin m) (j : Fin n) (k : Fin m) :
    (basis.set i j i.isLt).get k = if k = i then j else basis.get k := by
  rw [get_eq_getElem, get_eq_getElem, Fin.getElem_fin, Vector.getElem_set]
  simp only [Fin.val_inj, eq_comm, Fin.getElem_fin]

theorem injective_set {basis : Basis m n} (hb : Function.Injective basis.get) (i : Fin m)
    {j : Fin n} (hj : ∀ l, basis.get l ≠ j) : Function.Injective (basis.set i j i.isLt).get := by
  intro k l h
  simp only [set_get] at h
  split at h <;> split at h
  · simp_all
  · exact absurd h.symm (hj l)
  · exact absurd h (hj k)
  · exact hb h

namespace Basis

theorem mem_indices {basis : Basis m n} {j : Fin n} :
    j.val ∈ basis.indices ↔ ∃ i, basis.get i = j := by
  rw [indices, List.mem_map_of_injective Fin.val_injective, toList_eq_ofFn, List.mem_ofFn]

theorem lt_of_mem_indices {basis : Basis m n} {j : ℕ} (h : j ∈ basis.indices) : j < n := by
  obtain ⟨k, -, rfl⟩ := List.mem_map.mp h
  exact k.isLt

theorem nodup_indices_iff {basis : Basis m n} :
    basis.indices.Nodup ↔ Function.Injective basis.get := by
  rw [indices, List.nodup_map_iff Fin.val_injective, toList_eq_ofFn, List.nodup_ofFn]

theorem indices_set (basis : Basis m n) (i : Fin m) (j : Fin n) :
    indices (basis.set i j i.isLt) = basis.indices.set i j := by
  rw [indices, Vector.toList_set, List.map_set, indices]

@[simp] theorem length_indices (basis : Basis m n) : basis.indices.length = m := by
  simp [indices]

theorem of_ofIndices {indices : List ℕ} {basis : Basis m n} (h : ofIndices indices = .ok basis) :
    basis.indices = indices ∧ indices.Nodup := by
  unfold ofIndices at h
  split at h
  · rename_i hm
    subst hm
    split at h
    · cases h
    · split at h
      · rename_i hd
        cases h
        refine ⟨?_, hd⟩
        apply List.ext_getElem <;> simp [Basis.indices]
      · cases h
  · cases h

theorem ofIndices_exists {indices : List ℕ} (hm : indices.length = m)
    (hn : ∀ j ∈ indices, j < n) (hd : indices.Nodup) :
    ∃ basis : Basis m n, ofIndices indices = .ok basis ∧ basis.indices = indices := by
  suffices h : ∃ basis : Basis m n, ofIndices indices = .ok basis by
    obtain ⟨basis, h⟩ := h
    exact ⟨basis, h, (of_ofIndices h).1⟩
  have hf : indices.find? (n ≤ ·) = none := by simpa using hn
  rw [ofIndices, dif_pos hm]
  split
  · rename_i he
    rw [hf] at he
    cases he
  · rw [if_pos hd]
    exact ⟨_, rfl⟩

theorem indices_injective : Function.Injective (indices : Basis m n → List ℕ) := by
  intro basis basis' h
  exact Vector.toList_inj.mp (List.map_injective_iff.mpr Fin.val_injective h)

theorem exists_indices_eq_iff {Q : Basis m n → Prop} {indices : List ℕ} {basis : Basis m n}
    (h : basis.indices = indices) : (∃ basis', basis'.indices = indices ∧ Q basis') ↔ Q basis := by
  constructor
  · rintro ⟨basis', h', hq⟩
    rwa [← indices_injective (h'.trans h.symm)]
  · exact fun hq => ⟨basis, h, hq⟩

/-- A list is a basis if it names as many different columns as there are rows. -/
theorem ofIndices_eq_ok_iff {indices : List ℕ} {basis : Basis m n} :
    ofIndices indices = .ok basis ↔ basis.indices = indices ∧ indices.Nodup := by
  refine ⟨of_ofIndices, ?_⟩
  rintro ⟨rfl, hd⟩
  obtain ⟨basis', h, hi⟩ :=
    ofIndices_exists (length_indices basis) (fun j => lt_of_mem_indices) hd
  rwa [indices_injective hi] at h

/-- The list does not name `m` different columns out of `n`. -/
def IsMalformed (m n : ℕ) (indices : List ℕ) : Prop :=
  indices.length ≠ m ∨ (∃ j ∈ indices, n ≤ j) ∨ ¬ indices.Nodup

theorem ofIndices_eq_error_iff {indices : List ℕ} :
    (∃ fault, (ofIndices indices : Except BasisFault (Basis m n)) = .error fault) ↔
      IsMalformed m n indices := by
  cases h : (ofIndices indices : Except BasisFault (Basis m n)) with
  | error fault =>
    refine iff_of_true ⟨fault, rfl⟩ ?_
    by_contra hok
    rw [IsMalformed] at hok
    push Not at hok
    obtain ⟨basis, hbasis, -⟩ := ofIndices_exists hok.1 hok.2.1 hok.2.2
    rw [hbasis] at h
    cases h
  | ok basis =>
    obtain ⟨rfl, hd⟩ := of_ofIndices h
    refine iff_of_false nofun ?_
    rintro (hm | ⟨j, hj, hn⟩ | hd')
    · exact hm (length_indices basis)
    · exact absurd (lt_of_mem_indices hj) (not_lt.mpr hn)
    · exact hd' hd

theorem not_isMalformed {indices : List ℕ} {basis : Basis m n} (h : basis.indices = indices)
    (hd : indices.Nodup) : ¬ IsMalformed m n indices := by
  intro hm
  obtain ⟨fault, hfault⟩ := ofIndices_eq_error_iff.mpr hm
  rw [ofIndices_eq_ok_iff.mpr ⟨h, hd⟩] at hfault
  cases hfault

end Basis
end RevisedSimplex
