import RevisedSimplex.Proofs.Auxiliary

/-! # Bookkeeping of the repair

Whatever the arithmetic, each artificial variable is exchanged for a structural column or its row
is listed. In the end the basic artificial variables are those of the listed rows, and every other
row has one structural basic column.
-/

namespace RevisedSimplex

variable {F : Type} {m n : ℕ}

namespace Repair

theorem of_mem_pivots [Scalar F] {t : Tableau F m (n + m)} {r : Fin m} {q : Priced F (n + m)}
    (h : q ∈ pivots t r) : q.1.val < t.structural ∧ t.isBasic q.1 = false := by
  simp only [pivots, List.mem_filter, List.mem_map, Tableau.mem_nonbasicCandidates] at h
  obtain ⟨⟨j, hj, rfl⟩, -⟩ := h
  exact hj

theorem mem_pivots_of_choice [Scalar F] {t : Tableau F m (n + m)} {r : Fin m}
    {q : Priced F (n + m)}
    (h : (if t.basicValues.get r ≤ t.tolerance then (pivots t r).head?
      else (pivots t r).find? fun (_, element) => 0 < element) = some q) : q ∈ pivots t r := by
  split at h
  · exact List.mem_of_head? h
  · exact List.mem_of_find?_eq_some h

theorem mem_basicArtificials {t : Tableau F m (n + m)} {k : Fin m} :
    k ∈ basicArtificials t ↔ t.isBasic (artificialColumn n k) = true := by
  simp [basicArtificials]

theorem mem_structuralBasis {s : Repair F m n} {j : Fin n} :
    j.val ∈ s.structuralBasis ↔ s.tableau.isBasic (j.castAdd m) = true := by
  rw [structuralBasis, List.mem_filter, Tableau.isBasic_iff, ← Basis.mem_indices]
  simp

theorem basis_get_eq_artificial_iff {t t' : Tableau F m (n + m)} {r : Fin m} {j : Fin n}
    (hb : t'.basis = t.basis.set r (j.castAdd m) r.isLt) {l k : Fin m} :
    t'.basis.get l = artificialColumn n k ↔ l ≠ r ∧ t.basis.get l = artificialColumn n k := by
  rw [hb, set_get]
  split
  · rename_i hl
    exact iff_of_false (castAdd_ne_artificialColumn j k) fun hne => hne.1 hl
  · rename_i hl
    exact (and_iff_right hl).symm

inductive IsTreated [Scalar F] (s : Repair F m n) (i r : Fin m) :
    List (Event F) → Repair F m n → Prop where
  | exchanged {q : Priced F (n + m)} {t' : Tableau F m (n + m)} : q ∈ pivots s.tableau r →
      s.tableau.pivot r q.1 = .ok t' →
      IsTreated s i r [.exchange (artificialColumn n i) (s.tableau.basicValues.get r) q.1]
        ⟨t', s.redundant⟩
  | redundant : pivots s.tableau r = [] →
      IsTreated s i r [.redundantRow (artificialColumn n i) i] ⟨s.tableau, s.redundant ++ [i]⟩

theorem isTreated_of_step [Scalar F] {s s' : Repair F m n} {i : Fin m}
    (h : (step s i).outcome = .ok s') : ∃ r, s.tableau.basis.get r = artificialColumn n i ∧
      IsTreated s i r (step s i).events s' := by
  unfold step at h ⊢
  dsimp only at h ⊢
  split at h
  · cases h
  · rename_i r hr
    refine ⟨r, (Vector.finIdxOf?_eq_some_iff.mp hr).1, ?_⟩
    split at h
    · rename_i j element hq
      have hmem : (j, element) ∈ pivots s.tableau r := mem_pivots_of_choice hq
      cases ht' : s.tableau.pivot r j with
      | error e =>
        rw [ht'] at h
        cases h
      | ok t' =>
        rw [ht'] at h
        cases h
        exact .exchanged hmem ht'
    · split at h
      · rename_i hnil
        cases h
        rw [if_pos hnil]
        exact .redundant (List.isEmpty_iff.mp hnil)
      · cases h

theorem IsTreated.isBasic [Scalar F] {s s' : Repair F m n} {i r : Fin m} {events : List (Event F)}
    (h : IsTreated s i r events s') (hr : s.tableau.basis.get r = artificialColumn n i) {j : Fin n}
    (hj : s.tableau.isBasic (j.castAdd m) = true) : s'.tableau.isBasic (j.castAdd m) = true := by
  cases h with
  | exchanged _ ht' =>
    obtain ⟨-, -, hb, -, -⟩ := Tableau.eq_of_ofBasis ht'
    obtain ⟨l, hl⟩ := (s.tableau.isBasic_iff _).mp hj
    refine (Tableau.isBasic_iff _ _).mpr ⟨l, ?_⟩
    rw [hb, set_get, if_neg, hl]
    rintro rfl
    exact castAdd_ne_artificialColumn j i (hl.symm.trans hr)
  | redundant => exact hj

inductive IsRepaired [Scalar F] : Repair F m n → List (Fin m) → List (Event F) → Repair F m n →
    Prop where
  | nil {s : Repair F m n} : IsRepaired s [] [] s
  | cons {s s₁ s' : Repair F m n} {i r : Fin m} {todo : List (Fin m)}
      {first rest : List (Event F)} :
      s.tableau.basis.get r = artificialColumn n i → IsTreated s i r first s₁ →
      IsRepaired s₁ todo rest s' → IsRepaired s (i :: todo) (first ++ rest) s'

theorem isRepaired_of_foldlM [Scalar F] {s s' : Repair F m n} {todo : List (Fin m)}
    (h : (todo.foldlM step s).outcome = .ok s') :
    IsRepaired s todo (todo.foldlM step s).events s' := by
  induction todo generalizing s with
  | nil =>
    cases h
    exact .nil
  | cons i todo ih =>
    rw [List.foldlM_cons] at h ⊢
    obtain ⟨s₁, hstep, h⟩ := Run.outcome_bind_eq_ok.mp h
    obtain ⟨r, hr, htreated⟩ := isTreated_of_step hstep
    rw [Run.bind_of_ok hstep]
    exact .cons hr htreated (ih h)

theorem IsRepaired.isBasic [Scalar F] {s s' : Repair F m n} {todo : List (Fin m)}
    {events : List (Event F)} (h : IsRepaired s todo events s') {j : Fin n}
    (hj : s.tableau.isBasic (j.castAdd m) = true) : s'.tableau.isBasic (j.castAdd m) = true := by
  induction h with
  | nil => exact hj
  | cons hr htreated _ ih => exact ih (htreated.isBasic hr hj)

theorem visits_step [Scalar F] (s : Repair F m n) (i : Fin m) :
    (step s i).visits = [] := by
  unfold step
  dsimp only
  split
  · rfl
  · split
    · rw [Run.visits_bind_of_ok rfl]
      cases s.tableau.pivot _ _ <;> rfl
    · split <;> rfl

theorem visits_foldlM_step [Scalar F] (todo : List (Fin m)) (s : Repair F m n) :
    (todo.foldlM step s).visits = [] := by
  induction todo generalizing s with
  | nil => rfl
  | cons i todo ih =>
    rw [List.foldlM_cons]
    cases h : (step s i).outcome with
    | error e => rw [Run.visits_bind_of_error h, visits_step]
    | ok s' => rw [Run.visits_bind_of_ok h, visits_step, ih, List.append_nil]

/-- Which artificial variables are basic while those in `todo` are still to be treated. -/
structure Tracks (s : Repair F m n) (todo : List (Fin m)) : Prop where
  injective : Function.Injective s.tableau.basis.get
  artificial_eq : s.tableau.artificial = m
  isBasic_iff : ∀ k, s.tableau.isBasic (artificialColumn n k) = true ↔ k ∈ s.redundant ++ todo
  sorted : (s.redundant ++ todo).Pairwise (· < ·)

theorem tracks_start {t : Tableau F m (n + m)} (hb : Function.Injective t.basis.get)
    (ha : t.artificial = m) : Tracks ⟨t, []⟩ (basicArtificials t) where
  injective := hb
  artificial_eq := ha
  isBasic_iff k := by rw [List.nil_append, mem_basicArtificials]
  sorted := (List.pairwise_lt_finRange m).sublist List.filter_sublist

namespace Tracks

section Step

variable {s : Repair F m n} {i : Fin m} {todo : List (Fin m)} (hs : Tracks s (i :: todo))

include hs

theorem notMem_redundant : i ∉ s.redundant := by
  intro h
  exact lt_irrefl i ((List.pairwise_append.mp hs.sorted).2.2 i h i (List.mem_cons_self ..))

theorem notMem_todo : i ∉ todo := by
  intro h
  exact lt_irrefl i ((List.pairwise_cons.mp (List.pairwise_append.mp hs.sorted).2.1).1 i h)

theorem exchange {t' : Tableau F m (n + m)} {r : Fin m} {j : Fin n}
    (hr : s.tableau.basis.get r = artificialColumn n i)
    (hb : t'.basis = s.tableau.basis.set r (j.castAdd m) r.isLt)
    (hinj : Function.Injective t'.basis.get) (ha : t'.artificial = m) :
    Tracks ⟨t', s.redundant⟩ todo where
  injective := hinj
  artificial_eq := ha
  isBasic_iff k := by
    have hold := hs.isBasic_iff k
    simp only [Tableau.isBasic_iff, basis_get_eq_artificial_iff hb] at hold ⊢
    constructor
    · rintro ⟨l, hne, hl⟩
      have hk : k ≠ i := by
        rintro rfl
        exact hne (hs.injective (hl.trans hr.symm))
      simpa [hk] using hold.mp ⟨l, hl⟩
    · intro hk
      have hki : k ≠ i := by
        rintro rfl
        rcases List.mem_append.mp hk with hk | hk
        · exact hs.notMem_redundant hk
        · exact hs.notMem_todo hk
      obtain ⟨l, hl⟩ := hold.mpr (by
        rcases List.mem_append.mp hk with hk | hk
        · exact List.mem_append_left _ hk
        · exact List.mem_append_right _ (List.mem_cons_of_mem _ hk))
      refine ⟨l, ?_, hl⟩
      rintro rfl
      exact hki (artificialColumn_injective (hl.symm.trans hr))
  sorted := hs.sorted.sublist (List.Sublist.append_left (List.sublist_cons_self ..) _)

theorem redundantRow : Tracks ⟨s.tableau, s.redundant ++ [i]⟩ todo := by
  have happ : (s.redundant ++ [i]) ++ todo = s.redundant ++ i :: todo := by simp
  exact ⟨hs.injective, hs.artificial_eq, happ ▸ hs.isBasic_iff, happ ▸ hs.sorted⟩

theorem of_isTreated [Scalar F] {s' : Repair F m n} {r : Fin m} {events : List (Event F)}
    (hr : s.tableau.basis.get r = artificialColumn n i) (h : IsTreated s i r events s') :
    Tracks s' todo := by
  cases h with
  | @exchanged q t' hq ht' =>
    obtain ⟨hlt, hnonbasic⟩ := of_mem_pivots hq
    obtain ⟨-, -, hb, -, ha⟩ := Tableau.eq_of_ofBasis ht'
    rw [Tableau.structural_of_artificial hs.artificial_eq] at hlt
    have hj : q.1 = Fin.castAdd m ⟨q.1.val, hlt⟩ := rfl
    refine hs.exchange hr (hj ▸ hb) ?_ (ha.trans hs.artificial_eq)
    rw [hb]
    refine injective_set hs.injective r fun l hl => ?_
    simp [(s.tableau.isBasic_iff q.1).mpr ⟨l, hl⟩] at hnonbasic
  | redundant => exact hs.redundantRow

end Step

theorem of_isRepaired [Scalar F] {s s' : Repair F m n} {todo : List (Fin m)}
    {events : List (Event F)} (hs : Tracks s todo) (h : IsRepaired s todo events s') :
    Tracks s' [] := by
  induction h with
  | nil => exact hs
  | cons hr htreated _ ih => exact ih (hs.of_isTreated hr htreated)

section Finished

variable {s : Repair F m n} (hs : Tracks s [])

include hs

theorem isBasic_iff_mem (k : Fin m) :
    s.tableau.isBasic (artificialColumn n k) = true ↔ k ∈ s.redundant := by
  rw [hs.isBasic_iff, List.append_nil]

theorem sorted_redundant : s.redundant.Pairwise (· < ·) := by
  simpa using hs.sorted

theorem nodup_redundant : s.redundant.Nodup :=
  hs.sorted_redundant.imp fun h => h.ne

theorem nodup_structuralBasis : s.structuralBasis.Nodup :=
  (Basis.nodup_indices_iff.mpr hs.injective).filter _

/-- Each row that is not redundant has one structural basic column. -/
theorem length_structuralBasis :
    s.structuralBasis.length + s.redundant.length = m := by
  have hperm : (s.tableau.basis.indices.filter fun j => !decide (j < n)).Perm
      (s.redundant.map fun k => (artificialColumn n k).val) := by
    have hinj : Function.Injective fun k : Fin m => (artificialColumn n k).val :=
      Fin.val_injective.comp artificialColumn_injective
    rw [List.perm_ext_iff_of_nodup ((Basis.nodup_indices_iff.mpr hs.injective).filter _)
      (hs.nodup_redundant.map hinj)]
    intro j
    simp only [List.mem_filter, List.mem_map, ← hs.isBasic_iff_mem, Tableau.isBasic_iff,
      ← Basis.mem_indices, Bool.not_eq_true', decide_eq_false_iff_not, not_lt]
    constructor
    · rintro ⟨hj, hle⟩
      have hlt := Basis.lt_of_mem_indices hj
      have hv : (artificialColumn n (⟨j - n, by omega⟩ : Fin m)).val = j := by
        simp only [artificialColumn, Fin.natAdd_mk]
        omega
      refine ⟨⟨j - n, by omega⟩, ?_, hv⟩
      rwa [hv]
    · rintro ⟨k, hk, rfl⟩
      exact ⟨hk, Nat.le_add_right ..⟩
  have hsplit := s.tableau.basis.indices.length_eq_length_filter_add (· < n)
  rw [Basis.length_indices, hperm.length_eq, List.length_map] at hsplit
  exact hsplit.symm

end Finished
end Tracks
end Repair
end RevisedSimplex
