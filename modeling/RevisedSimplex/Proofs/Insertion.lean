import RevisedSimplex.Proofs.Removal

/-! # Insertion of zeros

Each insertion shifts what follows it, so positions that grow stay where they are inserted. Such
positions also lie within the list at the time of their insertion, if they lie within the result.
-/

namespace RevisedSimplex

/-- Each position lies within the list, of the given length at first, when it is inserted. -/
def InsertsWithin : List ℕ → ℕ → Prop
  | [], _ => True
  | i :: positions, length => i ≤ length ∧ InsertsWithin positions (length + 1)

theorem add_length_le_of_sorted {i bound : ℕ} {positions : List ℕ}
    (hs : (i :: positions).Pairwise (· < ·)) (hb : ∀ l ∈ i :: positions, l < bound) :
    i + (i :: positions).length ≤ bound := by
  induction positions generalizing i with
  | nil => exact hb i (List.mem_cons_self ..)
  | cons j positions ih =>
    obtain ⟨hi, hs⟩ := List.pairwise_cons.mp hs
    have hj := ih hs fun l hl => hb l (List.mem_cons_of_mem _ hl)
    have hij := hi j (List.mem_cons_self ..)
    simp only [List.length_cons] at hj ⊢
    omega

/-- Growing positions below the length of the result are inserted within the list. -/
theorem insertsWithin_of_sorted {positions : List ℕ} {length : ℕ}
    (hs : positions.Pairwise (· < ·)) (hb : ∀ i ∈ positions, i < length + positions.length) :
    InsertsWithin positions length := by
  induction positions generalizing length with
  | nil => trivial
  | cons i positions ih =>
    refine ⟨Nat.le_of_add_le_add_right (add_length_le_of_sorted hs hb), ?_⟩
    refine ih (List.pairwise_cons.mp hs).2 fun l hl => ?_
    have hl := hb l (List.mem_cons_of_mem _ hl)
    rw [List.length_cons] at hl
    omega

variable {F : Type} [Scalar F]

theorem insertZeros_cons (i : ℕ) (positions : List ℕ) (values : List F) :
    insertZeros (i :: positions) values = insertZeros positions (values.insertIdx i 0) := rfl

theorem length_insertZeros {positions : List ℕ} {values : List F}
    (h : InsertsWithin positions values.length) :
    (insertZeros positions values).length = values.length + positions.length := by
  induction positions generalizing values with
  | nil => rfl
  | cons i positions ih =>
    have hlength := List.length_insertIdx_of_le_length h.1 (0 : F)
    rw [insertZeros_cons, ih (hlength ▸ h.2), hlength, List.length_cons]
    omega

theorem insertZeros_getElem?_of_lt {positions : List ℕ} {k : ℕ} (hk : ∀ i ∈ positions, k < i)
    (values : List F) : (insertZeros positions values)[k]? = values[k]? := by
  induction positions generalizing values with
  | nil => rfl
  | cons i positions ih =>
    rw [insertZeros_cons, ih fun l hl => hk l (List.mem_cons_of_mem _ hl),
      List.getElem?_insertIdx_of_lt (hk i (List.mem_cons_self ..))]

theorem insertZeros_getElem?_of_mem {positions : List ℕ} {values : List F}
    (hs : positions.Pairwise (· < ·)) (h : InsertsWithin positions values.length) {k : ℕ}
    (hk : k ∈ positions) : (insertZeros positions values)[k]? = some 0 := by
  induction positions generalizing values with
  | nil => cases hk
  | cons i positions ih =>
    obtain ⟨hi, hs⟩ := List.pairwise_cons.mp hs
    rw [insertZeros_cons]
    rcases List.mem_cons.mp hk with rfl | hk
    · rw [insertZeros_getElem?_of_lt hi, List.getElem?_insertIdx_self, if_pos h.1]
    · exact ih hs (List.length_insertIdx_of_le_length h.1 (0 : F) ▸ h.2) hk

end RevisedSimplex
