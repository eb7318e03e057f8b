import RevisedSimplex.Proofs.Matrix
import RevisedSimplex.Proofs.Mirror
import RevisedSimplex.Run.Feasibility

/-! # Elements of a tableau

An element is read off in place, out of a whole column or out of a row of the inverse. The three
readings multiply and add the same numbers in the same order, so they agree in any arithmetic, and
the tests that use them see one tableau.
-/

namespace RevisedSimplex

variable {F : Type} [Scalar F] {m n : ℕ}

namespace Program

variable (P : Program F m n) (inverse : RowMatrix F m m) (i : Fin m) (j : Fin n)

theorem tableauColumn_get : (P.tableauColumn inverse j).get i = P.tableauElement inverse i j := by
  rw [tableauColumn, RowMatrix.mulVec_get, toList_eq_ofFn, toList_eq_ofFn, dot_ofFn_eq_foldl]
  simp only [RowMatrix.row_get, RowMatrix.column_get]
  rfl

theorem rowElement_row :
    P.rowElement (inverse.row i).toList j = P.tableauElement inverse i j := by
  rw [rowElement, ← List.ofFn_eq_map, toList_eq_ofFn, dot_ofFn_eq_foldl]
  rfl

end Program

namespace Tableau

/-- The tableaux agree in the basis and its values, in the relative costs and, read in place, in
the elements. -/
structure SharesElements (t t' : Tableau F m n) : Prop where
  basis_eq : t'.basis = t.basis
  tolerance_eq : t'.tolerance = t.tolerance
  artificial_eq : t'.artificial = t.artificial
  basicValues_eq : t'.basicValues = t.basicValues
  relativeCost_eq : t'.relativeCost = t.relativeCost
  element_eq : t'.element = t.element

namespace SharesElements

variable {t t' : Tableau F m n} (h : SharesElements t t')

include h

/-- Columns and rows that are read off agree where the elements do. -/
theorem looksLike : LooksLike t t' where
  basis_eq := h.basis_eq
  tolerance_eq := h.tolerance_eq
  artificial_eq := h.artificial_eq
  basicValues_eq := h.basicValues_eq
  relativeCost_eq := h.relativeCost_eq
  column_eq := by
    funext j
    apply get_injective
    funext i
    calc (t'.column j).get i = t'.element i j := Program.tableauColumn_get ..
      _ = t.element i j := congrFun (congrFun h.element_eq i) j
      _ = (t.column j).get i := (Program.tableauColumn_get ..).symm
  rowEntry_eq := by
    funext i j
    calc t'.rowEntry i j = t'.element i j := Program.rowElement_row ..
      _ = t.element i j := congrFun (congrFun h.element_eq i) j
      _ = t.rowEntry i j := (Program.rowElement_row ..).symm

end SharesElements

theorem SharesElements.pivots_eq {t t' : Tableau F m (n + m)} (h : SharesElements t t') :
    Repair.pivots t' = Repair.pivots t := by
  funext r
  rw [Repair.pivots, Repair.pivots, h.looksLike.pricesLike.nonbasicCandidates_eq, h.element_eq,
    h.tolerance_eq]

end Tableau

/-- The three readings of an element agree. So both methods and the exchange of artificial
variables choose alike in tableaux that share the elements in one of the readings. -/
theorem Program.elements_agree :
    (∀ {m n : ℕ} (P : Program F m n) (inverse : RowMatrix F m m) (i : Fin m) (j : Fin n),
      (P.tableauColumn inverse j).get i = P.tableauElement inverse i j ∧
        P.rowElement (inverse.row i).toList j = P.tableauElement inverse i j) ∧
      (∀ {m n : ℕ} (t t' : Tableau F m n), t.SharesElements t' →
        (∀ options last, t'.primalMove options last = t.primalMove options last) ∧
          t'.dualMove = t.dualMove) ∧
      ∀ {m n : ℕ} (t t' : Tableau F m (n + m)), t.SharesElements t' →
        Repair.pivots t' = Repair.pivots t :=
  ⟨fun P inverse i j => ⟨P.tableauColumn_get inverse i j, P.rowElement_row inverse i j⟩,
    fun _ _ h => ⟨h.looksLike.primalMove_eq, h.looksLike.dualMove_eq⟩,
    fun _ _ h => h.pivots_eq⟩

def scaledRow (s : ℚ) : Tableau ℚ 1 (2 + 1) where
  program := ⟨.ofFn ![3, 1, 0], .ofFn fun _ => ![s * 2, s * 5, s], .ofFn ![s * 4]⟩
  basis := .ofFn ![0]
  evaluation := ⟨.ofFn fun _ => ![s / 2], .ofFn ![2], .ofFn ![s * 3 / 2]⟩
  tolerance := 0
  artificial := 1

theorem Program.elements_agree_scaledRow :
    (scaledRow 1).SharesElements (scaledRow (-1)) ∧
      (scaledRow (-1)).program.constraints.get 0 1 ≠ (scaledRow 1).program.constraints.get 0 1 ∧
      (scaledRow (-1)).dualMove = (scaledRow 1).dualMove := by
  have h : (scaledRow 1).SharesElements (scaledRow (-1)) := by
    refine ⟨rfl, rfl, rfl, rfl, funext fun j => ?_, funext fun i => funext fun j => ?_⟩
    · revert j
      decide +kernel
    · revert i j
      decide +kernel
  exact ⟨h, by decide +kernel, (elements_agree.2.1 _ _ h).2⟩

end RevisedSimplex
