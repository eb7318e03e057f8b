import RevisedSimplex.Proofs.Exchange
import RevisedSimplex.Proofs.Iteration

/-! # Valid tableaux along a path

Whatever counts as zero and however the pivots are chosen, an iteration from a valid tableau
visits valid tableaux of the same program, each of them an exchange of the one before.
-/

namespace RevisedSimplex.Tableau

variable {m n : ℕ}

/-- A valid tableau that differs from `t` in its basis only. -/
structure Follows (t t' : Tableau ℚ m n) : Prop extends t'.IsValid where
  program_eq : t'.program = t.program
  tolerance_eq : t'.tolerance = t.tolerance
  artificial_eq : t'.artificial = t.artificial

theorem IsValid.follows_self {t : Tableau ℚ m n} (ht : t.IsValid) : Follows t t :=
  ⟨ht, rfl, rfl, rfl⟩

theorem Follows.trans {t t' t'' : Tableau ℚ m n} (h : Follows t t') (h' : Follows t' t'') :
    Follows t t'' :=
  ⟨h'.toIsValid, h'.program_eq.trans h.program_eq, h'.tolerance_eq.trans h.tolerance_eq,
    h'.artificial_eq.trans h.artificial_eq⟩

theorem IsExchange.follows {t t' : Tableau ℚ m n} {i : Fin m} {j : Fin n}
    (h : IsExchange t t' i j) : Follows t t' :=
  ⟨h.valid, h.program_eq, h.tolerance_eq, h.artificial_eq⟩

variable {move : Option (Fin n) → Tableau ℚ m n → Move ℚ m n}

theorem IsValid.isExchange_of_step {s s' : Position ℚ m n} (hs : s.tableau.IsValid)
    (h : Step move s s') : ∃ i j cost, move s.last s.tableau = .pivot i j cost ∧
      s'.last = some j ∧ IsExchange s.tableau s'.tableau i j := by
  obtain ⟨i, j, cost, hm, hlast, ht'⟩ := h.spec
  exact ⟨i, j, cost, hm, hlast, hs.isExchange_of_pivot ht'⟩

theorem IsValid.follows_path {t : Tableau ℚ m n} (ht : t.IsValid) {p : ℕ → Position ℚ m n} {k : ℕ}
    (hp : IsPath move p k) (h0 : (p 0).tableau = t) : ∀ l ≤ k, Follows t (p l).tableau := by
  refine hp.invariant (P := fun s => Follows t s.tableau) ?_ (h0 ▸ ht.follows_self)
  intro s s' hs hstep
  obtain ⟨i, j, -, -, -, hexchange⟩ := hs.isExchange_of_step hstep
  exact hs.trans hexchange.follows

end RevisedSimplex.Tableau
