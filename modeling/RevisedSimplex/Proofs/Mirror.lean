import RevisedSimplex.Proofs.Loops
import RevisedSimplex.Run.Lemmas
import RevisedSimplex.Run.Pivoting

/-! # Runs that mirror each other

Both methods see a tableau only through its basis, its values, its relative costs and its elements.
Where two tableaux agree in these, they make the same moves, and if the tableaux that the moves
lead to agree as well, one run ends as the other one does.
-/

namespace RevisedSimplex

variable {F α β γ δ : Type}

namespace Run

/-- The second run ends as the first one does, with `f` of its answer. -/
def Mirrors (f : α → β) (r : Run F α) (r' : Run F β) : Prop :=
  r'.outcome = r.outcome.map f

namespace Mirrors

variable {f : α → β} {g : γ → δ}

theorem of_eq {r r' : Run F α} (h : r' = r) : Mirrors id r r' := by
  rw [h, Mirrors, Except.map_id]
  rfl

theorem pure (f : α → β) (a : α) : Mirrors f (F := F) (pure a) (pure (f a)) := rfl

theorem fail (f : α → β) (e : Failure F) : Mirrors f (fail e) (fail e) := rfl

theorem ofExcept {x : Except (Failure F) α} {x' : Except (Failure F) β} (h : x' = x.map f) :
    Mirrors f (ofExcept x) (ofExcept x') := h

theorem bind {r : Run F α} {r' : Run F β} {next : α → Run F γ} {next' : β → Run F δ}
    (hr : Mirrors f r r')
    (hnext : ∀ a, r.outcome = .ok a → Mirrors g (next a) (next' (f a))) :
    Mirrors g (r >>= next) (r' >>= next') := by
  rw [Mirrors, outcome_bind, outcome_bind, hr]
  cases h : r.outcome with
  | ok a => exact hnext a h
  | error e => rfl

theorem emit_bind {e e' : Event F} {next : Unit → Run F γ} {next' : Unit → Run F δ}
    (h : Mirrors g (next ()) (next' ())) : Mirrors g (emit e >>= next) (emit e' >>= next') :=
  bind (f := id) rfl fun _ _ => h

theorem ite {c c' : Prop} [Decidable c] [Decidable c'] {r s : Run F α} {r' s' : Run F β}
    (hc : c' ↔ c) (hr : Mirrors f r r') (hs : Mirrors f s s') :
    Mirrors f (if c then r else s) (if c' then r' else s') := by
  by_cases h : c
  · rwa [if_pos h, if_pos (hc.mpr h)]
  · rwa [if_neg h, if_neg (mt hc.mp h)]

end Mirrors
end Run

variable [Scalar F] {m n : ℕ}

namespace Tableau

structure PricesLike (t t' : Tableau F m n) : Prop where
  isBasic_eq : t'.isBasic = t.isBasic
  relativeCost_eq : t'.relativeCost = t.relativeCost
  tolerance_eq : t'.tolerance = t.tolerance
  artificial_eq : t'.artificial = t.artificial

namespace PricesLike

variable {t t' : Tableau F m n} (h : PricesLike t t')

include h

theorem candidates_eq : t'.candidates = t.candidates := by
  rw [candidates, candidates, structural, structural, h.artificial_eq]

theorem nonbasicCandidates_eq : t'.nonbasicCandidates = t.nonbasicCandidates := by
  rw [nonbasicCandidates, nonbasicCandidates, h.candidates_eq, h.isBasic_eq]

theorem reducedCosts_eq : t'.reducedCosts = t.reducedCosts := by
  rw [reducedCosts, reducedCosts, h.isBasic_eq, h.relativeCost_eq]

theorem isDualFeasible_eq : t'.isDualFeasible = t.isDualFeasible := by
  rw [isDualFeasible, isDualFeasible, h.nonbasicCandidates_eq, h.relativeCost_eq, h.tolerance_eq]

theorem profitable_eq : t'.profitable = t.profitable := by
  funext columns
  rw [profitable, profitable, h.isBasic_eq, h.relativeCost_eq, h.tolerance_eq]

theorem profitableAfter_eq : t'.profitableAfter = t.profitableAfter := by
  funext last
  rw [profitableAfter, profitableAfter, h.profitable_eq, h.candidates_eq]

theorem enteringColumn_eq : t'.enteringColumn = t.enteringColumn := by
  funext rule last
  cases rule <;> cases last <;>
    simp only [enteringColumn, h.profitable_eq, h.candidates_eq, h.profitableAfter_eq]

end PricesLike

/-- A rule without memory does not look at the column that entered last. -/
theorem enteringColumn_of_memoryless (t : Tableau F m n) {rule : EnteringRule}
    (hrule : rule ≠ .firstProfitableWithMemory) (last last' : Option (Fin n)) :
    t.enteringColumn rule last = t.enteringColumn rule last' := by
  cases rule with
  | dantzig => rfl
  | firstProfitable => rfl
  | firstProfitableWithMemory => exact absurd rfl hrule

/-- The tableaux agree in all that the methods look at. -/
structure LooksLike (t t' : Tableau F m n) : Prop where
  basis_eq : t'.basis = t.basis
  tolerance_eq : t'.tolerance = t.tolerance
  artificial_eq : t'.artificial = t.artificial
  basicValues_eq : t'.basicValues = t.basicValues
  relativeCost_eq : t'.relativeCost = t.relativeCost
  column_eq : t'.column = t.column
  rowEntry_eq : t'.rowEntry = t.rowEntry

namespace LooksLike

variable {t t' : Tableau F m n} (h : LooksLike t t')

include h

theorem pricesLike : PricesLike t t' where
  isBasic_eq := by
    funext j
    rw [isBasic, isBasic, h.basis_eq]
  relativeCost_eq := h.relativeCost_eq
  tolerance_eq := h.tolerance_eq
  artificial_eq := h.artificial_eq

theorem isPrimalFeasible_eq : t'.isPrimalFeasible = t.isPrimalFeasible := by
  rw [isPrimalFeasible, isPrimalFeasible, h.tolerance_eq, h.basicValues_eq]

theorem objective_eq (hcost : t'.program.cost = t.program.cost) : t'.objective = t.objective := by
  rw [objective, objective, Program.objective, Program.objective, Program.basicCosts,
    Program.basicCosts, h.basis_eq, h.basicValues_eq, hcost]

theorem point_eq : t'.point = t.point := by
  rw [point, point, h.basis_eq, h.basicValues_eq]

/-! ### The primal method -/

theorem smallestBasic_eq : t'.smallestBasic = t.smallestBasic := by
  funext rows
  rw [smallestBasic, smallestBasic, h.basis_eq]

theorem pivotRows_eq : t'.pivotRows = t.pivotRows := by
  funext column
  rw [pivotRows, pivotRows, h.tolerance_eq]

theorem minimalRatio_eq : t'.minimalRatio = t.minimalRatio := by
  funext column values rows
  rw [minimalRatio, minimalRatio, ratioWindow, ratioWindow, h.tolerance_eq, h.pivotRows_eq]

theorem tiedRows_eq : t'.tiedRows = t.tiedRows := by
  funext column
  rw [tiedRows, tiedRows, h.minimalRatio_eq, h.basicValues_eq, h.pivotRows_eq]

theorem separate_eq (column : Vector F m) (columns : List (Fin n)) (tied : List (Fin m)) :
    t'.separate column columns tied = t.separate column columns tied := by
  induction columns generalizing tied with
  | nil => rfl
  | cons k columns ih => rw [separate, separate, h.minimalRatio_eq, h.column_eq, ih]

theorem leavingRow_eq : t'.leavingRow = t.leavingRow := by
  funext rule column
  cases rule <;> simp only [leavingRow, h.tiedRows_eq, h.smallestBasic_eq, h.separate_eq]

theorem primalMove_eq (options : Options F) (last : Option (Fin n)) :
    primalMove options last t' = primalMove options last t := by
  rw [primalMove, primalMove, h.pricesLike.enteringColumn_eq, h.leavingRow_eq, h.column_eq]

/-! ### The dual method -/

theorem dualLeavingRow_eq : t'.dualLeavingRow = t.dualLeavingRow := by
  rw [dualLeavingRow, dualLeavingRow, infeasibleRows, infeasibleRows, h.smallestBasic_eq,
    h.tolerance_eq, h.basicValues_eq]

theorem dualEnteringColumn_eq : t'.dualEnteringColumn = t.dualEnteringColumn := by
  funext i
  rw [dualEnteringColumn, dualEnteringColumn, pivotColumns, pivotColumns,
    h.pricesLike.nonbasicCandidates_eq, h.rowEntry_eq, h.relativeCost_eq, h.tolerance_eq]

theorem dualMove_eq : dualMove t' = dualMove t := by
  rw [dualMove, dualMove, h.dualLeavingRow_eq, h.dualEnteringColumn_eq, h.relativeCost_eq]

end LooksLike

/-- A change of tableaux that no method sees, and that pivots commute with. -/
structure IsDisguise (f : Tableau F m n → Tableau F m n) : Prop where
  looksLike : ∀ t, LooksLike t (f t)
  pivot_eq : ∀ t i j, (f t).pivot i j = (t.pivot i j).map f

end Tableau

def Stop.map (f : Tableau F m n → Tableau F m n) (stop : Stop F m n) : Stop F m n :=
  { stop with tableau := f stop.tableau }

namespace Tableau

variable {f : Tableau F m n → Tableau F m n}

theorem iterate_mirrors (hf : IsDisguise f) (phase : Phase) (limit : Option ℕ)
    {move : Option (Fin n) → Tableau F m n → Move F m n}
    (hmove : ∀ last t, move last (f t) = move last t) (remaining iteration : ℕ)
    (last : Option (Fin n)) (t : Tableau F m n) :
    Run.Mirrors (Stop.map f) (t.iterate phase limit move remaining iteration last)
      ((f t).iterate phase limit move remaining iteration last) := by
  induction remaining using Nat.strong_induction_on generalizing iteration last t with
  | _ remaining ih =>
    rw [iterate, iterate, hmove]
    refine .emit_bind ?_
    split
    · exact .pure _ _
    · exact .emit_bind (.pure _ _)
    · exact .emit_bind (.pure _ _)
    · rename_i i j cost hm
      cases remaining with
      | zero => exact .fail _ _
      | succ remaining =>
        refine .bind (.ofExcept (hf.pivot_eq t i j)) fun next _ => .emit_bind ?_
        exact ih remaining (Nat.lt_succ_self _) _ _ _

theorem primal_mirrors (hf : IsDisguise f) (t : Tableau F m n) (phase : Phase)
    (options : Options F) :
    Run.Mirrors (Stop.map f) (t.primal phase options) ((f t).primal phase options) :=
  iterate_mirrors hf phase _ (fun last t => (hf.looksLike t).primalMove_eq options last) _ _ _ t

theorem dual_mirrors (hf : IsDisguise f) (t : Tableau F m n) (options : Options F) :
    Run.Mirrors (Stop.map f) (t.dual options) ((f t).dual options) := by
  refine .ite (by rw [(hf.looksLike t).pricesLike.isDualFeasible_eq]) ?_ (.fail _ _)
  exact iterate_mirrors hf .dual _ (fun _ t => (hf.looksLike t).dualMove_eq) _ _ _ t

end Tableau
end RevisedSimplex
