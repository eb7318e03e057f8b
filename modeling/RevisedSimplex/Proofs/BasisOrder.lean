import RevisedSimplex.Proofs.Bland
import RevisedSimplex.Proofs.Failures
import RevisedSimplex.Proofs.Reordering

/-! # The order of a starting basis

A starting basis may be listed in any order. The same columns enter and leave at every pivot, and
the answer is the same up to the order of its basis. Only the first minimum looks at the place of
a row.
-/

namespace RevisedSimplex

variable {F α β γ δ : Type} {m n : ℕ}

def Snapshot.rearrange (σ : Equiv.Perm (Fin m)) (s : Snapshot F) : Snapshot F :=
  { s with basis := RevisedSimplex.rearrange σ s.basis }

def Optimum.rearrange (σ : Equiv.Perm (Fin m)) (o : Optimum F) : Optimum F :=
  { o with basis := RevisedSimplex.rearrange σ o.basis }

def Verdict.rearrange (σ : Equiv.Perm (Fin m)) : Verdict F → Verdict F
  | .optimal o => .optimal (o.rearrange σ)
  | .unbounded => .unbounded
  | .infeasible => .infeasible

def Solution.rearrange (σ : Equiv.Perm (Fin m)) (s : Solution F) : Solution F :=
  { s with verdict := s.verdict.rearrange σ }

/-- The column that a pivot brings into the basis and the one that it takes out. -/
def Event.replacement? : Event F → Option (ℕ × ℕ)
  | .pivot _ entering _ leaving _ => some (entering, leaving)
  | _ => none

namespace Run

def replacements (r : Run F α) : List (ℕ × ℕ) := r.events.filterMap Event.replacement?

variable [Scalar F]

/-- The runs replace the same columns, their bases differ in the order, and they end alike. -/
structure Reorders (σ : Equiv.Perm (Fin m)) (A : α → β → Prop) (r : Run F α) (r' : Run F β) :
    Prop where
  replacements_eq : r'.replacements = r.replacements
  snapshots_eq : r'.snapshots = r.snapshots.map (Snapshot.rearrange σ)
  of_ok : ∀ a, r.outcome = .ok a → ∃ b, r'.outcome = .ok b ∧ A a b
  of_error : ∀ e, r.outcome = .error e → r'.outcome = .error e

namespace Reorders

variable {σ : Equiv.Perm (Fin m)} {A : α → β → Prop} {B : γ → δ → Prop}

theorem pure {a : α} {b : β} (h : A a b) : Reorders σ A (F := F) (pure a) (pure b) where
  replacements_eq := rfl
  snapshots_eq := rfl
  of_ok := by
    rintro _ ⟨⟩
    exact ⟨b, rfl, h⟩
  of_error := nofun

theorem fail (e : Failure F) : Reorders σ A (fail e) (fail e) where
  replacements_eq := rfl
  snapshots_eq := rfl
  of_ok := nofun
  of_error := by
    rintro _ ⟨⟩
    rfl

theorem bind {r : Run F α} {r' : Run F β} {next : α → Run F γ} {next' : β → Run F δ}
    (hr : Reorders σ A r r') (hnext : ∀ a b, A a b → Reorders σ B (next a) (next' b)) :
    Reorders σ B (r >>= next) (r' >>= next') := by
  cases h : r.outcome with
  | ok a =>
    obtain ⟨b, h', hab⟩ := hr.of_ok a h
    have hn := hnext a b hab
    rw [bind_of_ok h, bind_of_ok h']
    refine ⟨?_, ?_, hn.of_ok, hn.of_error⟩
    · rw [replacements, replacements, List.filterMap_append, List.filterMap_append]
      exact congrArg₂ _ hr.replacements_eq hn.replacements_eq
    · rw [snapshots, snapshots, List.filterMap_append, List.filterMap_append, List.map_append]
      exact congrArg₂ _ hr.snapshots_eq hn.snapshots_eq
  | error e =>
    rw [bind_of_error h, bind_of_error (hr.of_error e h)]
    refine ⟨hr.replacements_eq, hr.snapshots_eq, ?_, ?_⟩
    · rintro _ ⟨⟩
    · rintro _ ⟨⟩
      rfl

theorem emit {e e' : Event F} (hr : e'.replacement? = e.replacement?)
    (hs : e'.snapshot? = e.snapshot?.map (Snapshot.rearrange σ)) :
    Reorders σ (fun _ _ => True) (emit e) (emit e') where
  replacements_eq := by simp [replacements, List.filterMap_cons, hr]
  snapshots_eq := by
    rw [snapshots, snapshots, events_emit, events_emit, List.filterMap_cons, List.filterMap_cons,
      hs]
    cases e.snapshot? <;> rfl
  of_ok := fun _ _ => ⟨(), rfl, trivial⟩
  of_error := nofun

theorem emit_bind {e e' : Event F} {next : Unit → Run F γ} {next' : Unit → Run F δ}
    (hr : e'.replacement? = e.replacement?)
    (hs : e'.snapshot? = e.snapshot?.map (Snapshot.rearrange σ))
    (h : Reorders σ B (next ()) (next' ())) :
    Reorders σ B (Run.emit e >>= next) (Run.emit e' >>= next') :=
  bind (emit hr hs) fun _ _ _ => h

end Reorders
end Run

namespace Tableau

variable {σ : Equiv.Perm (Fin m)} {t t' : Tableau ℚ m n}

theorem Reorders.snapshot_eq (h : Reorders σ t t') (phase : Phase) (iteration : ℕ) :
    t'.snapshot phase iteration = (t.snapshot phase iteration).rearrange σ := by
  rw [snapshot, snapshot, Basis.indices_rearrange h.basis_get, h.shadowPrice_eq,
    h.pricesLike.reducedCosts_eq, h.objective_eq, h.point_eq]
  rfl

/-- A method whose moves do not depend on the places of the basic columns. -/
structure IsOrderFree (move : Option (Fin n) → Tableau ℚ m n → Move ℚ m n) : Prop where
  move_eq : ∀ (σ : Equiv.Perm (Fin m)) (t t' : Tableau ℚ m n) (last : Option (Fin n)),
    Reorders σ t t' → move last t' = (move last t).rearrange σ
  entry_ne : ∀ (t : Tableau ℚ m n) (last : Option (Fin n)) (i : Fin m) (j : Fin n) (cost : ℚ),
    t.IsExact → move last t = .pivot i j cost → t.entries i j ≠ 0

theorem isOrderFree_primalMove {options : Options ℚ} (ho : options.leaving ≠ .firstMinimum) :
    IsOrderFree (m := m) (n := n) (primalMove options) where
  move_eq _ _ _ last h := h.primalMove_eq ho last
  entry_ne _ _ _ _ _ ht hm := (ht.entry_pos hm).ne'

theorem isOrderFree_dualMove : IsOrderFree (m := m) (n := n) fun _ => dualMove where
  move_eq _ _ _ _ h := h.dualMove_eq
  entry_ne _ _ _ _ _ ht hm :=
    (dualEnteringColumn_spec ht.tolerance_eq (dualMove_eq_pivot hm).2).2.1.ne

end Tableau

structure Stop.Reorders (σ : Equiv.Perm (Fin m)) (s s' : Stop ℚ m n) : Prop where
  tableau : Tableau.Reorders σ s.tableau s'.tableau
  status_eq : s'.status = s.status
  pivots_eq : s'.pivots = s.pivots

namespace Tableau

variable {σ : Equiv.Perm (Fin m)} {t t' : Tableau ℚ m n}

theorem iterate_reorders (phase : Phase) (limit : Option ℕ)
    {move : Option (Fin n) → Tableau ℚ m n → Move ℚ m n} (hmove : IsOrderFree move)
    (h : Reorders σ t t') (remaining iteration : ℕ) (last : Option (Fin n)) :
    Run.Reorders σ (Stop.Reorders σ) (t.iterate phase limit move remaining iteration last)
      (t'.iterate phase limit move remaining iteration last) := by
  induction remaining using Nat.strong_induction_on generalizing iteration last t t' with
  | _ remaining ih =>
    rw [iterate, iterate, hmove.move_eq σ t t' last h]
    refine .emit_bind rfl (congrArg some (h.snapshot_eq phase iteration)) ?_
    cases hm : move last t with
    | optimal => exact .pure ⟨h, rfl, rfl⟩
    | unbounded j => exact .emit_bind rfl rfl (.pure ⟨h, rfl, rfl⟩)
    | infeasible i => exact .emit_bind rfl rfl (.pure ⟨h, rfl, rfl⟩)
    | pivot i j cost =>
      cases remaining with
      | zero => exact .fail _
      | succ remaining =>
        obtain ⟨t₁, t₁', ht₁, ht₁', h₁⟩ := h.pivot (hmove.entry_ne t last i j cost h.isExact hm)
        have hleaving : t'.basis.get (σ.symm i) = t.basis.get i := by
          rw [h.basis_get, σ.apply_symm_apply]
        dsimp only [Move.rearrange]
        rw [ht₁, ht₁', Run.ofExcept_ok_bind, Run.ofExcept_ok_bind, hleaving]
        exact .emit_bind rfl rfl (ih remaining (Nat.lt_succ_self _) h₁ _ _)

theorem Reorders.primal (h : Reorders σ t t') {options : Options ℚ}
    (ho : options.leaving ≠ .firstMinimum) (phase : Phase) :
    Run.Reorders σ (Stop.Reorders σ) (t.primal phase options) (t'.primal phase options) :=
  iterate_reorders phase _ (isOrderFree_primalMove ho) h _ _ _

theorem Reorders.dual (h : Reorders σ t t') (options : Options ℚ) :
    Run.Reorders σ (Stop.Reorders σ) (t.dual options) (t'.dual options) := by
  rw [Tableau.dual, Tableau.dual, h.pricesLike.isDualFeasible_eq]
  split
  · exact iterate_reorders .dual _ isOrderFree_dualMove h _ _ _
  · exact .fail _

/-- If a list is a basis, so is every list of the same columns. -/
theorem exists_reorders {P : Program ℚ m n} {l l' : List ℕ} (hl : l.Perm l')
    (ht : ofIndices P l 0 0 = .ok t) :
    ∃ (σ : Equiv.Perm (Fin m)) (t' : Tableau ℚ m n),
      l' = rearrange σ l ∧ ofIndices P l' 0 0 = .ok t' ∧ Reorders σ t t' := by
  obtain ⟨hexact, hP, hart⟩ := isExact_of_ofIndices rfl ht
  obtain rfl := indices_of_ofIndices ht
  have hd := Basis.nodup_indices_iff.mpr hexact.basis_injective
  obtain ⟨basis', hbasis', rfl⟩ : ∃ basis' : Basis m n,
      Basis.ofIndices l' = .ok basis' ∧ basis'.indices = l' :=
    Basis.ofIndices_exists (hl.length_eq ▸ Basis.length_indices t.basis)
      (fun j hj => Basis.lt_of_mem_indices (hl.mem_iff.mpr hj)) (hl.nodup_iff.mp hd)
  obtain ⟨σ, hσ⟩ := Basis.exists_perm (Basis.nodup_indices_iff.mp (hl.nodup_iff.mp hd))
    fun i => Basis.mem_indices.mp (hl.mem_iff.mpr (Basis.mem_indices.mpr ⟨i, rfl⟩))
  have hindependent : P.IsIndependent basis' := by
    have hcol : (P.basisMatrix basis').col = (P.basisMatrix t.basis).col ∘ σ := by
      funext i
      change P.constraints.toMatrix.col (basis'.get i) = P.constraints.toMatrix.col _
      rw [hσ]
    rw [Program.IsIndependent, hcol]
    exact (hP ▸ hexact.isIndependent).comp σ σ.injective
  obtain ⟨t', ht'⟩ := ofBasis_exists (Program.isIndependent_iff.mp hindependent) 0
  obtain ⟨hv, hP', hb, htol, hart'⟩ := isValid_of_ofBasis le_rfl ht'
  refine ⟨σ, t', Basis.indices_rearrange hσ, ?_, hexact, ⟨hv, htol⟩, hP'.trans hP.symm,
    hart'.trans hart.symm, fun i => ?_⟩
  · rw [ofIndices, hbasis', ← ht']
  · rw [hb, hσ]

end Tableau

namespace Problem

/-- The primal method can start from the list. -/
def Accepts (p : Problem ℚ) (options : Options ℚ) (basis : List ℕ) : Prop :=
  ∃ t, Tableau.ofIndices p.standardForm basis options.tolerance 0 = .ok t ∧
    t.isPrimalFeasible = true

def AcceptsDual (p : Problem ℚ) (options : Options ℚ) (basis : List ℕ) : Prop :=
  ∃ t, Tableau.ofIndices p.standardForm basis options.tolerance 0 = .ok t ∧
    t.isDualFeasible = true

theorem verdict_rearrange {p : Problem ℚ} {σ : Equiv.Perm (Fin m)} {s s' : Stop ℚ m p.columns}
    (h : Stop.Reorders σ s s') (removed : List ℕ) :
    p.verdict s'.status s'.tableau removed =
      (p.verdict s.status s.tableau removed).rearrange σ := by
  have ht := h.tableau
  rw [h.status_eq]
  cases s.status with
  | optimal =>
    rw [verdict, verdict, Basis.indices_rearrange ht.basis_get, ht.shadowPrice_eq,
      ht.objective_eq, ht.point_eq]
    rfl
  | unbounded => rfl
  | infeasible => rfl

variable (p : Problem ℚ) {options : Options ℚ}

/-- From a basis in another order a solve replaces the same columns at every pivot and ends with
the same answer or error. Only its bases are in the other order all through. -/
theorem solve_rearranged (h0 : options.tolerance = 0) {l l' : List ℕ} (hl : l.Perm l') :
    (options.leaving ≠ .firstMinimum → p.Accepts options l →
      ∃ σ : Equiv.Perm (Fin p.rows), l' = rearrange σ l ∧
        Run.Reorders σ (fun s s' => s' = s.rearrange σ) (p.solve options (some l))
          (p.solve options (some l'))) ∧
    (p.AcceptsDual options l →
      ∃ σ : Equiv.Perm (Fin p.rows), l' = rearrange σ l ∧
        Run.Reorders σ (fun s s' => s' = s.rearrange σ) (p.solveDual options l)
          (p.solveDual options l')) := by
  constructor
  · rintro ho ⟨t, ht, hf⟩
    rw [h0] at ht
    obtain ⟨σ, t', hσ, ht', h⟩ := Tableau.exists_reorders hl ht
    have hf' : t'.isPrimalFeasible = true := h.isPrimalFeasible_eq.trans hf
    refine ⟨σ, hσ, .emit_bind rfl rfl ?_⟩
    rw [← h0] at ht ht'
    dsimp only
    rw [solveFrom_of_isPrimalFeasible ht hf, solveFrom_of_isPrimalFeasible ht' hf']
    refine .emit_bind rfl rfl (.bind (h.primal ho .two) fun stop stop' hstop => .pure ?_)
    rw [Solution.rearrange, hstop.pivots_eq, verdict_rearrange hstop]
  · rintro ⟨t, ht, -⟩
    rw [h0] at ht
    obtain ⟨σ, t', hσ, ht', h⟩ := Tableau.exists_reorders hl ht
    refine ⟨σ, hσ, .emit_bind rfl rfl ?_⟩
    rw [h0, ht, ht', Run.ofExcept_ok_bind, Run.ofExcept_ok_bind]
    refine .bind (h.dual options) fun stop stop' hstop => .pure ?_
    rw [Solution.rearrange, hstop.pivots_eq, verdict_rearrange hstop]

theorem solve_rearranged_beale :
    (beale.solve ⟨0, 0, .dantzig, .lexicographic, none⟩ (some [2, 0, 1])).replacements =
        [(3, 1), (5, 2)] ∧
      (covering.solveDual { tolerance := 0, feasibilityTolerance := 0 } [3, 2]).replacements =
        [(1, 3), (0, 2)] := by
  have h0 : (⟨0, 0, .dantzig, .lexicographic, none⟩ : Options ℚ).tolerance = 0 := rfl
  have h0' : ({ tolerance := 0, feasibilityTolerance := 0 } : Options ℚ).tolerance = 0 := rfl
  have hl : [0, 1, 2].Perm [2, 0, 1] := by decide
  have hl' : [2, 3].Perm [3, 2] := by decide
  have haccepts : beale.Accepts ⟨0, 0, .dantzig, .lexicographic, none⟩ [0, 1, 2] := by
    have h : (Tableau.ofIndices beale.standardForm [0, 1, 2] 0 0).toOption.map
        (·.isPrimalFeasible) = some true := by decide +kernel
    exact exists_ok_of_toOption_map h
  have hdual : covering.AcceptsDual { tolerance := 0, feasibilityTolerance := 0 } [2, 3] := by
    have h : (Tableau.ofIndices covering.standardForm [2, 3] 0 0).toOption.map
        (·.isDualFeasible) = some true := by decide +kernel
    exact exists_ok_of_toOption_map h
  obtain ⟨σ, -, hprimal⟩ := (beale.solve_rearranged h0 hl).1 nofun haccepts
  obtain ⟨τ, -, hdual⟩ := (covering.solve_rearranged h0' hl').2 hdual
  constructor
  · rw [hprimal.replacements_eq]
    decide +kernel
  · rw [hdual.replacements_eq]
    decide +kernel

/-- The first minimum takes the row that comes first. -/
example : [[0, 1, 2], [1, 0, 2]].map (fun basis =>
    (beale.solve ⟨0, 0, .dantzig, .firstMinimum, some 1⟩ (some basis)).replacements) =
      [[(3, 0)], [(3, 1)]] := by decide +kernel

end Problem
end RevisedSimplex
