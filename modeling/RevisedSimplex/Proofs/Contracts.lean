import RevisedSimplex.Proofs.Phases
import RevisedSimplex.Proofs.Replacement

/-! # Contracts of runs

What holds of every event of a run, of the failure that ends it and of its answer. Whatever the
arithmetic, a phase only names rows and columns that exist, fails for a numerical reason or at its
limit of pivots, and keeps the basic columns different.
-/

namespace RevisedSimplex

variable {F α β : Type}

namespace Run

structure Ensures (E : Event F → Prop) (X : Failure F → Prop) (Q : α → Prop) (r : Run F α) :
    Prop where
  event : ∀ e ∈ r.events, E e
  failure : ∀ e, r.outcome = .error e → X e
  answer : ∀ a, r.outcome = .ok a → Q a

namespace Ensures

variable {E : Event F → Prop} {X : Failure F → Prop} {Q : α → Prop} {R : β → Prop}

theorem pure {a : α} (h : Q a) : Ensures E X Q (pure a) where
  event _ he := absurd he List.not_mem_nil
  failure _ he := nomatch he
  answer _ ha := Except.ok.inj ha ▸ h

theorem fail {e : Failure F} (h : X e) : Ensures E X Q (fail e) where
  event _ he := absurd he List.not_mem_nil
  failure _ he := Except.error.inj he ▸ h
  answer _ ha := nomatch ha

theorem ofExcept {x : Except (Failure F) α} (hX : ∀ e, x = .error e → X e)
    (hQ : ∀ a, x = .ok a → Q a) : Ensures E X Q (ofExcept x) where
  event _ he := absurd he List.not_mem_nil
  failure := hX
  answer := hQ

theorem bind {r : Run F α} {f : α → Run F β} (hr : Ensures E X Q r)
    (hf : ∀ a, Q a → Ensures E X R (f a)) : Ensures E X R (r >>= f) := by
  cases h : r.outcome with
  | error e =>
    rw [bind_of_error h]
    exact ⟨hr.event, fun _ he => Except.error.inj he ▸ hr.failure e h, nofun⟩
  | ok a =>
    rw [bind_of_ok h]
    have hnext := hf a (hr.answer a h)
    refine ⟨fun e he => ?_, hnext.failure, hnext.answer⟩
    rcases List.mem_append.mp he with he | he
    · exact hr.event e he
    · exact hnext.event e he

theorem emit {e : Event F} (he : E e) : Ensures E X (fun _ => True) (emit e) :=
  ⟨fun _ h => List.mem_singleton.mp h ▸ he, nofun, fun _ _ => trivial⟩

theorem emit_bind {e : Event F} {f : Unit → Run F β} (he : E e) (hf : Ensures E X R (f ())) :
    Ensures E X R (Run.emit e >>= f) :=
  bind (emit he) fun _ _ => hf

theorem imp {E' : Event F → Prop} {X' : Failure F → Prop} {Q' : α → Prop} {r : Run F α}
    (h : Ensures E X Q r) (hE : ∀ e, E e → E' e) (hX : ∀ e, X e → X' e) (hQ : ∀ a, Q a → Q' a) :
    Ensures E' X' Q' r :=
  ⟨fun e he => hE e (h.event e he), fun e he => hX e (h.failure e he),
    fun a ha => hQ a (h.answer a ha)⟩

theorem mono_event {E' : Event F → Prop} {r : Run F α} (h : Ensures E X Q r)
    (hE : ∀ {e}, E e → E' e) : Ensures E' X Q r :=
  h.imp (fun _ => hE) (fun _ h => h) fun _ h => h

theorem mono_failure {X' : Failure F → Prop} {r : Run F α} (h : Ensures E X Q r)
    (hX : ∀ {e}, X e → X' e) : Ensures E X' Q r :=
  h.imp (fun _ h => h) (fun _ => hX) fun _ h => h

end Ensures
end Run

def Phase.artificial (m : ℕ) : Phase → ℕ
  | .one => m
  | _ => 0

def Phase.width (m n : ℕ) (phase : Phase) : ℕ := n + phase.artificial m

/-- The rows and the columns that an event names are among `m` rows and `n` columns, those of
artificial variables among the `m` columns that follow. -/
def Event.NamesWithin (m n : ℕ) : Event F → Prop
  | .opening _ rows columns => rows = m ∧ columns = n
  | @Event.visit _ rows columns phase _ _ => rows ≤ m ∧ columns = phase.width m n
  | .pivot phase entering row leaving _ => entering < n ∧ row < m ∧ leaving < phase.width m n
  | .unboundedDirection _ column => column < n
  | .infeasibleRow _ row => row < m
  | .givenBasis basis => basis.length = m ∧ ∀ j ∈ basis, j < n
  | .artificialCost _ => True
  | .exchange artificial _ column => n ≤ artificial ∧ artificial < n + m ∧ column < n
  | .redundantRow artificial row => row < m ∧ artificial = n + row
  | .removedRows rows => rows.Pairwise (· < ·) ∧ ∀ i ∈ rows, i < m

def Event.removed : Event F → List ℕ
  | .removedRows rows => rows
  | _ => []

/-- An event of an iteration that an observer can count. -/
def Event.isReport : Event F → Bool
  | .visit .. => true
  | .pivot .. => true
  | _ => false

/-- An event that names what exists and removes nothing. -/
structure Event.IsWithin (m n : ℕ) (e : Event F) : Prop where
  namesWithin : e.NamesWithin m n
  removed_eq : e.removed = []

/-- An event between the iterations. -/
structure Event.IsQuiet (m n : ℕ) (e : Event F) : Prop extends e.IsWithin m n where
  isReport_eq : e.isReport = false

inductive Failure.IsNumerical : Failure F → Prop where
  | singularBasis (basis : List ℕ) : IsNumerical (.singularBasis basis)
  | artificialUnbounded : IsNumerical (.numerical .artificialUnbounded)
  | artificialWithoutPivot (column : ℕ) (value : F) :
    IsNumerical (.numerical (.artificialWithoutPivot column value))

theorem Failure.IsNumerical.ne_outOfPivots {e : Failure F} (h : e.IsNumerical)
    (limit : Option ℕ) : e ≠ outOfPivots limit := by
  rintro rfl
  cases limit <;> cases h

def Failure.IsArithmetical (limit : Option ℕ) (e : Failure F) : Prop :=
  e.IsNumerical ∨ e = outOfPivots limit

theorem Failure.IsArithmetical.spec {limit : Option ℕ} {e : Failure F}
    (h : e.IsArithmetical limit) : e.kind ≠ .dimension ∧ e.kind ≠ .invalidInitialBasis ∧
      ∀ column, e ≠ .numerical (.artificialNotBasic column) := by
  rcases h with h | rfl
  · cases h <;> simp [kind]
  · cases limit <;> simp [outOfPivots, kind]

variable [Scalar F] {m n k l : ℕ}

namespace Tableau

theorem isNumerical_of_ofBasis {P : Program F k l} {basis : Basis k l} {tolerance : F}
    {artificial : ℕ} {e : Failure F} (h : ofBasis P basis tolerance artificial = .error e) :
    e.IsNumerical := by
  unfold ofBasis at h
  split at h
  · cases h
  · cases h
    exact .singularBasis _

theorem ensures_ofBasis {E : Event F → Prop} {P : Program F k l} {basis : Basis k l}
    {tolerance : F} {artificial : ℕ} :
    (Run.ofExcept (ofBasis P basis tolerance artificial)).Ensures E Failure.IsNumerical
      fun t => t.basis = basis ∧ t.artificial = artificial := by
  refine .ofExcept (fun e => isNumerical_of_ofBasis) fun t ht => ?_
  obtain ⟨-, -, hb, -, ha⟩ := eq_of_ofBasis ht
  exact ⟨hb, ha⟩

theorem ensures_ofIndices {E : Event F → Prop} {P : Program F k l} {indices : List ℕ}
    {tolerance : F} {artificial : ℕ} (hlen : indices.length = k) (hlt : ∀ j ∈ indices, j < l)
    (hd : indices.Nodup) :
    (Run.ofExcept (ofIndices P indices tolerance artificial)).Ensures E Failure.IsNumerical
      (IsProper artificial) := by
  refine .ofExcept (fun e he => ?_) fun t => isProper_of_ofIndices
  obtain ⟨basis, hbasis, -⟩ := Basis.ofIndices_exists hlen hlt hd
  rw [ofIndices, hbasis] at he
  exact isNumerical_of_ofBasis he

theorem ensures_pivot {E : Event F → Prop} {t : Tableau F k l} {i : Fin k} {j : Fin l}
    {artificial : ℕ} (ht : t.IsProper artificial) (hj : t.MayEnter j) :
    (Run.ofExcept (t.pivot i j)).Ensures E Failure.IsNumerical (IsProper artificial) :=
  .ofExcept (fun _ => isNumerical_of_ofBasis) fun _ h => (isReplacement_of_pivot hj h).isProper ht

theorem ensures_iterate (phase : Phase) (limit : Option ℕ)
    {move : Option (Fin l) → Tableau F k l → Move F k l} (hmove : EntersNonbasic move)
    (hk : k ≤ m) (hl : l = phase.width m n) (remaining iteration : ℕ) (last : Option (Fin l))
    {t : Tableau F k l} (ht : t.IsProper (phase.artificial m)) :
    (t.iterate phase limit move remaining iteration last).Ensures (Event.IsWithin m n)
      (Failure.IsArithmetical limit) fun stop => stop.tableau.IsProper (phase.artificial m) := by
  induction remaining using Nat.strong_induction_on generalizing iteration last t with
  | _ remaining ih =>
    have hn : t.structural = n := by
      rw [structural, ht.artificial_eq, hl, Phase.width, Nat.add_sub_cancel]
    rw [iterate]
    refine .emit_bind ⟨⟨hk, hl⟩, rfl⟩ ?_
    split
    · exact .pure ht
    · rename_i j hm
      refine .emit_bind ⟨?_, rfl⟩ (.pure ht)
      exact hn ▸ (hmove.unbounded hm).1
    · rename_i i hm
      refine .emit_bind ⟨?_, rfl⟩ (.pure ht)
      exact i.isLt.trans_le hk
    · rename_i i j cost hm
      have hj := hmove.pivot hm
      split
      · exact .fail (Or.inr rfl)
      · refine .bind ((ensures_pivot ht hj).mono_failure Or.inl) fun next hnext => ?_
        refine .emit_bind ⟨⟨?_, ?_, ?_⟩, rfl⟩ ?_
        · exact hn ▸ hj.1
        · exact i.isLt.trans_le hk
        · exact hl ▸ (t.basis.get i).isLt
        · exact ih _ (Nat.lt_succ_self _) _ _ hnext

theorem ensures_primal (phase : Phase) (options : Options F) {t : Tableau F k l} (hk : k ≤ m)
    (hl : l = phase.width m n) (ht : t.IsProper (phase.artificial m)) :
    (t.primal phase options).Ensures (Event.IsWithin m n)
      (Failure.IsArithmetical options.iterationLimit)
      fun stop => stop.tableau.IsProper (phase.artificial m) :=
  ensures_iterate phase _ (entersNonbasic_primalMove options) hk hl _ _ _ ht

theorem ensures_dual (options : Options F) {t : Tableau F m n} (ht : t.IsProper 0) :
    (t.dual options).Ensures (Event.IsWithin m n) (fun _ => True) fun stop =>
      stop.tableau.IsProper 0 := by
  rw [dual]
  split
  · exact (ensures_iterate .dual _ entersNonbasic_dualMove le_rfl rfl _ _ _ ht).mono_failure
      fun _ => trivial
  · exact .fail trivial

end Tableau

namespace Repair

theorem ensures_step {s : Repair F m n} {i : Fin m} {todo : List (Fin m)}
    (hs : Tracks s (i :: todo)) :
    (step s i).Ensures (Event.IsQuiet m n) Failure.IsNumerical (Tracks · todo) := by
  suffices h : (step s i).Ensures (Event.IsQuiet m n) Failure.IsNumerical fun _ => True by
    refine ⟨h.event, h.failure, fun s' hs' => ?_⟩
    obtain ⟨r, hr, htreated⟩ := isTreated_of_step hs'
    exact hs.of_isTreated hr htreated
  have hi : (artificialColumn n i).val < n + m := (artificialColumn n i).isLt
  unfold step
  dsimp only
  split
  · rename_i hnone
    obtain ⟨r, hr⟩ := (s.tableau.isBasic_iff _).mp ((hs.isBasic_iff i).mpr (by simp))
    refine absurd ?_ (Vector.finIdxOf?_eq_none_iff.mp hnone)
    exact hr ▸ Vector.getElem_mem ..
  · rename_i r _
    split
    · rename_i j element hq
      have hmem : (j, element) ∈ pivots s.tableau r := mem_pivots_of_choice hq
      have hj : j.val < n := by
        simpa [Tableau.structural, hs.artificial_eq] using (of_mem_pivots hmem).1
      refine .emit_bind ⟨⟨⟨Nat.le_add_right .., hi, hj⟩, rfl⟩, rfl⟩ ?_
      exact .bind Tableau.ensures_ofBasis fun _ _ => .pure trivial
    · split
      · exact .emit_bind ⟨⟨⟨i.isLt, rfl⟩, rfl⟩, rfl⟩ (.pure trivial)
      · exact .fail (.artificialWithoutPivot _ _)

theorem ensures_ofTableau {t : Tableau F m (n + m)} (ht : t.IsProper m) :
    (ofTableau t).Ensures (Event.IsQuiet m n) Failure.IsNumerical (Tracks · []) := by
  suffices ∀ (todo : List (Fin m)) (s : Repair F m n), Tracks s todo →
      (todo.foldlM step s).Ensures (Event.IsQuiet m n) Failure.IsNumerical (Tracks · []) from
    this _ _ (tracks_start ht.injective ht.artificial_eq)
  intro todo
  induction todo with
  | nil => exact fun s hs => .pure hs
  | cons i todo ih =>
    intro s hs
    rw [List.foldlM_cons]
    exact .bind (ensures_step hs) ih

end Repair

/-- A feasible answer names different structural columns, one for each row that it keeps. -/
inductive Feasibility.IsSound (n : ℕ) : Feasibility m → Prop where
  | infeasible : IsSound n .infeasible
  | feasible {basis : List ℕ} {redundant : List (Fin m)} : basis.Nodup → (∀ j ∈ basis, j < n) →
      basis.length + redundant.length = m → redundant.Pairwise (· < ·) →
      IsSound n (.feasible basis redundant)

omit [Scalar F] in
theorem Repair.Tracks.isSound {s : Repair F m n} (hs : Tracks s []) :
    Feasibility.IsSound n (.feasible s.structuralBasis s.redundant) :=
  .feasible hs.nodup_structuralBasis
    (fun _ hj => of_decide_eq_true (List.mem_filter.mp hj).2)
    hs.length_structuralBasis hs.sorted_redundant

/-- What phase one makes of the last tableau of its iteration. -/
def Stop.assess (stop : Stop F m (n + m)) (options : Options F) : Run F (Feasibility m × ℕ) :=
  if stop.status ≠ .optimal then Run.fail (.numerical .artificialUnbounded)
  else if options.feasibilityTolerance < stop.tableau.objective then do
    Run.emit (.artificialCost stop.tableau.objective)
    return (.infeasible, stop.pivots)
  else do
    let repair ← Repair.ofTableau stop.tableau
    return (.feasible repair.structuralBasis repair.redundant, stop.pivots)

theorem Stop.ensures_assess {stop : Stop F m (n + m)} (h : stop.tableau.IsProper m)
    (options : Options F) :
    (stop.assess options).Ensures (Event.IsQuiet m n) Failure.IsNumerical
      fun answer => answer.1.IsSound n ∧ answer.2 = stop.pivots := by
  rw [assess]
  split
  · exact .fail .artificialUnbounded
  · split
    · exact .emit_bind ⟨⟨trivial, rfl⟩, rfl⟩ (.pure ⟨.infeasible, rfl⟩)
    · exact .bind (Repair.ensures_ofTableau h) fun s hs => .pure ⟨hs.isSound, rfl⟩

theorem artificialBasis_injective (m n : ℕ) : Function.Injective (artificialBasis m n).get := by
  intro i i' h
  simpa [artificialBasis, artificialColumn_injective.eq_iff] using h

theorem Tableau.isProper_start {P : Program F m n} {tolerance : F} {start : Tableau F m (n + m)}
    (h : ofBasis P.auxiliary (artificialBasis m n) tolerance m = .ok start) : start.IsProper m := by
  obtain ⟨-, -, hb, -, ha⟩ := eq_of_ofBasis h
  exact ⟨hb ▸ artificialBasis_injective m n, ha⟩

theorem Program.feasibility_eq (P : Program F m n) (options : Options F) :
    P.feasibility options =
      (Run.ofExcept (Tableau.ofBasis P.auxiliary (artificialBasis m n) options.tolerance m) >>=
        fun start => start.primal .one options >>= fun stop => stop.assess options) := rfl

/-- Whatever the arithmetic, phase one leaves the data of a basis for the rows that it keeps. -/
theorem Program.ensures_feasibility (P : Program F m n) (options : Options F) :
    (P.feasibility options).Ensures (Event.IsWithin m n)
      (Failure.IsArithmetical options.iterationLimit) fun answer => answer.1.IsSound n := by
  rw [feasibility_eq]
  refine .bind (.ofExcept (fun e he => Or.inl (Tableau.isNumerical_of_ofBasis he))
    fun start => Tableau.isProper_start) fun start hstart => ?_
  refine .bind (Tableau.ensures_primal .one options le_rfl rfl hstart) fun stop hstop => ?_
  exact (Stop.ensures_assess hstop options).imp (fun _ h => h.toIsWithin) (fun _ => Or.inl)
    fun _ h => h.1

end RevisedSimplex
