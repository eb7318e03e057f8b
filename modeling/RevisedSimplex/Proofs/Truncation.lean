import RevisedSimplex.Proofs.Bland
import RevisedSimplex.Proofs.Observation

/-! # Limits of pivots

A larger limit continues a run that stopped at a smaller one, and changes nothing about a run that
did not. The pivots are counted for each phase, and the limit is checked before a pivot.
-/

namespace RevisedSimplex

variable {F α β : Type}

/-- The same options with a limit of `L` pivots for each phase. -/
def Options.withLimit (options : Options F) (L : ℕ) : Options F :=
  { options with iterationLimit := some L }

namespace Run

/-- The first run is the second one, unless it ends early with the failure `e`. -/
structure Truncates (e : Failure F) (r r' : Run F α) : Prop where
  prefix_events : r.events <+: r'.events
  eq_of_ne : r.outcome ≠ .error e → r' = r

variable {e : Failure F}

theorem Truncates.refl (e : Failure F) (r : Run F α) : Truncates e r r :=
  ⟨List.prefix_rfl, fun _ => rfl⟩

theorem Truncates.fail (e : Failure F) (r : Run F α) : Truncates e (fail e) r :=
  ⟨List.nil_prefix, fun h => absurd rfl h⟩

theorem prefix_events_bind (r : Run F α) (f : α → Run F β) : r.events <+: (r >>= f).events := by
  cases h : r.outcome with
  | ok a =>
    rw [bind_of_ok h]
    exact List.prefix_append ..
  | error e => rw [bind_of_error h]

theorem Truncates.bind {r r' : Run F α} {f f' : α → Run F β} (hr : Truncates e r r')
    (hf : ∀ a, Truncates e (f a) (f' a)) : Truncates e (r >>= f) (r' >>= f') := by
  cases h : r.outcome with
  | ok a =>
    obtain rfl := hr.eq_of_ne (by simp [h])
    rw [bind_of_ok h, bind_of_ok h]
    refine ⟨(List.prefix_append_right_inj _).mpr (hf a).prefix_events, fun hne => ?_⟩
    rw [(hf a).eq_of_ne hne]
  | error e' =>
    rw [bind_of_error h]
    refine ⟨hr.prefix_events.trans (prefix_events_bind r' f'), fun hne => ?_⟩
    have hne : e' ≠ e := fun he => hne (congrArg _ he)
    obtain rfl := hr.eq_of_ne (by rw [h]; exact fun he => hne (Except.error.inj he))
    exact bind_of_error h f'

end Run

variable [Scalar F] {m n : ℕ}

namespace Tableau

theorem iterate_truncates (phase : Phase) (limit limit' : Option ℕ)
    (move : Option (Fin n) → Tableau F m n → Move F m n) {remaining remaining' : ℕ}
    (h : remaining ≤ remaining') (iteration : ℕ) (last : Option (Fin n)) (t : Tableau F m n) :
    Run.Truncates (outOfPivots limit) (t.iterate phase limit move remaining iteration last)
      (t.iterate phase limit' move remaining' iteration last) := by
  induction remaining using Nat.strong_induction_on
    generalizing remaining' iteration last t with
  | _ remaining ih =>
    rw [iterate, iterate]
    refine .bind (.refl _ _) fun _ => ?_
    split
    · exact .refl _ _
    · exact .refl _ _
    · exact .refl _ _
    · cases remaining with
      | zero => exact .fail _ _
      | succ remaining =>
        obtain ⟨remaining', rfl⟩ := Nat.exists_eq_add_of_lt h
        refine .bind (.refl _ _) fun next => .bind (.refl _ _) fun _ => ?_
        exact ih remaining (Nat.lt_succ_self _) (by omega) _ _ _

theorem primal_truncates (options : Options F) {L L' : ℕ} (h : L ≤ L') (t : Tableau F m n)
    (phase : Phase) : Run.Truncates (.iterationLimit L) (t.primal phase (options.withLimit L))
      (t.primal phase (options.withLimit L')) :=
  iterate_truncates phase (some L) (some L') (primalMove options) h 0 none t

theorem dual_truncates (options : Options F) {L L' : ℕ} (h : L ≤ L') (t : Tableau F m n) :
    Run.Truncates (.iterationLimit L) (t.dual (options.withLimit L))
      (t.dual (options.withLimit L')) := by
  rw [dual, dual]
  split
  · exact iterate_truncates .dual (some L) (some L') (fun _ => dualMove) h 0 none t
  · exact .refl _ _

end Tableau

/-- A run that stopped at its limit of `L` pivots in the phase of its last snapshot. -/
def Run.StopsAt (L : ℕ) (r : Run F α) : Prop :=
  ∃ phase, r.snapshots.getLast?.map (·.phase) = some phase ∧
    (r.phaseSnapshots phase).length = L + 1 ∧ ∀ phase', r.pivots phase' ≤ L

theorem IsCourse.stopsAt {columns : ℕ} {rows : Phase → ℕ} {order : List Phase}
    {ran : Solution F → List Phase} {reports : Phase → List (Event F)}
    {result : Phase → Option (Except (Failure F) ℕ)} {r : Run F (Solution F)} {L : ℕ}
    (h : IsCourse (some L) rows columns order ran reports result r) (hd : order.Nodup)
    (hL : r.outcome = .error (.iterationLimit L)) : r.StopsAt L := by
  obtain ⟨before, phase, after, rfl, hphase, hafter⟩ := h.of_iterationLimit L hL
  have hlength := (h.isPart phase).length_of_iterationLimit hphase
  refine ⟨phase, ?_, ?_, fun phase' => ?_⟩
  · have hnil : after.flatMap (fun q => (reports q).filterMap Event.snapshot?) = [] := by
      refine List.flatMap_eq_nil_iff.mpr fun q hq => ?_
      rw [(h.isPart q).reports_eq_nil (hafter q hq)]
      rfl
    have hne : (reports phase).filterMap Event.snapshot? ≠ [] :=
      List.ne_nil_of_length_eq_add_one hlength
    rw [h.snapshots_eq, List.flatMap_append, List.flatMap_cons, hnil, List.append_nil,
      List.getLast?_append_of_ne_nil _ hne, List.getLast?_eq_some_getLast hne]
    exact congrArg some ((h.isPart phase).phase_eq _ (List.getLast_mem hne))
  · rw [h.phaseSnapshots_eq hd, hlength]
  · rw [h.pivots_eq hd]
    exact (h.isPart phase').le_limit rfl

variable (options : Options F) {L L' : ℕ} (h : L ≤ L')

include h

theorem Program.feasibility_truncates (P : Program F m n) :
    Run.Truncates (.iterationLimit L) (P.feasibility (options.withLimit L))
      (P.feasibility (options.withLimit L')) := by
  rw [feasibility_eq, feasibility_eq]
  refine .bind (.refl _ _) fun start => .bind (start.primal_truncates options h .one) fun stop => ?_
  exact .refl _ _

namespace Problem

variable (p : Problem F)

theorem optimize_truncates {k : ℕ} (t : Tableau F k p.columns) (removed : List ℕ) (before : ℕ) :
    Run.Truncates (.iterationLimit L) (p.optimize (options.withLimit L) t removed before)
      (p.optimize (options.withLimit L') t removed before) :=
  .bind (t.primal_truncates options h .two) fun _ => .refl _ _

theorem phaseTwo_truncates (basis : List ℕ) (redundant : List (Fin p.rows)) (before : ℕ) :
    Run.Truncates (.iterationLimit L) (p.phaseTwo (options.withLimit L) basis redundant before)
      (p.phaseTwo (options.withLimit L') basis redundant before) :=
  .bind (.refl _ _) fun t => p.optimize_truncates options h t _ before

theorem solve_truncates (basis : Option (List ℕ)) :
    Run.Truncates (.iterationLimit L) (p.solve (options.withLimit L) basis)
      (p.solve (options.withLimit L') basis) := by
  refine .bind (.refl _ _) fun _ => ?_
  cases basis with
  | some basis =>
    refine .bind (.refl _ _) fun t => ?_
    split
    · exact .bind (.refl _ _) fun _ => p.optimize_truncates options h t _ _
    · exact .refl _ _
  | none =>
    change Run.Truncates _ (p.solveTwoPhase _) (p.solveTwoPhase _)
    rw [solveTwoPhase_eq, solveTwoPhase_eq]
    refine .bind (p.standardForm.feasibility_truncates options h) ?_
    rintro ⟨answer, before⟩
    cases answer with
    | infeasible => exact .refl _ _
    | feasible basis redundant =>
      rw [proceed, proceed]
      split
      · exact p.phaseTwo_truncates options h basis redundant before
      · exact .bind (.refl _ _) fun _ => p.phaseTwo_truncates options h basis redundant before

theorem solveDual_truncates (basis : List ℕ) :
    Run.Truncates (.iterationLimit L) (p.solveDual (options.withLimit L) basis)
      (p.solveDual (options.withLimit L') basis) :=
  .bind (.refl _ _) fun _ => .bind (.refl _ _) fun t =>
    .bind (t.dual_truncates options h) fun _ => .refl _ _

end Problem

/-- The run with the larger limit is the same, or the run with the limit `L` is the part of it up
to the pivot that would exceed the limit of a phase. -/
structure Run.IsLimited (L : ℕ) (r r' : Run F α) : Prop where
  eq_of_ne : r.outcome ≠ .error (.iterationLimit L) → r' = r
  prefix_snapshots : r.snapshots <+: r'.snapshots
  stopsAt : r.outcome = .error (.iterationLimit L) → r.StopsAt L

omit h in
theorem Run.Truncates.isLimited {r r' : Run F α} (h : Truncates (.iterationLimit L) r r')
    (hstops : r.outcome = .error (.iterationLimit L) → r.StopsAt L) : IsLimited L r r' :=
  ⟨h.eq_of_ne, h.prefix_events.filterMap _, hstops⟩

namespace Problem

variable (p : Problem F)

/-- Limits of pivots only truncate. -/
theorem solve_isLimited :
    (∀ basis, Run.IsLimited L (p.solve (options.withLimit L) basis)
        (p.solve (options.withLimit L') basis)) ∧
      ∀ basis, Run.IsLimited L (p.solveDual (options.withLimit L) basis)
        (p.solveDual (options.withLimit L') basis) := by
  constructor
  · intro basis
    obtain ⟨reports, result, hcourse⟩ := p.exists_course_solve (options.withLimit L) basis
    exact (p.solve_truncates options h basis).isLimited (hcourse.stopsAt (by decide))
  · intro basis
    obtain ⟨reports, result, hcourse⟩ := p.exists_course_solveDual (options.withLimit L) basis
    exact (p.solveDual_truncates options h basis).isLimited (hcourse.stopsAt (by decide))

omit h

def blandOptions : Options ℚ :=
  ⟨0, 0, .firstProfitable, .smallestIndex, none⟩

/-- Phase one needs three pivots and phase two six. -/
theorem solve_isLimited_beale :
    (beale.solve (blandOptions.withLimit 5) none).StopsAt 5 ∧
      (beale.solve (blandOptions.withLimit 5) none).snapshots <+:
        (beale.solve (blandOptions.withLimit 6) none).snapshots ∧
      (∃ s, (beale.solve (blandOptions.withLimit 6) none).outcome = .ok s) ∧
      beale.solve (blandOptions.withLimit 100) none =
        beale.solve (blandOptions.withLimit 6) none := by
  have hfive : (beale.solve (blandOptions.withLimit 5) none).outcome.map (fun _ => ()) =
      .error (.iterationLimit 5) := by decide +kernel
  have hsix : (beale.solve (blandOptions.withLimit 6) none).outcome.toOption.map
      (·.pivots .two) = some 6 := by decide +kernel
  obtain ⟨s, hs, -⟩ := exists_ok_of_toOption_map hsix
  have hshort := (beale.solve_isLimited blandOptions (Nat.le_succ 5)).1 none
  have hlong := (beale.solve_isLimited blandOptions (Nat.le_add_right 6 94)).1 none
  refine ⟨hshort.stopsAt ?_, hshort.prefix_snapshots, ⟨s, hs⟩, hlong.eq_of_ne (by simp [hs])⟩
  cases h : (beale.solve (blandOptions.withLimit 5) none).outcome with
  | ok s =>
    rw [h] at hfive
    cases hfive
  | error e =>
    rw [h] at hfive
    exact congrArg _ (Except.error.inj hfive)

end Problem
end RevisedSimplex
