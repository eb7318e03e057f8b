import RevisedSimplex.Proofs.Course

/-! # What an observer sees

The snapshots of a solve are those of its phases in order. A solve that succeeds has one snapshot
more than pivots in each phase that ran, and none in the others.
-/

namespace RevisedSimplex

variable {F α : Type} {limit : Option ℕ} {columns : ℕ}

theorem filter_flatMap {ι : Type} [DecidableEq ι] {l : List ι} (hd : l.Nodup) {f : ι → List α}
    {P : α → Bool} {i : ι} (h : ∀ k ≠ i, ∀ a ∈ f k, P a = false) :
    (l.flatMap f).filter P = if i ∈ l then (f i).filter P else [] := by
  induction l with
  | nil => rfl
  | cons k l ih =>
    obtain ⟨hk, hd⟩ := List.nodup_cons.mp hd
    rw [List.flatMap_cons, List.filter_append, ih hd]
    by_cases hki : k = i
    · subst hki
      rw [if_neg hk, if_pos (List.mem_cons_self ..), List.append_nil]
    · have hnil : (f k).filter P = [] :=
        List.filter_eq_nil_iff.mpr fun a ha => by simp [h k hki a ha]
      rw [hnil, List.nil_append]
      simp [Ne.symm hki]

variable [Scalar F] {m n : ℕ}

namespace IsPart

variable {phase : Phase} {rows : ℕ} {reports : List (Event F)}
  {x : Option (Except (Failure F) ℕ)} (h : IsPart limit phase rows columns reports x)

include h

theorem reports_eq_nil (hx : x = none) : reports = [] := by
  cases h with
  | skipped => rfl
  | run _ => cases hx

theorem phase_eq : ∀ s ∈ reports.filterMap Event.snapshot?, s.phase = phase := by
  cases h with
  | skipped => exact fun _ hs => absurd hs List.not_mem_nil
  | run hrun => exact hrun.phase_eq

theorem isPhaseTrace : IsPhaseTrace rows (reports.filterMap Event.snapshot?) := by
  cases h with
  | skipped => exact isPhaseTrace_nil rows
  | run hrun => exact hrun.isPhaseTrace

theorem keepsOut : KeepsOut columns (reports.filterMap Event.snapshot?) := by
  cases h with
  | skipped => exact .nil
  | run hrun => exact hrun.keepsOut

theorem pivots_other {phase' : Phase} (hne : phase ≠ phase') :
    reports.countP (Event.isPivot phase') = 0 := by
  cases h with
  | skipped => rfl
  | run hrun => exact hrun.pivots_other phase' hne

theorem length_of_ok {k : ℕ} (hx : x = some (.ok k)) :
    (reports.filterMap Event.snapshot?).length = k + 1 := by
  cases h with
  | skipped => cases hx
  | run hrun => rw [hrun.length_eq, hrun.of_ok k (Option.some.inj hx)]

theorem le_limit {L : ℕ} (hL : limit = some L) : reports.countP (Event.isPivot phase) ≤ L := by
  cases h with
  | skipped => exact Nat.zero_le L
  | run hrun => exact hrun.pivots_eq ▸ hrun.le_limit L hL

theorem length_of_iterationLimit {L : ℕ} (hx : x = some (.error (.iterationLimit L))) :
    (reports.filterMap Event.snapshot?).length = L + 1 := by
  cases h with
  | skipped => cases hx
  | run hrun => rw [hrun.length_eq, (hrun.of_iterationLimit L (Option.some.inj hx)).2]

end IsPart

namespace IsCourse

variable {rows : Phase → ℕ} {order : List Phase} {ran : Solution F → List Phase}
  {reports : Phase → List (Event F)} {result : Phase → Option (Except (Failure F) ℕ)}
  {r : Run F (Solution F)} (h : IsCourse limit rows columns order ran reports result r)

include h

theorem reports_eq_nil {phase : Phase} (hphase : phase ∉ order) : reports phase = [] :=
  (h.isPart phase).reports_eq_nil (h.of_notMem phase hphase)

theorem snapshots_eq :
    r.snapshots = order.flatMap fun phase => (reports phase).filterMap Event.snapshot? := by
  rw [Run.snapshots_eq_reports, h.reports_eq, List.filterMap_flatMap]

theorem phaseSnapshots_eq (hd : order.Nodup) (phase : Phase) :
    r.phaseSnapshots phase = (reports phase).filterMap Event.snapshot? := by
  have hother : ∀ phase' ≠ phase, ∀ s ∈ (reports phase').filterMap Event.snapshot?,
      decide (s.phase = phase) = false := fun phase' hne s hs =>
    decide_eq_false fun he => hne (((h.isPart phase').phase_eq s hs).symm.trans he)
  rw [Run.phaseSnapshots, h.snapshots_eq, filter_flatMap hd hother]
  split
  · exact List.filter_eq_self.mpr fun s hs => decide_eq_true ((h.isPart phase).phase_eq s hs)
  · rename_i hphase
    rw [h.reports_eq_nil hphase]
    rfl

theorem pivots_eq (hd : order.Nodup) (phase : Phase) :
    r.pivots phase = (reports phase).countP (Event.isPivot phase) := by
  have hother : ∀ phase' ≠ phase, ∀ e ∈ reports phase', Event.isPivot phase e = false :=
    fun phase' hne e he => by
      simpa using List.countP_eq_zero.mp ((h.isPart phase').pivots_other hne) e he
  rw [Run.pivots_eq_reports, h.reports_eq, List.countP_eq_length_filter, filter_flatMap hd hother]
  split
  · exact List.countP_eq_length_filter.symm
  · rename_i hphase
    rw [h.reports_eq_nil hphase]
    rfl

end IsCourse

/-- The shape of all that an observer receives during a run on problem `p` whose phases come in
the given order. -/
structure Problem.IsTrace (p : Problem F) (order : List Phase) (r : Run F (Solution F)) : Prop where
  snapshots_eq : r.snapshots = order.flatMap r.phaseSnapshots
  isPhaseTrace : ∀ phase, IsPhaseTrace (p.phaseRows r.removed phase) (r.phaseSnapshots phase)
  keepsOut : KeepsOut p.columns (r.phaseSnapshots .one)

/-- The phases that ran have one snapshot more than pivots, the others have neither. -/
def Solution.Counts (s : Solution F) (ran : List Phase) (r : Run F (Solution F)) : Prop :=
  ∀ phase, if phase ∈ ran then (r.phaseSnapshots phase).length = s.pivots phase + 1
    else r.phaseSnapshots phase = [] ∧ s.pivots phase = 0

namespace IsCourse

variable {p : Problem F} {removed : List ℕ} {order : List Phase} {ran : Solution F → List Phase}
  {reports : Phase → List (Event F)} {result : Phase → Option (Except (Failure F) ℕ)}
  {r : Run F (Solution F)}

theorem isTrace (h : IsCourse limit (p.phaseRows r.removed) p.columns order ran reports result r)
    (hd : order.Nodup) : p.IsTrace order r where
  snapshots_eq := by
    rw [funext (h.phaseSnapshots_eq hd)]
    exact h.snapshots_eq
  isPhaseTrace phase := h.phaseSnapshots_eq hd phase ▸ (h.isPart phase).isPhaseTrace
  keepsOut := h.phaseSnapshots_eq hd .one ▸ (h.isPart .one).keepsOut

theorem counts {rows : Phase → ℕ} (h : IsCourse limit rows columns order ran reports result r)
    (hd : order.Nodup) {s : Solution F} (hs : r.outcome = .ok s) : s.Counts (ran s) r := by
  intro phase
  have hphase := h.of_ok s hs phase
  rw [h.phaseSnapshots_eq hd]
  split
  · rename_i hran
    rw [if_pos hran] at hphase
    exact (h.isPart phase).length_of_ok hphase
  · rename_i hran
    rw [if_neg hran] at hphase
    rw [(h.isPart phase).reports_eq_nil hphase.1]
    exact ⟨rfl, hphase.2⟩

end IsCourse

namespace Problem

variable (p : Problem F) (options : Options F)

/-- The observer of a solve receives the snapshots of phase one before those of phase two, that of
the dual method only dual ones. The snapshots of a phase are numbered without gap and exchange one
column at a time, and an artificial column does not come back. If the solve succeeds, the snapshots
are as many as the counted pivots say. -/
theorem solve_isTrace :
    (∀ basis, p.IsTrace [.one, .two] (p.solve options basis)) ∧
      (∀ basis, p.IsTrace [.dual] (p.solveDual options basis)) ∧
      (∀ basis s, (p.solve options basis).outcome = .ok s →
        s.Counts (ranPhases basis s.verdict) (p.solve options basis)) ∧
      (∀ basis s, (p.solveDual options basis).outcome = .ok s →
        s.Counts [.dual] (p.solveDual options basis)) ∧
      ∀ basis s o, (p.solve options basis).outcome = .ok s → s.verdict = .optimal o →
        (p.solve options basis).removed = o.removedRows := by
  have horder : [Phase.one, Phase.two].Nodup := by decide
  have hdual : [Phase.dual].Nodup := by decide
  have hremoved : ∀ basis, (p.solveDual options basis).removed = [] := fun basis =>
    Run.removed_eq_nil (p.ensures_solveDual options basis)
  refine ⟨fun basis => ?_, fun basis => ?_, fun basis s hs => ?_, fun basis s hs => ?_,
    fun basis s o => p.removed_solve options⟩
  · obtain ⟨reports, result, h⟩ := p.exists_course_solve options basis
    exact h.isTrace horder
  · obtain ⟨reports, result, h⟩ := p.exists_course_solveDual options basis
    exact IsCourse.isTrace (hremoved basis ▸ h) hdual
  · obtain ⟨reports, result, h⟩ := p.exists_course_solve options basis
    exact h.counts horder hs
  · obtain ⟨reports, result, h⟩ := p.exists_course_solveDual options basis
    exact h.counts hdual hs

theorem solve_isTrace_repeatedRow :
    (∃ s, (repeatedRow.solve { tolerance := 0, feasibilityTolerance := 0 } none).outcome = .ok s ∧
      (s.pivots .one, s.pivots .two) = (1, 1) ∧ s.Counts [.one, .two]
        (repeatedRow.solve { tolerance := 0, feasibilityTolerance := 0 } none)) ∧
      ∃ s, (covering.solveDual { tolerance := 0, feasibilityTolerance := 0 } [2, 3]).outcome =
        .ok s ∧ s.pivots .dual = 2 ∧ s.Counts [.dual]
          (covering.solveDual { tolerance := 0, feasibilityTolerance := 0 } [2, 3]) := by
  have hprimal : (repeatedRow.solve { tolerance := 0, feasibilityTolerance := 0 }
      none).outcome.toOption.map (fun s => (s.verdict.status, s.pivots .one, s.pivots .two)) =
        some (.optimal, 1, 1) := by decide +kernel
  have hdual : (covering.solveDual { tolerance := 0, feasibilityTolerance := 0 }
      [2, 3]).outcome.toOption.map (·.pivots .dual) = some 2 := by decide +kernel
  constructor
  · obtain ⟨s, hs, he⟩ := exists_ok_of_toOption_map hprimal
    obtain ⟨hstatus, hpivots⟩ := Prod.mk.inj he
    have hverdict : s.verdict ≠ .infeasible := fun h => by
      rw [h] at hstatus
      cases hstatus
    have hcounts := (repeatedRow.solve_isTrace _).2.2.1 none s hs
    rw [ranPhases_none hverdict] at hcounts
    exact ⟨s, hs, hpivots, hcounts⟩
  · obtain ⟨s, hs, hpivots⟩ := exists_ok_of_toOption_map hdual
    exact ⟨s, hs, hpivots, (covering.solve_isTrace _).2.2.2.1 [2, 3] s hs⟩

end Problem
end RevisedSimplex
