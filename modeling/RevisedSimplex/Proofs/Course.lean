import RevisedSimplex.Proofs.Trace
import RevisedSimplex.Proofs.WellFormed

/-! # The course of a solve

A solve runs through its phases in order. Between them it reports nothing that an observer counts,
and no limit of pivots applies there.
-/

namespace RevisedSimplex

variable {F α β : Type} [Scalar F] {m n : ℕ} {limit : Option ℕ} {phase : Phase}
  {rows columns : ℕ}

/-- The reports of a phase and how it ended, nothing if it was left out. -/
inductive IsPart (limit : Option ℕ) (phase : Phase) (rows columns : ℕ) :
    List (Event F) → Option (Except (Failure F) ℕ) → Prop where
  | skipped : IsPart limit phase rows columns [] none
  | run {k : ℕ} {reports : List (Event F)} {x : Except (Failure F) ℕ} :
      IsPhaseRun limit phase rows columns k reports x →
      IsPart limit phase rows columns reports (some x)

/-- A run with one phase, which ends with `x`, or with none if it fails before. -/
structure Run.HasPhase (limit : Option ℕ) (phase : Phase) (rows columns : ℕ) (pivots : α → ℕ)
    (x : Option (Except (Failure F) ℕ)) (r : Run F α) : Prop where
  isPart : IsPart limit phase rows columns r.reports x
  of_ok : ∀ a, r.outcome = .ok a → x = some (.ok (pivots a))
  of_iterationLimit : ∀ L, r.outcome = .error (.iterationLimit L) →
    x = some (.error (.iterationLimit L))

abbrev Run.IsQuiet (Q : α → Prop) (r : Run F α) : Prop :=
  r.Ensures (fun e => e.isReport = false) (fun e => ∀ L, e ≠ .iterationLimit L) Q

namespace Run

variable {Q : α → Prop}

omit [Scalar F] in
theorem IsQuiet.reports_eq {r : Run F α} (h : r.IsQuiet Q) : r.reports = [] :=
  List.filter_eq_nil_iff.mpr fun e he => by simp [h.event e he]

theorem IsQuiet.bind_hasPhase {r : Run F α} {f : α → Run F β} {pivots : β → ℕ}
    (hr : r.IsQuiet Q) (hf : ∀ a, Q a → ∃ x, (f a).HasPhase limit phase rows columns pivots x) :
    ∃ x, (r >>= f).HasPhase limit phase rows columns pivots x := by
  cases h : r.outcome with
  | error e =>
    refine ⟨none, ?_, ?_, ?_⟩
    · rw [reports_bind_of_error h, hr.reports_eq]
      exact .skipped
    · rw [bind_of_error h]
      exact nofun
    · rw [bind_of_error h]
      exact fun L hL => absurd (Except.error.inj hL) (hr.failure e h L)
  | ok a =>
    obtain ⟨x, hpart, hok, hlimit⟩ := hf a (hr.answer a h)
    refine ⟨x, ?_, ?_, ?_⟩
    · rwa [reports_bind_of_ok h, hr.reports_eq]
    · rwa [bind_of_ok h]
    · rwa [bind_of_ok h]

theorem hasPhase_fail {e : Failure F} (h : ∀ L, e ≠ .iterationLimit L) (pivots : α → ℕ) :
    ∃ x, (fail e : Run F α).HasPhase limit phase rows columns pivots x :=
  ⟨none, .skipped, nofun, fun L hL => absurd (Except.error.inj hL) (h L)⟩

theorem HasPhase.bind_isQuiet {r : Run F α} {f : α → Run F β} {pivots : α → ℕ} {pivots' : β → ℕ}
    {x : Option (Except (Failure F) ℕ)} (hr : r.HasPhase limit phase rows columns pivots x)
    (hf : ∀ a, r.outcome = .ok a → (f a).IsQuiet fun b => pivots' b = pivots a) :
    (r >>= f).HasPhase limit phase rows columns pivots' x := by
  cases h : r.outcome with
  | error e =>
    refine ⟨?_, ?_, ?_⟩
    · rw [reports_bind_of_error h]
      exact hr.isPart
    · rw [bind_of_error h]
      exact nofun
    · rw [bind_of_error h]
      exact fun L hL => hr.of_iterationLimit L (h.trans (congrArg _ (Except.error.inj hL)))
  | ok a =>
    have hquiet := hf a h
    refine ⟨?_, ?_, ?_⟩
    · rw [reports_bind_of_ok h, hquiet.reports_eq, List.append_nil]
      exact hr.isPart
    · rw [bind_of_ok h]
      exact fun b hb => hquiet.answer b hb ▸ hr.of_ok a h
    · rw [bind_of_ok h]
      exact fun L hL => absurd rfl (hquiet.failure _ hL L)

end Run

omit [Scalar F] in
theorem Failure.IsNumerical.ne_iterationLimit {e : Failure F} (h : e.IsNumerical) (L : ℕ) :
    e ≠ .iterationLimit L :=
  h.ne_outOfPivots (some L)

namespace Tableau

theorem hasPhase_iterate (phase : Phase) (limit : Option ℕ) {artificial : ℕ}
    {move : Option (Fin n) → Tableau F m n → Move F m n}
    (hmove : EntersNonbasic move) {t : Tableau F m n} (ht : t.IsProper artificial)
    (hcolumns : n - artificial = columns) :
    ∃ x, (t.iterate phase limit move (allowance limit m n) 0 none).HasPhase limit phase m columns
      (·.pivots) x := by
  obtain ⟨k, h⟩ := isPhaseRun_iterate phase limit hmove ht
  refine ⟨_, .run (hcolumns ▸ h), fun stop hstop => ?_, fun L hL => ?_⟩
  · rw [hstop]
    rfl
  · rw [hL]
    rfl

theorem isQuiet_ofIndices (P : Program F m n) (indices : List ℕ) (tolerance : F)
    (artificial : ℕ) :
    (Run.ofExcept (ofIndices P indices tolerance artificial)).IsQuiet (IsProper artificial) := by
  refine .ofExcept (fun e he => ?_) fun t => isProper_of_ofIndices
  unfold ofIndices at he
  split at he
  · exact (isNumerical_of_ofBasis he).ne_iterationLimit
  · cases he
    exact nofun

theorem hasPhase_primal (phase : Phase) (options : Options F) {artificial : ℕ} {t : Tableau F m n}
    (ht : t.IsProper artificial) (hcolumns : n - artificial = columns) :
    ∃ x, (t.primal phase options).HasPhase options.iterationLimit phase m columns (·.pivots) x :=
  hasPhase_iterate _ _ (entersNonbasic_primalMove options) ht hcolumns

end Tableau

theorem Program.hasPhase_feasibility (P : Program F m n) (options : Options F) :
    ∃ x, (P.feasibility options).HasPhase options.iterationLimit .one m n (·.2) x := by
  rw [feasibility_eq]
  refine Run.IsQuiet.bind_hasPhase (Q := fun start => start.IsProper m) ?_ fun start hstart => ?_
  · exact .ofExcept (fun e he => (Tableau.isNumerical_of_ofBasis he).ne_iterationLimit)
      fun start => Tableau.isProper_start
  · obtain ⟨x, hx⟩ := Tableau.hasPhase_primal .one options hstart
      (Nat.add_sub_cancel ..)
    refine ⟨x, hx.bind_isQuiet fun stop hstop => ?_⟩
    have hproper := (Tableau.ensures_primal .one options le_rfl rfl
      hstart).answer stop hstop
    exact (Stop.ensures_assess hproper options).imp (fun _ h => h.isReport_eq)
      (fun _ h => h.ne_iterationLimit) fun _ h => h.2

namespace Problem

variable (p : Problem F) (options : Options F)

theorem hasPhase_optimize {t : Tableau F rows p.columns} (ht : t.IsProper 0) (removed : List ℕ)
    (before : ℕ) : ∃ x, (p.optimize options t removed before).HasPhase options.iterationLimit .two
      rows p.columns (·.pivots .two) x := by
  obtain ⟨x, hx⟩ := Tableau.hasPhase_primal .two options ht (Nat.sub_zero _)
  exact ⟨x, hx.bind_isQuiet fun stop _ => .pure rfl⟩

theorem hasPhase_solveFrom (basis : List ℕ) :
    ∃ x, (p.solveFrom options basis).HasPhase options.iterationLimit .two p.rows p.columns
      (·.pivots .two) x := by
  refine (Tableau.isQuiet_ofIndices _ _ _ _).bind_hasPhase fun t ht => ?_
  split
  · exact Run.IsQuiet.bind_hasPhase (.emit rfl) fun _ _ => p.hasPhase_optimize options ht [] 0
  · exact Run.hasPhase_fail (by simp) _

theorem hasPhase_solveDual (basis : List ℕ) :
    ∃ x, (p.solveDual options basis).HasPhase options.iterationLimit .dual p.rows p.columns
      (·.pivots .dual) x := by
  refine Run.IsQuiet.bind_hasPhase (.emit rfl) fun _ _ => ?_
  refine (Tableau.isQuiet_ofIndices _ _ _ _).bind_hasPhase fun t ht => ?_
  rw [Tableau.dual]
  split
  · obtain ⟨x, hx⟩ := Tableau.hasPhase_iterate .dual options.iterationLimit
      Tableau.entersNonbasic_dualMove ht (Nat.sub_zero _)
    exact ⟨x, hx.bind_isQuiet fun stop _ => .pure rfl⟩
  · exact Run.hasPhase_fail (by simp) _

theorem of_optimize {k : ℕ} {t : Tableau F k p.columns} {removed : List ℕ} {before : ℕ}
    {s : Solution F} (h : (p.optimize options t removed before).outcome = .ok s) :
    s.pivots .one = before ∧ s.pivots .dual = 0 ∧ s.verdict ≠ .infeasible ∧
      ∀ o, s.verdict = .optimal o → o.removedRows = removed := by
  obtain ⟨⟨status, last, pivots⟩, hstop, h⟩ := Run.outcome_bind_eq_ok.mp h
  cases h
  refine ⟨rfl, rfl, ?_, ?_⟩
  · intro h
    cases status with
    | optimal => cases h
    | unbounded => cases h
    | infeasible => exact absurd rfl (Tableau.status_of_primal hstop)
  · intro o ho
    cases status with
    | optimal =>
      cases ho
      rfl
    | unbounded => cases ho
    | infeasible => cases ho

end Problem

/-- How a run goes through its phases in the given order, with the reports and the result of each.
An answer `s` comes from the phases `ran s`. -/
structure IsCourse (limit : Option ℕ) (rows : Phase → ℕ) (columns : ℕ) (order : List Phase)
    (ran : Solution F → List Phase) (reports : Phase → List (Event F))
    (result : Phase → Option (Except (Failure F) ℕ)) (r : Run F (Solution F)) : Prop where
  isPart : ∀ phase, IsPart limit phase (rows phase) columns (reports phase) (result phase)
  reports_eq : r.reports = order.flatMap reports
  of_notMem : ∀ phase ∉ order, result phase = none
  of_ok : ∀ s, r.outcome = .ok s → ∀ phase,
    if phase ∈ ran s then result phase = some (.ok (s.pivots phase))
    else result phase = none ∧ s.pivots phase = 0
  /-- The phase that stops at the limit is the last one that runs. -/
  of_iterationLimit : ∀ L, r.outcome = .error (.iterationLimit L) →
    ∃ before phase after, order = before ++ phase :: after ∧
      result phase = some (.error (.iterationLimit L)) ∧ ∀ q ∈ after, result q = none

def Run.removed (r : Run F α) : List ℕ := r.events.flatMap Event.removed

theorem IsCourse.congr {rows : Phase → ℕ} {order : List Phase} {ran : Solution F → List Phase}
    {reports : Phase → List (Event F)} {result : Phase → Option (Except (Failure F) ℕ)}
    {r r' : Run F (Solution F)} (h : IsCourse limit rows columns order ran reports result r)
    (hreports : r'.reports = r.reports) (houtcome : r'.outcome = r.outcome) :
    IsCourse limit rows columns order ran reports result r' where
  isPart := h.isPart
  reports_eq := hreports.trans h.reports_eq
  of_notMem := h.of_notMem
  of_ok s hs := h.of_ok s (houtcome.symm.trans hs)
  of_iterationLimit L hL := h.of_iterationLimit L (houtcome.symm.trans hL)

omit [Scalar F] in
theorem Run.removed_bind_of_ok {r : Run F α} {a : α} (h : r.outcome = .ok a) (f : α → Run F β) :
    (r >>= f).removed = r.removed ++ (f a).removed := by
  rw [bind_of_ok h]
  exact List.flatMap_append

omit [Scalar F] in
theorem Run.removed_eq_nil {X : Failure F → Prop} {Q : α → Prop} {r : Run F α}
    (h : r.Ensures (Event.IsWithin m n) X Q) : r.removed = [] :=
  List.flatMap_eq_nil_iff.mpr fun e he => (h.event e he).removed_eq

/-- The phases of a solve with such a verdict. A basis makes phase one unnecessary, and an
infeasible problem has no phase two. -/
def ranPhases (basis : Option (List ℕ)) (verdict : Verdict F) : List Phase :=
  match basis, verdict with
  | some _, _ => [.two]
  | none, .infeasible => [.one]
  | none, _ => [.one, .two]

omit [Scalar F] in
theorem ranPhases_none {verdict : Verdict F} (h : verdict ≠ .infeasible) :
    ranPhases none verdict = [.one, .two] := by
  cases verdict with
  | infeasible => exact absurd rfl h
  | _ => rfl

def Problem.phaseRows (p : Problem F) (removed : List ℕ) : Phase → ℕ
  | .two => p.rows - removed.length
  | _ => p.rows

def byPhase (one two dual : α) : Phase → α
  | .one => one
  | .two => two
  | .dual => dual

theorem isCourse_of_phases {rows : Phase → ℕ} {ran : Solution F → List Phase}
    {one two : List (Event F)} {x y : Option (Except (Failure F) ℕ)} {r : Run F (Solution F)}
    (hone : IsPart limit .one (rows .one) columns one x)
    (htwo : IsPart limit .two (rows .two) columns two y) (hreports : r.reports = one ++ two)
    (hok : ∀ s, r.outcome = .ok s → s.pivots .dual = 0 ∧ .dual ∉ ran s ∧
      (if .one ∈ ran s then x = some (.ok (s.pivots .one)) else x = none ∧ s.pivots .one = 0) ∧
      if .two ∈ ran s then y = some (.ok (s.pivots .two)) else y = none ∧ s.pivots .two = 0)
    (hlimit : ∀ L, r.outcome = .error (.iterationLimit L) →
      y = some (.error (.iterationLimit L)) ∨ x = some (.error (.iterationLimit L)) ∧ y = none) :
    ∃ reports result, IsCourse limit rows columns [.one, .two] ran reports result r := by
  refine ⟨byPhase one two [], byPhase x y none, ?_, ?_, ?_, ?_, ?_⟩
  · rintro (_ | _ | _)
    · exact hone
    · exact htwo
    · exact .skipped
  · simpa [byPhase] using hreports
  · rintro (_ | _ | _) h
    · exact absurd (by decide) h
    · exact absurd (by decide) h
    · rfl
  · intro s hs
    obtain ⟨hdual, hran, hx, hy⟩ := hok s hs
    rintro (_ | _ | _)
    · exact hx
    · exact hy
    · rw [if_neg hran]
      exact ⟨rfl, hdual⟩
  · intro L hL
    rcases hlimit L hL with hy | ⟨hx, hy⟩
    · exact ⟨[.one], .two, [], rfl, hy, List.forall_mem_nil _⟩
    · refine ⟨[], .one, [.two], rfl, hx, fun q hq => ?_⟩
      rw [List.mem_singleton.mp hq]
      exact hy

namespace Problem

variable (p : Problem F) (options : Options F)

theorem of_solveFrom {basis : List ℕ} {s : Solution F}
    (h : (p.solveFrom options basis).outcome = .ok s) : s.pivots .one = 0 ∧ s.pivots .dual = 0 ∧
      ∀ o, s.verdict = .optimal o → o.removedRows = [] := by
  obtain ⟨t, -, h⟩ := Run.outcome_bind_eq_ok.mp h
  split at h
  · obtain ⟨hone, hdual, -, hremoved⟩ := p.of_optimize options h
    exact ⟨hone, hdual, hremoved⟩
  · cases h

theorem of_solveDual {basis : List ℕ} {s : Solution F}
    (h : (p.solveDual options basis).outcome = .ok s) : s.pivots .one = 0 ∧ s.pivots .two = 0 := by
  obtain ⟨-, -, h⟩ := Run.outcome_bind_eq_ok.mp h
  obtain ⟨t, -, h⟩ := Run.outcome_bind_eq_ok.mp h
  obtain ⟨stop, -, h⟩ := Run.outcome_bind_eq_ok.mp h
  cases h
  exact ⟨rfl, rfl⟩

theorem exists_course_solveFrom (basis : List ℕ) : ∃ reports result,
    IsCourse options.iterationLimit (p.phaseRows []) p.columns [.one, .two] (fun _ => [.two])
      reports result (p.solveFrom options basis) := by
  obtain ⟨y, hpart, hok, hlimit⟩ := p.hasPhase_solveFrom options basis
  refine isCourse_of_phases .skipped hpart rfl (fun s hs => ?_) fun L hL => Or.inl (hlimit L hL)
  obtain ⟨hone, hdual, -⟩ := p.of_solveFrom options hs
  exact ⟨hdual, by decide, ⟨rfl, hone⟩, hok s hs⟩

theorem hasPhase_phaseTwo (basis : List ℕ) (redundant : List (Fin p.rows)) (before : ℕ) :
    ∃ x, (p.phaseTwo options basis redundant before).HasPhase options.iterationLimit .two
      (remainingRows redundant).length p.columns (·.pivots .two) x :=
  (Tableau.isQuiet_ofIndices _ _ _ _).bind_hasPhase fun _ ht => p.hasPhase_optimize options ht _ _

theorem of_phaseTwo {basis : List ℕ} {redundant : List (Fin p.rows)} {before : ℕ}
    {s : Solution F} (h : (p.phaseTwo options basis redundant before).outcome = .ok s) :
    s.pivots .one = before ∧ s.pivots .dual = 0 ∧ s.verdict ≠ .infeasible ∧
      ∀ o, s.verdict = .optimal o → o.removedRows = redundant.map Fin.val := by
  obtain ⟨t, -, h⟩ := Run.outcome_bind_eq_ok.mp h
  exact p.of_optimize options h

/-- Going on with a feasible answer is phase two, up to the report of the removed rows. -/
theorem proceed_feasible {basis : List ℕ} {redundant : List (Fin p.rows)}
    (h : Feasibility.IsSound p.columns (.feasible basis redundant)) (before : ℕ) :
    (p.proceed options (.feasible basis redundant, before)).reports =
        (p.phaseTwo options basis redundant before).reports ∧
      (p.proceed options (.feasible basis redundant, before)).outcome =
        (p.phaseTwo options basis redundant before).outcome ∧
      (p.proceed options (.feasible basis redundant, before)).removed =
        redundant.map Fin.val := by
  have hremoved := Run.removed_eq_nil
    (p.ensures_phaseTwo options h before)
  rw [proceed]
  split
  · rename_i hnil
    rw [hremoved, hnil]
    exact ⟨rfl, rfl, rfl⟩
  · refine ⟨rfl, rfl, ?_⟩
    rw [Run.removed_bind_of_ok rfl, hremoved, List.append_nil]
    exact List.append_nil _

theorem phaseRows_two {basis : List ℕ} {redundant : List (Fin p.rows)} {before : ℕ}
    (h : (p.standardForm.feasibility options).outcome = .ok (.feasible basis redundant, before)) :
    p.phaseRows (p.solveTwoPhase options).removed .two = (remainingRows redundant).length := by
  have hensures := p.standardForm.ensures_feasibility options
  have hsound := hensures.answer _ h
  obtain ⟨-, -, hremoved⟩ := p.proceed_feasible options hsound before
  rw [solveTwoPhase_eq, Run.removed_bind_of_ok h, Run.removed_eq_nil hensures, hremoved,
    List.nil_append, phaseRows, List.length_map]
  cases hsound with
  | feasible _ _ _ hs =>
    exact Nat.sub_eq_of_eq_add (length_remainingRows (hs.imp fun h => h.ne)).symm

/-- A feasible answer of phase one is followed by phase two. -/
theorem exists_course_of_feasible {basis : List ℕ} {redundant : List (Fin p.rows)} {before : ℕ}
    (h : (p.standardForm.feasibility options).outcome = .ok (.feasible basis redundant, before)) :
    ∃ reports result,
      IsCourse options.iterationLimit (p.phaseRows (p.solveTwoPhase options).removed) p.columns
        [.one, .two] (fun s => ranPhases none s.verdict) reports result
        (p.solveTwoPhase options) := by
  obtain ⟨x, hpart, hok, -⟩ := p.standardForm.hasPhase_feasibility options
  obtain ⟨y, hpart', hok', hlimit'⟩ := p.hasPhase_phaseTwo options basis redundant before
  obtain ⟨hreports, houtcome, -⟩ := p.proceed_feasible options
    ((p.standardForm.ensures_feasibility options).answer _ h) before
  have hrows := p.phaseRows_two options h
  rw [solveTwoPhase_eq] at hrows ⊢
  refine isCourse_of_phases hpart (hrows ▸ hpart') ?_ ?_ ?_
  · rw [Run.reports_bind_of_ok h, hreports]
  · rw [Run.bind_of_ok h]
    intro s hs
    have hs := houtcome.symm.trans hs
    obtain ⟨hbefore, hdual, hverdict, -⟩ := p.of_phaseTwo options hs
    rw [ranPhases_none hverdict]
    exact ⟨hdual, by decide, hbefore ▸ hok _ h, hok' s hs⟩
  · rw [Run.bind_of_ok h]
    exact fun L hL => Or.inl (hlimit' L (houtcome.symm.trans hL))

theorem exists_course_solveTwoPhase : ∃ reports result,
    IsCourse options.iterationLimit (p.phaseRows (p.solveTwoPhase options).removed) p.columns
      [.one, .two] (fun s => ranPhases none s.verdict) reports result
      (p.solveTwoPhase options) := by
  obtain ⟨x, hpart, hok, hlimit⟩ := p.standardForm.hasPhase_feasibility options
  cases h : (p.standardForm.feasibility options).outcome with
  | error e =>
    rw [solveTwoPhase_eq]
    refine isCourse_of_phases hpart .skipped ?_ ?_ fun L hL => Or.inr ⟨hlimit L ?_, rfl⟩
    · rw [Run.reports_bind_of_error h, List.append_nil]
    · rw [Run.bind_of_error h]
      exact nofun
    · rw [Run.bind_of_error h] at hL
      exact h.trans (congrArg _ (Except.error.inj hL))
  | ok answer =>
    have hx := hok answer h
    obtain ⟨answer, before⟩ := answer
    cases answer with
    | infeasible =>
      rw [solveTwoPhase_eq]
      refine isCourse_of_phases hpart .skipped ?_ ?_ ?_
      · rw [Run.reports_bind_of_ok h]
        rfl
      · rw [Run.bind_of_ok h]
        rintro s ⟨⟩
        exact ⟨rfl, by simp [ranPhases], hx, rfl, rfl⟩
      · rw [Run.bind_of_ok h]
        exact nofun
    | feasible basis redundant => exact p.exists_course_of_feasible options h

theorem exists_course_solveDual (basis : List ℕ) : ∃ reports result,
    IsCourse options.iterationLimit (p.phaseRows []) p.columns [.dual] (fun _ => [.dual])
      reports result (p.solveDual options basis) := by
  obtain ⟨x, hpart, hok, hlimit⟩ := p.hasPhase_solveDual options basis
  refine ⟨byPhase [] [] (p.solveDual options basis).reports, byPhase none none x,
    ?_, ?_, ?_, ?_, ?_⟩
  · rintro (_ | _ | _)
    · exact .skipped
    · exact .skipped
    · exact hpart
  · exact (List.append_nil _).symm
  · rintro (_ | _ | _) h
    · rfl
    · rfl
    · exact absurd (List.mem_singleton_self _) h
  · intro s hs
    obtain ⟨hone, htwo⟩ := p.of_solveDual options hs
    rintro (_ | _ | _)
    · exact ⟨rfl, hone⟩
    · exact ⟨rfl, htwo⟩
    · exact hok s hs
  · exact fun L hL => ⟨[], .dual, [], rfl, hlimit L hL, List.forall_mem_nil _⟩

theorem exists_course_solve (basis : Option (List ℕ)) : ∃ reports result,
    IsCourse options.iterationLimit (p.phaseRows (p.solve options basis).removed) p.columns
      [.one, .two] (fun s => ranPhases basis s.verdict) reports result
      (p.solve options basis) := by
  cases basis with
  | none =>
    obtain ⟨reports, result, h⟩ := p.exists_course_solveTwoPhase options
    exact ⟨reports, result, h.congr rfl rfl⟩
  | some basis =>
    obtain ⟨reports, result, h⟩ := p.exists_course_solveFrom options basis
    have hremoved : (p.solve options (some basis)).removed = [] :=
      Run.removed_eq_nil (r := p.solveFrom options basis) (p.ensures_solveFrom options basis)
    rw [hremoved]
    exact ⟨reports, result, h.congr rfl rfl⟩

/-- An optimum lists the rows that the run reports to be removed. -/
theorem removed_solve {basis : Option (List ℕ)} {s : Solution F} {o : Optimum F}
    (hs : (p.solve options basis).outcome = .ok s) (ho : s.verdict = .optimal o) :
    (p.solve options basis).removed = o.removedRows := by
  cases basis with
  | none =>
    change (p.solveTwoPhase options).outcome = _ at hs
    change (p.solveTwoPhase options).removed = _
    rw [solveTwoPhase_eq] at hs ⊢
    obtain ⟨⟨answer, before⟩, hanswer, hs⟩ := Run.outcome_bind_eq_ok.mp hs
    have hensures := p.standardForm.ensures_feasibility options
    cases answer with
    | infeasible =>
      cases hs
      cases ho
    | feasible basis redundant =>
      obtain ⟨-, houtcome, hremoved⟩ :=
        p.proceed_feasible options (hensures.answer _ hanswer) before
      rw [Run.removed_bind_of_ok hanswer, Run.removed_eq_nil hensures, hremoved,
        (p.of_phaseTwo options (houtcome.symm.trans hs)).2.2.2 o ho]
      rfl
  | some basis =>
    have hremoved : (p.solve options (some basis)).removed = [] :=
      Run.removed_eq_nil (r := p.solveFrom options basis) (p.ensures_solveFrom options basis)
    exact hremoved.trans ((p.of_solveFrom options hs).2.2 o ho).symm

end Problem
end RevisedSimplex
