import RevisedSimplex.Proofs.Feasibility

/-! # The phases of a solve

A solve from a given basis has one phase. Without a basis it has two, and the second one works
on the tableau that the answer of the first one describes.
-/

namespace RevisedSimplex

namespace Problem

variable {F : Type} [Scalar F] {p : Problem F} {options : Options F}

theorem visits_optimize {m : ℕ} (t : Tableau F m p.columns) (removed : List ℕ) (before : ℕ) :
    (p.optimize options t removed before).visits = (t.primal .two options).visits := by
  rw [optimize]
  cases h : (t.primal .two options).outcome with
  | error e => rw [Run.visits_bind_of_error h]
  | ok stop => rw [Run.visits_bind_of_ok h]; exact List.append_nil _

theorem optimize_of_ok {m : ℕ} {t : Tableau F m p.columns} {stop : Stop F m p.columns}
    (h : (t.primal .two options).outcome = .ok stop) (removed : List ℕ) (before : ℕ) :
    ∃ counts, (p.optimize options t removed before).outcome =
      .ok ⟨p.verdict stop.status stop.tableau removed, counts⟩ := by
  rw [optimize, Run.outcome_bind, h]
  exact ⟨_, rfl⟩

theorem optimize_of_error {m : ℕ} {t : Tableau F m p.columns} {e : Failure F}
    (h : (t.primal .two options).outcome = .error e) (removed : List ℕ) (before : ℕ) :
    (p.optimize options t removed before).outcome = .error e := by
  rw [optimize, Run.outcome_bind, h]
  rfl

theorem solveFrom_of_isPrimalFeasible {basis : List ℕ} {t : Tableau F p.rows p.columns}
    (h : Tableau.ofIndices p.standardForm basis options.tolerance 0 = .ok t)
    (hf : t.isPrimalFeasible = true) :
    p.solveFrom options basis =
      Run.emit (.givenBasis basis) >>= fun _ => p.optimize options t [] 0 := by
  rw [solveFrom, h, Run.ofExcept_ok_bind, if_pos hf]

theorem solveFrom_of_not_isPrimalFeasible {basis : List ℕ} {t : Tableau F p.rows p.columns}
    (h : Tableau.ofIndices p.standardForm basis options.tolerance 0 = .ok t)
    (hf : ¬ t.isPrimalFeasible = true) :
    p.solveFrom options basis = Run.fail (.invalidInitialBasis (.notPrimalFeasible basis)) := by
  rw [solveFrom, h, Run.ofExcept_ok_bind, if_neg hf]

theorem visits_solve {basis : List ℕ} {t : Tableau F p.rows p.columns}
    (h : Tableau.ofIndices p.standardForm basis options.tolerance 0 = .ok t)
    (hf : t.isPrimalFeasible = true) :
    (p.solve options (some basis)).visits = (t.primal .two options).visits := by
  change (p.solveFrom options basis).visits = _
  rw [solveFrom_of_isPrimalFeasible h hf, Run.visits_bind_of_ok rfl, visits_optimize]
  rfl

theorem solve_of_refused {basis : List ℕ}
    (h : ∀ t, Tableau.ofIndices p.standardForm basis options.tolerance 0 = .ok t →
      ¬ t.isPrimalFeasible = true) : (p.solve options (some basis)).visits = [] ∧
        ∃ e, (p.solve options (some basis)).outcome = .error e := by
  change (p.solveFrom options basis).visits = [] ∧ ∃ e, (p.solveFrom options basis).outcome = _
  cases ht : Tableau.ofIndices p.standardForm basis options.tolerance 0 with
  | error e =>
    rw [solveFrom, ht]
    exact ⟨rfl, e, rfl⟩
  | ok t =>
    rw [solveFrom_of_not_isPrimalFeasible ht (h t ht)]
    exact ⟨rfl, _, rfl⟩

theorem solveTwoPhase_of_error {e : Failure F}
    (h : (p.standardForm.feasibility options).outcome = .error e) :
    p.solveTwoPhase options = ⟨(p.standardForm.feasibility options).events, .error e⟩ :=
  Run.bind_of_error h _

theorem solveTwoPhase_of_infeasible {pivots : ℕ}
    (h : (p.standardForm.feasibility options).outcome = .ok (.infeasible, pivots)) :
    (p.solveTwoPhase options).visits = (p.standardForm.feasibility options).visits ∧
      ∃ counts, (p.solveTwoPhase options).outcome = .ok ⟨.infeasible, counts⟩ := by
  constructor
  · rw [solveTwoPhase, Run.visits_bind_of_ok h]
    exact List.append_nil _
  · rw [solveTwoPhase, Run.bind_of_ok h]
    exact ⟨_, rfl⟩

theorem solveTwoPhase_of_feasible {basis : List ℕ} {redundant : List (Fin p.rows)} {pivots : ℕ}
    (h : (p.standardForm.feasibility options).outcome = .ok (.feasible basis redundant, pivots)) :
    (p.solveTwoPhase options).visits = (p.standardForm.feasibility options).visits ++
        (Run.ofExcept (Tableau.ofIndices (p.standardForm.withoutRows redundant) basis
          options.tolerance 0) >>= fun t =>
            p.optimize options t (redundant.map Fin.val) pivots).visits ∧
      (p.solveTwoPhase options).outcome =
        (Run.ofExcept (Tableau.ofIndices (p.standardForm.withoutRows redundant) basis
          options.tolerance 0) >>= fun t =>
            p.optimize options t (redundant.map Fin.val) pivots).outcome := by
  constructor
  · rw [solveTwoPhase, Run.visits_bind_of_ok h]
    congr 1
    dsimp only
    split <;> rfl
  · rw [solveTwoPhase, Run.outcome_bind, h]
    dsimp only [Except.bind]
    split <;> rfl

/-- In exact arithmetic phase one runs out of pivots, or nothing is feasible, or phase two starts
from a feasible tableau of the rows that are kept. -/
theorem solveTwoPhase_cases (p : Problem ℚ) {options : Options ℚ} (h0 : options.tolerance = 0)
    (hf : options.feasibilityTolerance = 0) :
    (p.solveTwoPhase options).outcome = .error (outOfPivots options.iterationLimit) ∨
      (∀ x, ¬ p.standardForm.IsFeasible x) ∧
        (∃ counts, (p.solveTwoPhase options).outcome = .ok ⟨.infeasible, counts⟩) ∨
      ∃ (redundant : List (Fin p.rows))
        (t : Tableau ℚ (remainingRows redundant).length p.columns) (before : ℕ),
        t.IsBasicFeasible ∧ t.artificial = 0 ∧
          p.standardForm.IsReduction (redundant.map Fin.val) t.program ∧
          (p.solveTwoPhase options).outcome =
            (p.optimize options t (redundant.map Fin.val) before).outcome := by
  obtain ⟨start, hstart, -⟩ := p.standardForm.start_spec h0
  rcases p.standardForm.feasibility_spec h0 hf hstart with ⟨he, -⟩ | ⟨stop, answer, -, ho, hans⟩
  · refine Or.inl ?_
    rw [solveTwoPhase_of_error he]
  · cases hans with
    | infeasible hno => exact Or.inr (Or.inl ⟨hno, (solveTwoPhase_of_infeasible ho).2⟩)
    | feasible ht hfeasible hP hart hred =>
      refine Or.inr (Or.inr ⟨_, _, stop.pivots, hfeasible, hart, hP ▸ hred, ?_⟩)
      rw [(solveTwoPhase_of_feasible ho).2, h0, ht, Run.ofExcept_ok_bind]

theorem solveDual_of_error {basis : List ℕ} {e : Failure F}
    (h : Tableau.ofIndices p.standardForm basis options.tolerance 0 = .error e) :
    (p.solveDual options basis).visits = [] ∧
      (p.solveDual options basis).outcome = .error e := by
  rw [solveDual, h]
  exact ⟨rfl, rfl⟩

theorem visits_solveDual {basis : List ℕ} {t : Tableau F p.rows p.columns}
    (h : Tableau.ofIndices p.standardForm basis options.tolerance 0 = .ok t) :
    (p.solveDual options basis).visits = (t.dual options).visits := by
  rw [solveDual, h, Run.visits_bind_of_ok rfl, Run.ofExcept_ok_bind]
  cases hd : (t.dual options).outcome with
  | error e => rw [Run.visits_bind_of_error hd]; rfl
  | ok stop => rw [Run.visits_bind_of_ok hd]; exact List.append_nil _

theorem solveDual_of_dual_ok {basis : List ℕ} {t : Tableau F p.rows p.columns}
    (h : Tableau.ofIndices p.standardForm basis options.tolerance 0 = .ok t)
    {stop : Stop F p.rows p.columns} (hd : (t.dual options).outcome = .ok stop) :
    ∃ counts, (p.solveDual options basis).outcome =
      .ok ⟨p.verdict stop.status stop.tableau [], counts⟩ := by
  rw [solveDual, Run.outcome_bind, h]
  change ∃ counts, ((Run.ofExcept (.ok t) : Run F _) >>= _).outcome = _
  rw [Run.ofExcept_ok_bind, Run.outcome_bind, hd]
  exact ⟨_, rfl⟩

theorem solveDual_of_dual_error {basis : List ℕ} {t : Tableau F p.rows p.columns}
    (h : Tableau.ofIndices p.standardForm basis options.tolerance 0 = .ok t) {e : Failure F}
    (hd : (t.dual options).outcome = .error e) :
    (p.solveDual options basis).outcome = .error e := by
  rw [solveDual, Run.outcome_bind, h]
  change ((Run.ofExcept (.ok t) : Run F _) >>= _).outcome = _
  rw [Run.ofExcept_ok_bind, Run.outcome_bind, hd]
  rfl

end Problem

namespace Run

variable {F α β : Type}

/-- The run does not go on forever. -/
def Terminates (r : Run F α) : Prop := r.outcome ≠ .error .endless

theorem terminates_of_ok {r : Run F α} {a : α} (h : r.outcome = .ok a) : r.Terminates := by
  rw [Terminates, h]
  exact nofun

theorem terminates_of_error {r : Run F α} {e : Failure F} (h : r.outcome = .error e)
    (he : e ≠ .endless) : r.Terminates := by
  rw [Terminates, h]
  exact fun h => he (Except.error.inj h)

theorem Terminates.bind {r : Run F α} {f : α → Run F β} (hr : r.Terminates)
    (hf : ∀ a, r.outcome = .ok a → (f a).Terminates) : (r >>= f).Terminates := by
  rw [Terminates, outcome_bind]
  cases h : r.outcome with
  | error e =>
    rw [Terminates, h] at hr
    exact fun he => hr (congrArg _ (Except.error.inj he))
  | ok a => exact hf a h

theorem Terminates.of_bind {r : Run F α} {f : α → Run F β} (h : (r >>= f).Terminates) :
    r.Terminates := by
  intro he
  rw [bind_of_error he] at h
  exact h rfl

end Run

section Terminates

variable {F : Type} [Scalar F] {m n : ℕ}

theorem Tableau.terminates_ofBasis (P : Program F m n) (basis : Basis m n) (tolerance : F)
    (artificial : ℕ) : (Run.ofExcept (ofBasis P basis tolerance artificial)).Terminates := by
  unfold ofBasis
  split
  · exact Run.terminates_of_ok rfl
  · exact Run.terminates_of_error rfl nofun

theorem Tableau.terminates_ofIndices (P : Program F m n) (indices : List ℕ) (tolerance : F)
    (artificial : ℕ) : (Run.ofExcept (ofIndices P indices tolerance artificial)).Terminates := by
  unfold ofIndices
  split
  · exact terminates_ofBasis _ _ _ _
  · exact Run.terminates_of_error rfl nofun

theorem Repair.terminates_step (s : Repair F m n) (i : Fin m) : (step s i).Terminates := by
  unfold step
  dsimp only
  split
  · exact Run.terminates_of_error rfl nofun
  · split
    · refine Run.Terminates.bind (Run.terminates_of_ok rfl) fun _ _ => ?_
      refine Run.Terminates.bind (Tableau.terminates_ofBasis _ _ _ _) fun _ _ => ?_
      exact Run.terminates_of_ok rfl
    · split
      · exact Run.terminates_of_ok rfl
      · exact Run.terminates_of_error rfl nofun

theorem Repair.terminates_ofTableau (t : Tableau F m (n + m)) : (ofTableau t).Terminates := by
  suffices ∀ (todo : List (Fin m)) (s : Repair F m n), (todo.foldlM step s).Terminates from
    this _ _
  intro todo
  induction todo with
  | nil => exact fun s => Run.terminates_of_ok rfl
  | cons i todo ih =>
    intro s
    rw [List.foldlM_cons]
    exact (terminates_step s i).bind fun s' _ => ih s'

theorem Program.terminates_feasibility_iff {P : Program F m n} {options : Options F}
    {start : Tableau F m (n + m)}
    (h : Tableau.ofBasis P.auxiliary (artificialBasis m n) options.tolerance m = .ok start) :
    (P.feasibility options).Terminates ↔ (start.primal .one options).Terminates := by
  rw [feasibility, h, Run.ofExcept_ok_bind]
  refine ⟨Run.Terminates.of_bind, fun hprimal => hprimal.bind fun stop _ => ?_⟩
  split
  · exact Run.terminates_of_error rfl (by simp)
  · split
    · exact Run.terminates_of_ok rfl
    · exact (Repair.terminates_ofTableau _).bind fun _ _ => Run.terminates_of_ok rfl

theorem Problem.terminates_optimize_iff {p : Problem F} {options : Options F}
    {t : Tableau F m p.columns} {removed : List ℕ} {before : ℕ} :
    (p.optimize options t removed before).Terminates ↔ (t.primal .two options).Terminates :=
  ⟨Run.Terminates.of_bind, fun h => h.bind fun _ _ => Run.terminates_of_ok rfl⟩

end Terminates

def Run.phaseVisits {F α : Type} (r : Run F α) (phase : Phase) : List (Visit F) :=
  r.visits.filter (·.phase = phase)

/-- What a phase visits, nothing if it is left out, and whether it ends. -/
inductive IsPhase (options : Options ℚ) (phase : Phase) : List (Visit ℚ) → Prop → Prop where
  | skipped : IsPhase options phase [] True
  | run {m n : ℕ} {t : Tableau ℚ m n} : t.IsExact →
      IsPhase options phase (t.primal phase options).visits (t.primal phase options).Terminates

theorem IsPhase.filter_eq {options : Options ℚ} {phase : Phase} {visits : List (Visit ℚ)}
    {ends : Prop} (h : IsPhase options phase visits ends) (phase' : Phase) :
    visits.filter (·.phase = phase') = if phase = phase' then visits else [] := by
  cases h with
  | skipped => simp
  | @run m n t ht =>
    obtain ⟨p, k, -, -, -, hvisits, -⟩ := t.primal_spec phase options
    rw [hvisits, Tableau.visitsOf]
    split
    · rename_i he
      simp [he]
    · rename_i he
      simp [he]

namespace Problem

section GivenBasis

variable {p : Problem ℚ} {options : Options ℚ} (h0 : options.tolerance = 0) {basis : List ℕ}
  {t : Tableau ℚ p.rows p.columns}
  (ht : Tableau.ofIndices p.standardForm basis options.tolerance 0 = .ok t)
  (hf : t.isPrimalFeasible = true)

include h0 ht hf

theorem phaseVisits_solve (phase : Phase) :
    (p.solve options (some basis)).phaseVisits phase =
      if .two = phase then (t.primal .two options).visits else [] := by
  rw [Run.phaseVisits, visits_solve ht hf]
  exact (IsPhase.run (Tableau.isExact_of_ofIndices h0 ht).1).filter_eq phase

theorem head?_phaseVisits_solve (phase : Phase) :
    ((p.solve options (some basis)).phaseVisits phase).head? =
      if .two = phase then some ⟨.two, 0, t⟩ else none := by
  obtain ⟨q, k, hq, -, -, hvisits, -⟩ := t.primal_spec .two options
  rw [phaseVisits_solve h0 ht hf, hvisits]
  split
  · rw [Tableau.head?_visitsOf, hq]
  · rfl

/-- A solve from a basis whose pivots never end does not terminate. -/
theorem solve_of_infinite (hlimit : options.iterationLimit = none)
    {q : ℕ → Position ℚ p.rows p.columns} (hq : q 0 = ⟨none, t⟩)
    (hstep : ∀ l, Tableau.Step (Tableau.primalMove options) (q l) (q (l + 1))) :
    (p.solve options (some basis)).phaseVisits .two =
        Tableau.visitsOf .two 0 (stateCount p.rows p.columns) q ∧
      ¬ (p.solve options (some basis)).Terminates := by
  obtain ⟨hvisits, houtcome⟩ := Tableau.iterate_of_infinite hstep .two options.iterationLimit
    (allowance options.iterationLimit p.rows p.columns) 0
  rw [hq] at hvisits houtcome
  constructor
  · rw [phaseVisits_solve h0 ht hf, if_pos rfl, Tableau.primal, hvisits, hlimit]
    rfl
  · have hsolve : (p.solve options (some basis)).outcome = .error .endless := by
      change (p.solveFrom options basis).outcome = _
      rw [solveFrom_of_isPrimalFeasible ht hf, Run.bind_of_ok rfl]
      rw [hlimit] at houtcome
      refine optimize_of_error ?_ [] 0
      rw [Tableau.primal, hlimit]
      exact houtcome
    exact fun h => h hsolve

end GivenBasis

variable (p : Problem ℚ) {options : Options ℚ} (h0 : options.tolerance = 0)

include h0

theorem isPhase_optimize {m : ℕ} (P : Program ℚ m p.columns) (indices removed : List ℕ)
    (before : ℕ) : ∃ ends, IsPhase options .two
        (Run.ofExcept (Tableau.ofIndices P indices options.tolerance 0) >>= fun t =>
          p.optimize options t removed before).visits ends ∧
      ((Run.ofExcept (Tableau.ofIndices P indices options.tolerance 0) >>= fun t =>
        p.optimize options t removed before).Terminates ↔ ends) := by
  have hindices := Tableau.terminates_ofIndices P indices options.tolerance 0
  cases ht : Tableau.ofIndices P indices options.tolerance 0 with
  | error e =>
    rw [ht] at hindices
    exact ⟨_, .skipped, iff_true_intro (hindices.bind nofun)⟩
  | ok t =>
    rw [Run.ofExcept_ok_bind, visits_optimize]
    exact ⟨_, .run (Tableau.isExact_of_ofIndices h0 ht).1, terminates_optimize_iff⟩

theorem solveFrom_phases (basis : List ℕ) : ∃ ends,
    IsPhase options .two (p.solveFrom options basis).visits ends ∧
      ((p.solveFrom options basis).Terminates ↔ ends) := by
  have hindices := Tableau.terminates_ofIndices p.standardForm basis options.tolerance 0
  cases ht : Tableau.ofIndices p.standardForm basis options.tolerance 0 with
  | error e =>
    rw [ht] at hindices
    rw [solveFrom, ht]
    exact ⟨_, .skipped, iff_true_intro (hindices.bind nofun)⟩
  | ok t =>
    by_cases hf : t.isPrimalFeasible = true
    · rw [solveFrom_of_isPrimalFeasible ht hf, Run.visits_bind_of_ok rfl, visits_optimize]
      exact ⟨_, .run (Tableau.isExact_of_ofIndices h0 ht).1, terminates_optimize_iff⟩
    · rw [solveFrom_of_not_isPrimalFeasible ht hf]
      exact ⟨_, .skipped, iff_true_intro (Run.terminates_of_error rfl nofun)⟩

theorem solveTwoPhase_phases : ∃ one two ends₁ ends₂,
    IsPhase options .one one ends₁ ∧ IsPhase options .two two ends₂ ∧
      (p.solveTwoPhase options).visits = one ++ two ∧
      ((p.solveTwoPhase options).Terminates ↔ ends₁ ∧ ends₂) := by
  obtain ⟨start, hstart, haux⟩ := p.standardForm.start_spec h0
  have hone := Program.visits_feasibility hstart
  have hends : (p.standardForm.feasibility options).Terminates ↔
      (start.primal .one options).Terminates := Program.terminates_feasibility_iff hstart
  cases hout : (p.standardForm.feasibility options).outcome with
  | error e =>
    refine ⟨_, _, _, _, .run haux.toIsExact, .skipped, ?_, ?_⟩
    · rw [solveTwoPhase_of_error hout, List.append_nil, ← hone]
      rfl
    · rw [← hends, and_true, solveTwoPhase_of_error hout, Run.Terminates, Run.Terminates, hout]
      simp only [ne_eq, Except.error.injEq]
  | ok answer =>
    have hterminates := hends.mp (Run.terminates_of_ok hout)
    obtain ⟨answer, pivots⟩ := answer
    cases answer with
    | infeasible =>
      obtain ⟨hvisits, counts, hs⟩ := solveTwoPhase_of_infeasible hout
      refine ⟨_, _, _, _, .run haux.toIsExact, .skipped, ?_, ?_⟩
      · rw [hvisits, hone, List.append_nil]
      · exact iff_of_true (Run.terminates_of_ok hs) ⟨hterminates, trivial⟩
    | feasible basis redundant =>
      obtain ⟨hvisits, hs⟩ := solveTwoPhase_of_feasible hout
      obtain ⟨ends, hphase, hiff⟩ := p.isPhase_optimize h0
        (p.standardForm.withoutRows redundant) basis (redundant.map Fin.val) pivots
      refine ⟨_, _, _, _, .run haux.toIsExact, hphase, ?_, ?_⟩
      · rw [hvisits, hone]
      · rw [← hiff, Run.Terminates, hs]
        exact (and_iff_right hterminates).symm

/-- A solve goes through phase one and phase two, either of which may be left out, and ends if
and only if they do. -/
theorem solve_phases (basis : Option (List ℕ)) : ∃ ends : Phase → Prop,
    (∀ phase, IsPhase options phase ((p.solve options basis).phaseVisits phase) (ends phase)) ∧
      ((p.solve options basis).Terminates ↔ ∀ phase, ends phase) := by
  have hphases : ∃ one two ends₁ ends₂,
      IsPhase options .one one ends₁ ∧ IsPhase options .two two ends₂ ∧
        (p.solve options basis).visits = one ++ two ∧
        ((p.solve options basis).Terminates ↔ ends₁ ∧ ends₂) := by
    cases basis with
    | some basis =>
      obtain ⟨ends, hphase, hends⟩ := p.solveFrom_phases h0 basis
      exact ⟨_, _, _, _, .skipped, hphase, rfl, hends.trans (and_iff_right trivial).symm⟩
    | none => exact p.solveTwoPhase_phases h0
  obtain ⟨one, two, ends₁, ends₂, hone, htwo, hvisits, hends⟩ := hphases
  refine ⟨Phase.rec ends₁ ends₂ True, fun phase => ?_,
    hends.trans ⟨?_, fun h => ⟨h .one, h .two⟩⟩⟩
  · rw [Run.phaseVisits, hvisits, List.filter_append, hone.filter_eq, htwo.filter_eq]
    cases phase with
    | one => simpa using hone
    | two => simpa using htwo
    | dual => exact .skipped
  · rintro ⟨hone, htwo⟩ (_ | _ | _)
    · exact hone
    · exact htwo
    · trivial

end Problem
end RevisedSimplex
