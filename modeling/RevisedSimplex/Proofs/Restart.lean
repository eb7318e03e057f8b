import RevisedSimplex.Proofs.Bookkeeping
import RevisedSimplex.Proofs.Removal

/-! # The point that phase one hands over

Whatever counts as zero, phase two starts at the structural part of the point where the repair ends.
An exchange at level zero does not move that point.
-/

namespace RevisedSimplex

open Matrix

variable {m n : ℕ}

theorem Tableau.indices_of_ofIndices {F : Type} [Scalar F] {P : Program F m n} {indices : List ℕ}
    {tolerance : F} {artificial : ℕ} {t : Tableau F m n}
    (h : ofIndices P indices tolerance artificial = .ok t) : t.basis.indices = indices := by
  unfold ofIndices at h
  split at h
  · rename_i basis hbasis
    obtain ⟨-, -, hb, -, -⟩ := eq_of_ofBasis h
    rw [hb]
    exact (Basis.of_ofIndices hbasis).1
  · cases h

namespace Repair

variable {s s' : Repair ℚ m n} {i r : Fin m} {events : List (Event ℚ)}

def AtLevelZero (events : List (Event ℚ)) : Prop :=
  ∀ artificial value column, Event.exchange artificial value column ∈ events → value = 0

theorem IsTreated.follows (h : IsTreated s i r events s') (hs : s.tableau.IsValid) :
    Tableau.Follows s.tableau s'.tableau := by
  cases h with
  | exchanged _ ht' => exact (hs.isExchange_of_pivot ht').follows
  | redundant => exact hs.follows_self

theorem IsTreated.point_eq (h : IsTreated s i r events s') (hs : s.tableau.IsValid)
    (hzero : AtLevelZero events) : s'.tableau.point.get = s.tableau.point.get := by
  cases h with
  | exchanged _ ht' =>
    exact (hs.isExchange_of_pivot ht').point_eq hs (hzero _ _ _ (List.mem_singleton_self _))
  | redundant => rfl

theorem IsTreated.atLevelZero (h : IsTreated s i r events s') (hs : s.tableau.IsValid)
    (hr : s.tableau.basis.get r = artificialColumn n i)
    (hi : s.tableau.point.get (artificialColumn n i) = 0) : AtLevelZero events := by
  intro artificial value column hmem
  cases h with
  | exchanged =>
    cases List.mem_singleton.mp hmem
    rw [← hi, hs.point_get, ← hr, spread_basic hs.basis_injective]
  | redundant => cases List.mem_singleton.mp hmem

theorem atLevelZero_append {first rest : List (Event ℚ)} :
    AtLevelZero (first ++ rest) ↔ AtLevelZero first ∧ AtLevelZero rest := by
  simp only [AtLevelZero, List.mem_append, or_imp, forall_and]

namespace IsRepaired

variable {todo : List (Fin m)}

theorem follows (h : IsRepaired s todo events s') (hs : s.tableau.IsValid) :
    Tableau.Follows s.tableau s'.tableau := by
  induction h with
  | nil => exact hs.follows_self
  | cons _ htreated _ ih =>
    have hfirst := htreated.follows hs
    exact hfirst.trans (ih hfirst.toIsValid)

theorem point_eq (h : IsRepaired s todo events s') (hs : s.tableau.IsValid)
    (hzero : AtLevelZero events) : s'.tableau.point.get = s.tableau.point.get := by
  induction h with
  | nil => rfl
  | cons _ htreated _ ih =>
    obtain ⟨hfirst, hrest⟩ := atLevelZero_append.mp hzero
    exact (ih (htreated.follows hs).toIsValid hrest).trans (htreated.point_eq hs hfirst)

theorem atLevelZero (h : IsRepaired s todo events s') (hs : s.tableau.IsValid)
    (hartificial : ∀ k, s.tableau.point.get (artificialColumn n k) = 0) : AtLevelZero events := by
  induction h with
  | nil => exact fun _ _ _ hmem => absurd hmem List.not_mem_nil
  | cons hr htreated _ ih =>
    have hfirst := htreated.atLevelZero hs hr (hartificial _)
    refine atLevelZero_append.mpr ⟨hfirst, ih (htreated.follows hs).toIsValid fun k => ?_⟩
    rw [htreated.point_eq hs hfirst]
    exact hartificial k

end IsRepaired

theorem Tracks.point_artificial (htracks : Tracks s []) (hs : s.tableau.IsValid) {k : Fin m}
    (hk : k ∉ s.redundant) : s.tableau.point.get (artificialColumn n k) = 0 := by
  rw [hs.point_get]
  refine spread_nonbasic (fun r hr => hk ?_) _
  exact (htracks.isBasic_iff_mem k).mp ((s.tableau.isBasic_iff _).mpr ⟨r, hr⟩)

/-- In the rows that remain the structural columns have the point of the repaired tableau. -/
theorem Tracks.point_eq {P : Program ℚ m n} (htracks : Tracks s []) (hs : s.tableau.IsValid)
    (hP : s.tableau.program = P.auxiliary)
    {t : Tableau ℚ (remainingRows s.redundant).length n} (ht : t.IsValid)
    (htP : t.program = P.withoutRows s.redundant) (hb : t.basis.indices = s.structuralBasis) :
    t.point.get = fun j => s.tableau.point.get (j.castAdd m) := by
  refine (ht.eq_point ?_ fun j hj => ?_).symm
  · rw [htP, Program.withoutRows_mulVec_eq_iff]
    intro i hi
    have hrow := congrFun hs.constraints_mulVec_point i
    rw [hP, Program.auxiliary_mulVec, Pi.add_apply, Function.comp_apply,
      htracks.point_artificial hs hi, add_zero] at hrow
    exact (P.signed_row_iff _ i).mp hrow
  · rw [hs.point_get]
    refine spread_nonbasic (fun r hr => ?_) _
    have hmem := mem_structuralBasis.mpr ((s.tableau.isBasic_iff _).mpr ⟨r, hr⟩)
    rw [← hb, Basis.mem_indices] at hmem
    obtain ⟨i, hi⟩ := hmem
    exact hj i hi

end Repair

namespace Program

theorem visits_feasibility {F : Type} [Scalar F] {P : Program F m n} {options : Options F}
    {start : Tableau F m (n + m)}
    (h : Tableau.ofBasis P.auxiliary (artificialBasis m n) options.tolerance m = .ok start) :
    (P.feasibility options).visits = (start.primal .one options).visits := by
  rw [feasibility, h, Run.ofExcept_ok_bind]
  cases hstop : (start.primal .one options).outcome with
  | error e => rw [Run.visits_bind_of_error hstop]
  | ok stop =>
    rw [Run.visits_bind_of_ok hstop]
    split
    · exact List.append_nil _
    · split
      · exact List.append_nil _
      · have hrepair : (Repair.ofTableau stop.tableau).visits = [] :=
          Repair.visits_foldlM_step _ _
        cases hr : (Repair.ofTableau stop.tableau).outcome with
        | error e => rw [Run.visits_bind_of_error hr, hrepair, List.append_nil]
        | ok s =>
          rw [Run.visits_bind_of_ok hr, hrepair]
          exact List.append_nil _

variable {P : Program ℚ m n} {options : Options ℚ}

/-- Phase one with its repair: the first tableau, where the iteration stops, and where the repair
ends. -/
structure IsPhaseOne (P : Program ℚ m n) (options : Options ℚ) (start : Tableau ℚ m (n + m))
    (stop : Stop ℚ m (n + m)) (s : Repair ℚ m n) : Prop where
  start_eq : Tableau.ofBasis P.auxiliary (artificialBasis m n) options.tolerance m = .ok start
  stop_eq : (start.primal .one options).outcome = .ok stop
  repair_eq : (Repair.ofTableau stop.tableau).outcome = .ok s

namespace IsPhaseOne

variable {start : Tableau ℚ m (n + m)} {stop : Stop ℚ m (n + m)} {s : Repair ℚ m n}
  (h : P.IsPhaseOne options start stop s) (htol : 0 ≤ options.tolerance)

include h

theorem isRepaired : Repair.IsRepaired ⟨stop.tableau, []⟩ (Repair.basicArtificials stop.tableau)
    (Repair.ofTableau stop.tableau).events s :=
  Repair.isRepaired_of_foldlM h.repair_eq

include htol

theorem start_isValid : start.IsValid := (Tableau.isValid_of_ofBasis htol h.start_eq).1

theorem follows_start {t : Tableau ℚ m (n + m)} (ht : Tableau.Follows start t) :
    t.program = P.auxiliary ∧ t.tolerance = options.tolerance ∧ t.artificial = m := by
  obtain ⟨-, hP, -, htolerance, hart⟩ := Tableau.isValid_of_ofBasis htol h.start_eq
  exact ⟨ht.program_eq.trans hP, ht.tolerance_eq.trans htolerance, ht.artificial_eq.trans hart⟩

theorem follows_stop : Tableau.Follows start stop.tableau :=
  ((h.start_isValid htol).follows_of_primal_ok h.stop_eq).1

theorem follows_last : Tableau.Follows start s.tableau :=
  (h.follows_stop htol).trans (h.isRepaired.follows (h.follows_stop htol).toIsValid)

theorem tracks : Repair.Tracks s [] := by
  have hstop := h.follows_stop htol
  exact (Repair.tracks_start hstop.basis_injective
    (h.follows_start htol hstop).2.2).of_isRepaired h.isRepaired

end IsPhaseOne

/-- A basis from phase one is what the repair of an optimal artificial basis leaves. -/
theorem exists_isPhaseOne {basis : List ℕ} {redundant : List (Fin m)} {pivots : ℕ}
    (h : (P.feasibility options).outcome = .ok (.feasible basis redundant, pivots)) :
    ∃ start stop s, P.IsPhaseOne options start stop s ∧ s.structuralBasis = basis ∧
      s.redundant = redundant ∧ stop.tableau.objective ≤ options.feasibilityTolerance ∧
      (P.feasibility options).visits = (start.primal .one options).visits ∧
      ∀ e ∈ (Repair.ofTableau stop.tableau).events, e ∈ (P.feasibility options).events := by
  obtain ⟨start, hstart, h'⟩ := Run.outcome_bind_eq_ok.mp h
  obtain ⟨stop, hstop, h'⟩ := Run.outcome_bind_eq_ok.mp h'
  split at h'
  · cases h'
  · rename_i hstatus
    split at h'
    · cases h'
    · rename_i hcost
      obtain ⟨s, hs, h'⟩ := Run.outcome_bind_eq_ok.mp h'
      cases h'
      refine ⟨start, stop, s, ⟨hstart, hstop, hs⟩, rfl, rfl, not_lt.mp hcost,
        visits_feasibility hstart, fun e he => ?_⟩
      rw [feasibility, Run.bind_of_ok hstart, Run.bind_of_ok hstop, if_neg hstatus, if_neg hcost,
        Run.bind_of_ok hs]
      simp [he]

end Program
end RevisedSimplex
