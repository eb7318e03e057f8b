import RevisedSimplex.Proofs.Contracts

/-! # The trace of a phase

The snapshots of a phase are numbered from zero without gap, and from one to the next a basic column
is replaced by one that was not basic. The pivots between them are as many as the phase counts.
-/

namespace RevisedSimplex

variable {F α β : Type}

/-- The second list is the first one with one entry replaced by one that was not in it. -/
def ReplacesOne (l l' : List ℕ) : Prop := ∃ i j, i < l.length ∧ j ∉ l ∧ l' = l.set i j

/-- What an observer receives during a phase on so many rows. -/
structure IsPhaseTrace (rows : ℕ) (snapshots : List (Snapshot F)) : Prop where
  iterations_eq : snapshots.map (·.iteration) = List.range snapshots.length
  length_basis : ∀ s ∈ snapshots, s.basis.length = rows
  replaces : snapshots.IsChain fun s s' => ReplacesOne s.basis s'.basis

theorem isPhaseTrace_nil (rows : ℕ) : IsPhaseTrace (F := F) rows [] :=
  ⟨rfl, fun _ h => absurd h List.not_mem_nil, .nil⟩

/-- A column from `columns` on that is in a later basis is in all earlier ones. -/
def KeepsOut (columns : ℕ) (snapshots : List (Snapshot F)) : Prop :=
  snapshots.Pairwise fun s s' => ∀ j ∈ s'.basis, columns ≤ j → j ∈ s.basis

def Event.isPivot (phase : Phase) : Event F → Bool
  | .pivot phase' .. => phase' = phase
  | _ => false

namespace Run

def reports (r : Run F α) : List (Event F) := r.events.filter Event.isReport

/-- The number of pivots of a phase. -/
def pivots (r : Run F α) (phase : Phase) : ℕ := r.events.countP (Event.isPivot phase)

def phaseSnapshots [Scalar F] (r : Run F α) (phase : Phase) : List (Snapshot F) :=
  r.snapshots.filter (·.phase = phase)

theorem snapshots_eq_reports [Scalar F] (r : Run F α) :
    r.snapshots = r.reports.filterMap Event.snapshot? := by
  rw [snapshots, reports, List.filterMap_filter]
  congr 1
  ext e
  cases e <;> rfl

theorem pivots_eq_reports (r : Run F α) (phase : Phase) :
    r.pivots phase = r.reports.countP (Event.isPivot phase) := by
  rw [pivots, reports, List.countP_filter]
  congr 1
  ext e
  cases e <;> simp [Event.isPivot, Event.isReport]

theorem reports_bind_of_ok {r : Run F α} {a : α} (h : r.outcome = .ok a) (f : α → Run F β) :
    (r >>= f).reports = r.reports ++ (f a).reports := by
  rw [bind_of_ok h]
  exact List.filter_append ..

theorem reports_bind_of_error {r : Run F α} {e : Failure F} (h : r.outcome = .error e)
    (f : α → Run F β) : (r >>= f).reports = r.reports := by
  rw [bind_of_error h]
  rfl

end Run

variable [Scalar F] {m n : ℕ}

namespace Tableau

variable {phase : Phase} {limit : Option ℕ} {move : Option (Fin n) → Tableau F m n → Move F m n}

/-- Between two visits of an iteration there is one pivot, and all pivots are of its phase. -/
theorem pivots_iterate (phase : Phase) (limit : Option ℕ)
    (move : Option (Fin n) → Tableau F m n → Move F m n) (remaining iteration : ℕ)
    (last : Option (Fin n)) (t : Tableau F m n) :
    (t.iterate phase limit move remaining iteration last).visits.length =
        (t.iterate phase limit move remaining iteration last).pivots phase + 1 ∧
      ∀ phase', phase ≠ phase' →
        (t.iterate phase limit move remaining iteration last).pivots phase' = 0 := by
  induction remaining using Nat.strong_induction_on generalizing iteration last t with
  | _ remaining ih =>
    cases hm : move last t with
    | optimal => rw [iterate_of_optimal hm]; exact ⟨rfl, fun _ _ => rfl⟩
    | unbounded j => rw [iterate_of_unbounded hm]; exact ⟨rfl, fun _ _ => rfl⟩
    | infeasible i => rw [iterate_of_infeasible hm]; exact ⟨rfl, fun _ _ => rfl⟩
    | pivot i j cost =>
      cases remaining with
      | zero => rw [iterate_zero_of_pivot hm]; exact ⟨rfl, fun _ _ => rfl⟩
      | succ remaining =>
        cases ht' : t.pivot i j with
        | error e => rw [iterate_of_pivot_error hm ht']; exact ⟨rfl, fun _ _ => rfl⟩
        | ok t' =>
          obtain ⟨hlength, hother⟩ := ih remaining (Nat.lt_succ_self _) (iteration + 1) (some j) t'
          rw [iterate_of_pivot_ok hm ht']
          constructor
          · simpa [Run.visits, Run.pivots, Event.visit?, Event.isPivot, List.countP_cons,
              List.filterMap_cons] using hlength
          · intro phase' hne
            simpa [Run.pivots, Event.isPivot, List.countP_cons, hne] using hother phase' hne

section Ends

variable {remaining pivots : ℕ} {s : Position F m n} {x : Except (Failure F) (Stop F m n)}

theorem Ends.pivots_eq (h : Ends limit move remaining pivots s x) {l : ℕ}
    (hl : x.map (·.pivots) = .ok l) : l = pivots := by
  cases h with
  | optimal _ | unbounded _ | infeasible _ =>
    cases hl
    rfl
  | singular _ _ => cases hl
  | outOfPivots _ => cases hl

theorem Ends.of_iterationLimit (h : Ends limit move remaining pivots s x) {L : ℕ}
    (hL : x.map (·.pivots) = .error (.iterationLimit L)) : limit = some L ∧ remaining = 0 := by
  cases h with
  | optimal _ | unbounded _ | infeasible _ => cases hL
  | singular _ h =>
    cases hL
    cases isNumerical_of_ofBasis h
  | outOfPivots _ =>
    cases limit with
    | none => cases hL
    | some limit =>
      cases hL
      exact ⟨rfl, rfl⟩

end Ends

section Path

variable {p : ℕ → Position F m n} {k artificial : ℕ} (hmove : EntersNonbasic move)
  (hp : IsPath move p k) (h0 : (p 0).tableau.IsProper artificial)

omit [Scalar F] in
theorem IsReplacement.replacesOne {t t' : Tableau F m n} {i : Fin m} {j : Fin n}
    (h : IsReplacement t t' i j) : ReplacesOne t.basis.indices t'.basis.indices := by
  refine ⟨i, j, by simp, fun hj => ?_, by rw [h.basis_eq, Basis.indices_set]⟩
  obtain ⟨k, hk⟩ := Basis.mem_indices.mp hj
  exact h.mayEnter.2 k hk

include hmove hp

theorem IsPath.isPhaseTrace (phase : Phase) :
    IsPhaseTrace m ((List.range (k + 1)).map fun l => (p l).tableau.snapshot phase l) where
  iterations_eq := by
    simp [Tableau.snapshot, Function.comp_def]
  length_basis s hs := by
    obtain ⟨l, -, rfl⟩ := List.mem_map.mp hs
    exact Basis.length_indices _
  replaces := by
    rw [List.isChain_map, List.isChain_range_succ]
    intro l hl
    obtain ⟨i, j, h⟩ := (hp l hl).isReplacement hmove
    exact h.replacesOne

include h0

theorem IsPath.keepsOut (phase : Phase) :
    KeepsOut (n - artificial)
      ((List.range (k + 1)).map fun l => (p l).tableau.snapshot phase l) := by
  rw [KeepsOut, List.pairwise_map]
  refine List.pairwise_lt_range.imp_of_mem fun {a b} _ hb hab j hj hle => ?_
  exact hp.mem_indices_of_le hmove h0 hab.le (Nat.lt_succ_iff.mp (List.mem_range.mp hb)) hj hle

end Path

end Tableau

/-- The reports of a phase that makes `k` pivots and ends with `x`. -/
structure IsPhaseRun (limit : Option ℕ) (phase : Phase) (rows columns k : ℕ)
    (reports : List (Event F)) (x : Except (Failure F) ℕ) : Prop where
  phase_eq : ∀ s ∈ reports.filterMap Event.snapshot?, s.phase = phase
  length_eq : (reports.filterMap Event.snapshot?).length = k + 1
  isPhaseTrace : IsPhaseTrace rows (reports.filterMap Event.snapshot?)
  keepsOut : KeepsOut columns (reports.filterMap Event.snapshot?)
  pivots_eq : reports.countP (Event.isPivot phase) = k
  pivots_other : ∀ phase', phase ≠ phase' → reports.countP (Event.isPivot phase') = 0
  of_ok : ∀ l, x = .ok l → l = k
  le_limit : ∀ L, limit = some L → k ≤ L
  of_iterationLimit : ∀ L, x = .error (.iterationLimit L) → limit = some L ∧ k = L

theorem Tableau.isPhaseRun_iterate (phase : Phase) (limit : Option ℕ) {artificial : ℕ}
    {move : Option (Fin n) → Tableau F m n → Move F m n} (hmove : EntersNonbasic move)
    {t : Tableau F m n} (ht : t.IsProper artificial) :
    ∃ k, IsPhaseRun limit phase m (n - artificial) k
      (t.iterate phase limit move (allowance limit m n) 0 none).reports
      ((t.iterate phase limit move (allowance limit m n) 0 none).outcome.map (·.pivots)) := by
  obtain ⟨p, k, h0, hp, hk, hvisits, hends⟩ :=
    iterate_spec phase limit move (allowance limit m n) 0 none t
  obtain ⟨hpivots, hother⟩ := pivots_iterate phase limit move (allowance limit m n) 0 none t
  generalize t.iterate phase limit move (allowance limit m n) 0 none = r at *
  have hsnapshots : r.reports.filterMap Event.snapshot? =
      (List.range (k + 1)).map fun l => (p l).tableau.snapshot phase l := by
    rw [← Run.snapshots_eq_reports, Run.snapshots_eq_map_visits, hvisits, snapshots_visitsOf]
  have ht' : (p 0).tableau.IsProper artificial := by rw [h0]; exact ht
  refine ⟨k, ?_⟩
  constructor
  case phase_eq =>
    rw [hsnapshots]
    intro s hs
    obtain ⟨l, -, rfl⟩ := List.mem_map.mp hs
    rfl
  case length_eq => rw [hsnapshots, List.length_map, List.length_range]
  case isPhaseTrace => exact hsnapshots ▸ hp.isPhaseTrace hmove phase
  case keepsOut => exact hsnapshots ▸ hp.keepsOut hmove ht' phase
  case pivots_eq =>
    rw [hvisits, length_visitsOf] at hpivots
    exact (r.pivots_eq_reports phase).symm.trans (Nat.succ.inj hpivots).symm
  case pivots_other =>
    exact fun phase' hne => (r.pivots_eq_reports phase').symm.trans (hother phase' hne)
  case of_ok => exact fun l hl => (hends.pivots_eq hl).trans (Nat.zero_add k)
  case le_limit =>
    rintro L rfl
    exact hk
  case of_iterationLimit =>
    intro L hL
    obtain ⟨rfl, hremaining⟩ := hends.of_iterationLimit hL
    exact ⟨rfl, hk.antisymm (Nat.sub_eq_zero_iff_le.mp hremaining)⟩

end RevisedSimplex
