import RevisedSimplex.Proofs.Soundness

/-! # Construction of problems

Lists of numbers become a problem exactly if their lengths match and their values are finite, and
the problem holds these lists. Inequalities become a problem under the same conditions. Its feasible
points are those of the inequalities, each followed by what it leaves of the right-hand side.
-/

namespace RevisedSimplex

open Matrix

section Data

variable {F : Type}

/-- There is a row, the rows are as long as the costs, each has a right-hand side, and all values
are finite. -/
structure IsWellShaped [Scalar F] (cost : List F) (rows : List (List F)) (rhs : List F) :
    Prop where
  rows_ne_nil : rows ≠ []
  length_row : ∀ row ∈ rows, row.length = cost.length
  length_rhs : rhs.length = rows.length
  finite_cost : ∀ v ∈ cost, Scalar.isFinite v = true
  finite_rows : ∀ row ∈ rows, ∀ v ∈ row, Scalar.isFinite v = true
  finite_rhs : ∀ v ∈ rhs, Scalar.isFinite v = true

namespace RowMatrix

variable {m n : ℕ}

theorem length_of_mem_toLists {M : RowMatrix F m n} {row : List F} (h : row ∈ M.toLists) :
    row.length = n := by
  obtain ⟨v, -, rfl⟩ := List.mem_map.mp h
  simp

@[simp] theorem toLists_ofRows (rows : List (List F)) (h : ∀ row ∈ rows, row.length = n) :
    (ofRows rows h).toLists = rows := by
  rw [toLists_eq_ofFn]
  apply List.ext_getElem <;> simp [ofRows, row, get_eq_getElem]

end RowMatrix

namespace Program

variable {m n : ℕ}

theorem lists_of_ofLists {cost : List F} {rows : List (List F)} {rhs : List F}
    {P : Program F rows.length cost.length} (h : ofLists cost rows rhs = .ok P) :
    P.cost.toList = cost ∧ P.constraints.toLists = rows ∧ P.rhs.toList = rhs := by
  unfold ofLists at h
  split at h
  · cases h
  · split at h
    · cases h
      exact ⟨rfl, by simp, rfl⟩
    · cases h

theorem ofLists_exists {cost : List F} {rows : List (List F)} {rhs : List F}
    (hrows : ∀ row ∈ rows, row.length = cost.length) (hrhs : rhs.length = rows.length) :
    ∃ P, ofLists cost rows rhs = .ok P := by
  have hnone : rows.findFinIdx? (·.length != cost.length) = none := by simpa using hrows
  unfold ofLists
  split
  · rename_i i hi
    rw [hnone] at hi
    cases hi
  · rw [dif_pos hrhs]
    exact ⟨_, rfl⟩

theorem isFinite_iff [Scalar F] (P : Program F m n) :
    P.isFinite = true ↔ (∀ row ∈ P.constraints.toLists, ∀ v ∈ row, Scalar.isFinite v = true) ∧
      (∀ v ∈ P.cost.toList, Scalar.isFinite v = true) ∧
        ∀ v ∈ P.rhs.toList, Scalar.isFinite v = true := by
  simp only [isFinite, RowMatrix.isFinite, RowMatrix.toLists, ← Vector.all_toList, Bool.and_eq_true,
    List.all_eq_true, List.forall_mem_map, and_assoc]

end Program

namespace Problem

variable [Scalar F]

/-- The problem is stated by these lists. -/
structure States (p : Problem F) (objective : Objective) (cost : List F) (rows : List (List F))
    (rhs : List F) : Prop where
  objective_eq : p.objective = objective
  cost_eq : p.program.cost.toList = cost
  rows_eq : p.program.constraints.toLists = rows
  rhs_eq : p.program.rhs.toList = rhs

variable {p : Problem F} {objective : Objective} {cost : List F} {rows : List (List F)}
  {rhs : List F}

theorem States.isWellShaped (h : p.States objective cost rows rhs) :
    cost ≠ [] ∧ IsWellShaped cost rows rhs := by
  obtain ⟨-, rfl, rfl, rfl⟩ := h
  obtain ⟨hrows, hcost, hrhs⟩ := p.program.isFinite_iff.mp p.isFinite
  refine ⟨List.ne_nil_of_length_pos ?_, ?_⟩
  · simpa using p.columns_pos
  · constructor
    · apply List.ne_nil_of_length_pos
      simpa using p.rows_pos
    · intro row hrow
      simpa using RowMatrix.length_of_mem_toLists hrow
    · simp
    · exact hcost
    · exact hrows
    · exact hrhs

theorem states_of_ofLists (h : ofLists objective cost rows rhs = .ok p) :
    p.States objective cost rows rhs := by
  unfold ofLists at h
  split at h
  · split at h
    · cases hP : Program.ofLists cost rows rhs with
      | error fault =>
        rw [hP] at h
        cases h
      | ok P =>
        rw [hP] at h
        obtain ⟨hcost, hrows, hrhs⟩ := Program.lists_of_ofLists hP
        change (if hf : P.isFinite then _ else _) = _ at h
        split at h
        · cases h
          exact ⟨rfl, hcost, hrows, hrhs⟩
        · cases h
    · cases h
  · cases h

theorem ofLists_exists (hcost : cost ≠ []) (h : IsWellShaped cost rows rhs) :
    ∃ p, ofLists objective cost rows rhs = .ok p := by
  obtain ⟨P, hP⟩ := Program.ofLists_exists h.length_row h.length_rhs
  have hf : P.isFinite = true := by
    obtain ⟨hc, hr, hb⟩ := Program.lists_of_ofLists hP
    rw [Program.isFinite_iff, hc, hr, hb]
    exact ⟨h.finite_rows, h.finite_cost, h.finite_rhs⟩
  rw [ofLists, dif_pos (List.length_pos_of_ne_nil h.rows_ne_nil),
    dif_pos (List.length_pos_of_ne_nil hcost), hP]
  exact ⟨_, dif_pos hf⟩

theorem ofLists_eq_ok_iff : (∃ p, ofLists objective cost rows rhs = .ok p) ↔
    cost ≠ [] ∧ IsWellShaped cost rows rhs := by
  constructor
  · rintro ⟨p, hp⟩
    exact (states_of_ofLists hp).isWellShaped
  · rintro ⟨hcost, h⟩
    exact ofLists_exists hcost h

/-! ### Slack variables -/

@[simp] theorem length_withSlacks (rows : List (List F)) :
    (withSlacks rows).length = rows.length := by
  simp [withSlacks]

theorem getElem_withSlacks (rows : List (List F)) {i : ℕ} (hi : i < (withSlacks rows).length) :
    (withSlacks rows)[i] = rows.get ⟨i, by simpa using hi⟩ ++
      (List.range rows.length).map fun k => if k = i then 1 else 0 := by
  simp [withSlacks]

theorem length_row_withSlacks_iff {n : ℕ} : (∀ row ∈ withSlacks rows,
    row.length = n + rows.length) ↔ ∀ row ∈ rows, row.length = n := by
  simp only [List.forall_mem_iff_getElem, getElem_withSlacks, length_withSlacks]
  simp

section Finite

variable (hzero : Scalar.isFinite (0 : F) = true) (hone : Scalar.isFinite (1 : F) = true)

include hzero hone

theorem finite_withSlacks_iff :
    (∀ row ∈ withSlacks rows, ∀ v ∈ row, Scalar.isFinite v = true) ↔
      ∀ row ∈ rows, ∀ v ∈ row, Scalar.isFinite v = true := by
  have hunit : ∀ i k : ℕ, Scalar.isFinite (if k = i then (1 : F) else 0) = true := by
    intro i k
    split
    · exact hone
    · exact hzero
  constructor
  · intro h row hrow v hv
    obtain ⟨i, hi, rfl⟩ := List.getElem_of_mem hrow
    refine h _ (List.getElem_mem (by simpa using hi)) v ?_
    rw [getElem_withSlacks]
    exact List.mem_append_left _ hv
  · intro h row hrow v hv
    obtain ⟨i, hi, rfl⟩ := List.getElem_of_mem hrow
    rw [getElem_withSlacks] at hv
    rcases List.mem_append.mp hv with hv | hv
    · exact h _ (List.getElem_mem _) v hv
    · obtain ⟨k, -, rfl⟩ := List.mem_map.mp hv
      exact hunit i k

theorem isWellShaped_withSlacks_iff :
    IsWellShaped (cost ++ List.replicate rows.length 0) (withSlacks rows) rhs ↔
      IsWellShaped cost rows rhs := by
  have hnil : withSlacks rows ≠ [] ↔ rows ≠ [] := by
    rw [← List.length_pos_iff, ← List.length_pos_iff, length_withSlacks]
  constructor
  · rintro ⟨hrows, hlength, hrhs, hfc, hfr, hfb⟩
    constructor
    · exact hnil.mp hrows
    · simpa [length_row_withSlacks_iff] using hlength
    · simpa using hrhs
    · exact fun v hv => hfc v (List.mem_append_left _ hv)
    · exact (finite_withSlacks_iff hzero hone).mp hfr
    · exact hfb
  · rintro ⟨hrows, hlength, hrhs, hfc, hfr, hfb⟩
    constructor
    · exact hnil.mpr hrows
    · simpa [length_row_withSlacks_iff] using hlength
    · simpa using hrhs
    · intro v hv
      rcases List.mem_append.mp hv with hv | hv
      · exact hfc v hv
      · rwa [List.eq_of_mem_replicate hv]
    · exact (finite_withSlacks_iff hzero hone).mpr hfr
    · exact hfb

theorem ofInequalities_eq_ok_iff :
    (∃ p, ofInequalities objective cost rows rhs = .ok p) ↔ IsWellShaped cost rows rhs := by
  rw [← isWellShaped_withSlacks_iff hzero hone]
  unfold ofInequalities
  rw [ofLists_eq_ok_iff]
  refine and_iff_right_of_imp fun h => List.ne_nil_of_length_pos ?_
  have hrows := List.length_pos_of_ne_nil h.rows_ne_nil
  rw [length_withSlacks] at hrows
  simp
  omega

end Finite

end Problem
end Data

/-! ### Points of inequalities -/

/-- The points `x ≥ 0` with `rows x ≤ rhs`. -/
def inequalityPoints (columns : ℕ) (rows : List (List ℚ)) (rhs : List ℚ) : Set (List ℚ) :=
  {x | x.length = columns ∧ (∀ v ∈ x, 0 ≤ v) ∧
    List.Forall₂ (fun row bound => dot row x ≤ bound) rows rhs}

def slackValues (rows : List (List ℚ)) (rhs x : List ℚ) : List ℚ :=
  List.zipWith (fun row bound => bound - dot row x) rows rhs

/-- The feasible points of a problem by their coordinates. -/
def Problem.points (p : Problem ℚ) : Set (List ℚ) :=
  {z | ∃ x, p.program.IsFeasible x ∧ List.ofFn x = z}

theorem dot_append {x x' : List ℚ} (h : x.length = x'.length) (y y' : List ℚ) :
    dot (x ++ y) (x' ++ y') = dot x x' + dot y y' := by
  have hsum : ∀ l l' : List ℚ, dot l l' = ((List.zipWith (· * ·) l l').map id).sum := by
    intro l l'
    rw [dot]
    exact (foldl_add_eq_add_sum id _ 0).trans (zero_add _)
  rw [hsum, hsum, hsum, List.zipWith_append h, List.map_append, List.sum_append]

theorem dot_replicate_zero (s : List ℚ) : dot (List.replicate s.length 0) s = 0 := by
  have hz : List.replicate s.length (0 : ℚ) = List.ofFn fun _ : Fin s.length => 0 := by simp
  calc dot (List.replicate s.length 0) s
      = dot (List.ofFn fun _ => 0) (List.ofFn s.get) := by rw [List.ofFn_get, ← hz]
    _ = 0 := by rw [dot_ofFn]; simp [dotProduct]

theorem dot_unit {s : List ℚ} {m i : ℕ} (hs : s.length = m) (hi : i < m) :
    dot ((List.range m).map fun k => if k = i then 1 else 0) s = s[i] := by
  subst hs
  have hu : (List.range s.length).map (fun k => if k = i then (1 : ℚ) else 0) =
      List.ofFn fun k : Fin s.length => if k = ⟨i, hi⟩ then 1 else 0 := by
    apply List.ext_getElem <;> simp [Fin.ext_iff]
  calc dot ((List.range s.length).map fun k => if k = i then 1 else 0) s
      = dot (List.ofFn fun k => if k = ⟨i, hi⟩ then 1 else 0) (List.ofFn s.get) := by
        rw [List.ofFn_get, ← hu]
    _ = s[i] := by rw [dot_ofFn]; simp [dotProduct]

theorem slackValues_nonneg_iff {rows : List (List ℚ)} {rhs : List ℚ}
    (h : rhs.length = rows.length) (x : List ℚ) :
    (∀ v ∈ slackValues rows rhs x, 0 ≤ v) ↔
      List.Forall₂ (fun row bound => dot row x ≤ bound) rows rhs := by
  induction rows generalizing rhs with
  | nil =>
    obtain rfl := List.length_eq_zero_iff.mp h
    simp [slackValues]
  | cons row rows ih =>
    cases rhs with
    | nil => simp at h
    | cons bound rhs =>
      have ih := ih (Nat.succ.inj h)
      simp only [slackValues] at ih
      simp [slackValues, ih]

/-- The rows are met exactly if the slack variables have what is left of the right-hand side. -/
theorem zipWith_add_eq_iff {rows : List (List ℚ)} {rhs s : List ℚ}
    (hs : s.length = rows.length) (h : rhs.length = rows.length) (x : List ℚ) :
    List.zipWith (fun row v => dot row x + v) rows s = rhs ↔ s = slackValues rows rhs x := by
  induction rows generalizing rhs s with
  | nil =>
    obtain rfl := List.length_eq_zero_iff.mp hs
    obtain rfl := List.length_eq_zero_iff.mp h
    simp [slackValues]
  | cons row rows ih =>
    cases rhs with
    | nil => simp at h
    | cons bound rhs =>
      cases s with
      | nil => simp at hs
      | cons v s =>
        have ih := ih (Nat.succ.inj hs) (Nat.succ.inj h)
        simp only [slackValues] at ih
        simp [slackValues, ih, eq_sub_iff_add_eq']

theorem map_dot_withSlacks {rows : List (List ℚ)} {x s : List ℚ}
    (hrows : ∀ row ∈ rows, row.length = x.length) (hs : s.length = rows.length) :
    (Problem.withSlacks rows).map (dot · (x ++ s)) =
      List.zipWith (fun row v => dot row x + v) rows s := by
  apply List.ext_getElem
  · simp [hs]
  · intro i hi hi'
    rw [List.length_map, Problem.length_withSlacks] at hi
    rw [List.getElem_map, Problem.getElem_withSlacks, dot_append (hrows _ (List.get_mem ..)),
      List.getElem_zipWith]
    exact congrArg _ (dot_unit hs hi)

theorem Program.isFeasible_iff_toLists {m n : ℕ} (P : Program ℚ m n) (x : Fin n → ℚ) :
    P.IsFeasible x ↔ (∀ v ∈ List.ofFn x, 0 ≤ v) ∧
      P.constraints.toLists.map (dot · (List.ofFn x)) = P.rhs.toList := by
  have hrows : P.constraints.toLists.map (dot · (List.ofFn x)) =
      List.ofFn (P.constraints.toMatrix *ᵥ x) := by
    rw [RowMatrix.toLists_eq_ofFn, List.map_ofFn]
    congr 1
    funext i
    rw [Function.comp_apply, toList_eq_ofFn, dot_ofFn]
    rfl
  rw [hrows, toList_eq_ofFn, List.ofFn_inj, IsFeasible, List.forall_mem_ofFn_iff]

namespace Problem

variable {p : Problem ℚ} {objective : Objective} {cost : List ℚ} {rows : List (List ℚ)}
  {rhs : List ℚ}

theorem mem_points_iff {z : List ℚ} : z ∈ p.points ↔ z.length = p.columns ∧
    (∀ v ∈ z, 0 ≤ v) ∧ p.program.constraints.toLists.map (dot · z) = p.program.rhs.toList := by
  constructor
  · rintro ⟨x, hx, rfl⟩
    exact ⟨List.length_ofFn, (p.program.isFeasible_iff_toLists x).mp hx⟩
  · rintro ⟨hlength, hz⟩
    have hofFn : List.ofFn (fun j => z.get (j.cast hlength.symm)) = z := by
      apply List.ext_getElem <;> simp [hlength]
    refine ⟨fun j => z.get (j.cast hlength.symm), ?_, hofFn⟩
    rw [Program.isFeasible_iff_toLists, hofFn]
    exact hz

section Slacks

variable (h : p.States objective (cost ++ List.replicate rows.length 0) (withSlacks rows) rhs)
  (hshape : IsWellShaped cost rows rhs)

include h

theorem States.columns_eq : p.columns = cost.length + rows.length := by
  have hlength := congrArg List.length h.cost_eq
  simpa using hlength

theorem States.dot_cost {x s : List ℚ} (hx : x.length = cost.length)
    (hs : s.length = rows.length) : dot p.program.cost.toList (x ++ s) = dot cost x := by
  rw [h.cost_eq, dot_append hx.symm, ← hs]
  exact (congrArg _ (dot_replicate_zero s)).trans (add_zero _)

include hshape

/-- A point with values of the slack variables is feasible exactly if it satisfies the
inequalities and the values are what it leaves of the right-hand side. -/
theorem States.append_mem_points_iff {x s : List ℚ} (hx : x.length = cost.length)
    (hs : s.length = rows.length) : x ++ s ∈ p.points ↔
      x ∈ inequalityPoints cost.length rows rhs ∧ s = slackValues rows rhs x := by
  have hrows : ∀ row ∈ rows, row.length = x.length := by
    intro row hrow
    rw [hx, hshape.length_row row hrow]
  rw [mem_points_iff, h.rows_eq, h.rhs_eq, map_dot_withSlacks hrows hs,
    zipWith_add_eq_iff hs hshape.length_rhs, h.columns_eq, List.forall_mem_append]
  constructor
  · rintro ⟨-, ⟨hnonneg, hslack⟩, rfl⟩
    exact ⟨⟨hx, hnonneg, (slackValues_nonneg_iff hshape.length_rhs x).mp hslack⟩, rfl⟩
  · rintro ⟨⟨-, hnonneg, hle⟩, rfl⟩
    refine ⟨by simp [hx, hs], ⟨hnonneg, ?_⟩, rfl⟩
    exact (slackValues_nonneg_iff hshape.length_rhs x).mpr hle

theorem States.bijOn_slackValues : Set.BijOn (fun x => x ++ slackValues rows rhs x)
    (inequalityPoints cost.length rows rhs) p.points := by
  have hlength : ∀ x, (slackValues rows rhs x).length = rows.length := by
    intro x
    simp [slackValues, hshape.length_rhs]
  refine ⟨?_, ?_, ?_⟩
  · intro x hx
    exact (h.append_mem_points_iff hshape hx.1 (hlength x)).mpr ⟨hx, rfl⟩
  · intro x hx x' hx' he
    exact List.append_inj_left he (hx.1.trans hx'.1.symm)
  · intro z hz
    have hz' := (mem_points_iff.mp hz).1
    rw [h.columns_eq] at hz'
    rw [← List.take_append_drop cost.length z] at hz ⊢
    obtain ⟨hx, hs⟩ := (h.append_mem_points_iff hshape (by simp; omega) (by simp; omega)).mp hz
    exact ⟨_, hx, congrArg _ hs.symm⟩

end Slacks

/-- Equations become a problem exactly if there is a variable and the data are well-shaped, and the
problem states these data. Inequalities become one exactly if the data are well-shaped, as long as
zero and one are finite. Over the rationals their points correspond to its feasible points by the
values of the slack variables, at the same cost. -/
theorem construction_isExact :
    (∀ {F : Type} [Scalar F] (objective : Objective) (cost : List F) (rows : List (List F))
      (rhs : List F),
      ((∃ p, ofLists objective cost rows rhs = .ok p) ↔ cost ≠ [] ∧ IsWellShaped cost rows rhs) ∧
      (∀ p, ofLists objective cost rows rhs = .ok p → p.States objective cost rows rhs) ∧
      (Scalar.isFinite (0 : F) = true → Scalar.isFinite (1 : F) = true →
        ((∃ p, ofInequalities objective cost rows rhs = .ok p) ↔ IsWellShaped cost rows rhs))) ∧
    ∀ (objective : Objective) (cost : List ℚ) (rows : List (List ℚ)) (rhs : List ℚ) (p),
      ofInequalities objective cost rows rhs = .ok p → p.objective = objective ∧
        Set.BijOn (fun x => x ++ slackValues rows rhs x)
          (inequalityPoints cost.length rows rhs) p.points ∧
        ∀ x ∈ inequalityPoints cost.length rows rhs,
          dot p.program.cost.toList (x ++ slackValues rows rhs x) = dot cost x := by
  refine ⟨fun objective cost rows rhs => ⟨ofLists_eq_ok_iff, fun p => states_of_ofLists,
    fun hzero hone => ofInequalities_eq_ok_iff hzero hone⟩, ?_⟩
  intro objective cost rows rhs p hp
  have hshape : IsWellShaped cost rows rhs := (ofInequalities_eq_ok_iff rfl rfl).mp ⟨p, hp⟩
  have hstates := states_of_ofLists hp
  refine ⟨hstates.objective_eq, hstates.bijOn_slackValues hshape, ?_⟩
  intro x hx
  apply hstates.dot_cost hx.1
  simp [slackValues, hshape.length_rhs]

/-- Two inequalities in double precision, without variables as well; a row that is too short is
refused. Over the rationals the point `(1, 2)` leaves two and five. -/
theorem construction_isExact_twoInequalities :
    (∃ p, ofInequalities .minimize [-3, -4] [[2, 0], [1, 1]] [(4 : Float), 8] = .ok p) ∧
      (∃ p, ofInequalities .minimize [] [[], []] [(4 : Float), 8] = .ok p) ∧
      (¬ ∃ p, ofInequalities .minimize [-3, -4] [[2, 0], [1]] [(4 : Float), 8] = .ok p) ∧
      ∃ p, ofInequalities .minimize [-3, -4] [[2, 0], [1, 1]] [(4 : ℚ), 8] = .ok p ∧
        [1, 2, 2, 5] ∈ p.points ∧ dot p.program.cost.toList [1, 2, 2, 5] = -11 := by
  have hfinite : Scalar.isFinite (0 : Float) = true ∧ Scalar.isFinite (1 : Float) = true := by
    decide +kernel
  have haccepts := fun (cost : List Float) rows rhs =>
    (construction_isExact.1 .minimize cost rows rhs).2.2 hfinite.1 hfinite.2
  refine ⟨(haccepts _ _ _).mpr ?_, (haccepts _ _ _).mpr ?_, fun h => ?_, ?_⟩
  · constructor <;> decide +kernel
  · constructor <;> decide +kernel
  · have hlength := ((haccepts _ _ _).mp h).length_row
    revert hlength
    decide +kernel
  · obtain ⟨p, hp⟩ := ((construction_isExact.1 .minimize [(-3 : ℚ), -4] [[2, 0], [1, 1]]
      [4, 8]).2.2 rfl rfl).mpr (by constructor <;> decide +kernel)
    obtain ⟨-, hpoints, hcost⟩ := construction_isExact.2 _ _ _ _ p hp
    have hx : [1, 2] ∈ inequalityPoints 2 [[2, 0], [1, 1]] [4, 8] := by
      refine ⟨rfl, by decide +kernel, ?_⟩
      exact .cons (by decide +kernel) (.cons (by decide +kernel) .nil)
    have hslack : [1, 2] ++ slackValues [[2, 0], [1, 1]] [4, 8] [1, 2] = [1, 2, 2, 5] := by
      decide +kernel
    have hvalue := hcost _ hx
    rw [hslack] at hvalue
    refine ⟨p, hp, hslack ▸ hpoints.mapsTo hx, hvalue.trans ?_⟩
    decide +kernel

end Problem
end RevisedSimplex
