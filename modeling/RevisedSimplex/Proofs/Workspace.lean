import RevisedSimplex.Proofs.Bland
import RevisedSimplex.Proofs.Replacement
import RevisedSimplex.Tableau.Workspace

/-! # Exchanges in place

An exchange either leaves a workspace as it was or does to it what a pivot does to its tableau.
Whatever the arithmetic, a method goes through the tableaux of the workspaces that its exchanges
make. In exact arithmetic the list of the basic columns, their set and the evaluation agree
whatever exchanges are tried, and each one that succeeds is an elimination step of the textbook.
-/

namespace RevisedSimplex

open Matrix

variable {m n : ℕ}

namespace Workspace

section Perform

variable {F β : Type}

theorem Update.perform_get_bind (f : Workspace F m n → Update F m n β) (w : Workspace F m n) :
    Update.perform (get >>= f) w = (f w).perform w := rfl

variable [Scalar F]

theorem perform_exchange (w : Workspace F m n) (i : Fin m) (j : Fin n) :
    (exchange i j).perform w =
      match w.pivot i j with
      | .ok t => (.ok (w.basis.get i), ⟨t, insert j (w.columns.erase (w.basis.get i))⟩)
      | .error e => (.error e, w) := by
  rw [exchange, Update.perform_get_bind, Tableau.pivot, Tableau.ofBasis]
  dsimp only
  cases w.program.evaluate? (w.basis.set i j i.isLt) w.tolerance <;> rfl

theorem perform_exchange_of_ok {w : Workspace F m n} {i : Fin m} {j : Fin n} {t : Tableau F m n}
    (h : w.pivot i j = .ok t) : (exchange i j).perform w =
      (.ok (w.basis.get i), ⟨t, insert j (w.columns.erase (w.basis.get i))⟩) := by
  simp only [perform_exchange, h]

theorem perform_exchange_of_error {w : Workspace F m n} {i : Fin m} {j : Fin n} {e : Failure F}
    (h : w.pivot i j = .error e) : (exchange i j).perform w = (.error e, w) := by
  simp only [perform_exchange, h]

end Perform

end Workspace

/-! ### The workspaces of a run -/

namespace Tableau

open Workspace

variable {F : Type} {t t' : Tableau F m n}

def workspace (t : Tableau F m n) : Workspace F m n := ⟨t, t.basicColumns⟩

theorem basicColumns_eq_toFinset (t : Tableau F m n) :
    t.basicColumns = t.basis.toList.toFinset := by
  ext j
  simp [toList_eq_ofFn, List.mem_ofFn]

/-- Looking a column up in the set is looking it up in the list. -/
theorem isBasic_workspace (t : Tableau F m n) (j : Fin n) : t.workspace.isBasic j = t.isBasic j := by
  rw [Bool.eq_iff_iff, t.isBasic_iff, Workspace.isBasic, decide_eq_true_eq]
  exact mem_basicColumns

variable [Scalar F]

theorem ofIndices_workspace (P : Program F m n) (indices : List ℕ) (tolerance : F)
    (artificial : ℕ) : Workspace.ofIndices P indices tolerance artificial =
      (Tableau.ofIndices P indices tolerance artificial).map workspace := by
  simp only [Workspace.ofIndices, ← basicColumns_eq_toFinset]
  rfl

theorem perform_exchange_workspace (hinj : Function.Injective t.basis.get) {i : Fin m} {j : Fin n}
    (h : t.pivot i j = .ok t') :
    (exchange i j).perform t.workspace = (.ok (t.basis.get i), t'.workspace) := by
  obtain ⟨-, -, hb, -, -⟩ := eq_of_ofBasis h
  have hcolumns : insert j (t.basicColumns.erase (t.basis.get i)) = t'.basicColumns := by
    ext c
    rw [mem_basicColumns_of_set hb hinj, Finset.mem_insert, Finset.mem_erase, and_comm]
  rw [perform_exchange_of_ok (w := t.workspace) h]
  exact congrArg (fun columns => (_, Workspace.mk t' columns)) hcolumns

/-- Whatever the arithmetic, the tableaux that a method visits are those of the workspaces that its
exchanges make one after the other. -/
theorem exchanges_iterate {move : Option (Fin n) → Tableau F m n → Move F m n}
    (hmove : EntersNonbasic move) {artificial : ℕ} (ht : t.IsProper artificial) (phase : Phase)
    (limit : Option ℕ) (remaining iteration : ℕ) (last : Option (Fin n)) :
    ∃ (p : ℕ → Position F m n) (k : ℕ), p 0 = ⟨last, t⟩ ∧
      (t.iterate phase limit move remaining iteration last).visits =
        visitsOf phase iteration k p ∧
      ∀ l < k, ∃ i j, (exchange i j).perform (p l).tableau.workspace =
        (.ok ((p l).tableau.basis.get i), (p (l + 1)).tableau.workspace) := by
  obtain ⟨p, k, hp, hpath, -, hvisits, -⟩ :=
    iterate_spec phase limit move remaining iteration last t
  have hfirst : (p 0).tableau.IsProper artificial := by
    rw [hp]
    exact ht
  refine ⟨p, k, hp, hvisits, fun l hl => ?_⟩
  obtain ⟨i, j, cost, -, -, hpivot⟩ := (hpath l hl).spec
  have hproper := hpath.isProper hmove hfirst l hl.le
  exact ⟨i, j, perform_exchange_workspace hproper.injective hpivot⟩

end Tableau

namespace Workspace

/-! ### What every exchange keeps -/

structure IsValid (w : Workspace ℚ m n) : Prop extends w.toTableau.IsValid where
  columns_eq : w.columns = w.basicColumns

/-- The workspaces of a program that exchanges lead to, whichever are tried and whether they
succeed or not. -/
inductive Reachable (P : Program ℚ m n) (tolerance : ℚ) (artificial : ℕ) :
    Workspace ℚ m n → Prop
  | start {indices : List ℕ} {w : Workspace ℚ m n} :
      ofIndices P indices tolerance artificial = .ok w → Reachable P tolerance artificial w
  | exchange {w : Workspace ℚ m n} (i : Fin m) (j : Fin n) : Reachable P tolerance artificial w →
      Reachable P tolerance artificial ((exchange i j).perform w).2

theorem IsValid.eq_workspace {w : Workspace ℚ m n} (hw : w.IsValid) :
    w = w.toTableau.workspace := by
  obtain ⟨t, columns⟩ := w
  exact congrArg (Workspace.mk t) hw.columns_eq

theorem isValid_of_ofIndices {P : Program ℚ m n} {indices : List ℕ} {tolerance : ℚ}
    {artificial : ℕ} (ht : 0 ≤ tolerance) {w : Workspace ℚ m n}
    (h : ofIndices P indices tolerance artificial = .ok w) :
    w.IsValid ∧ w.program = P ∧ w.tolerance = tolerance ∧ w.artificial = artificial := by
  rw [Tableau.ofIndices_workspace] at h
  cases hs : Tableau.ofIndices P indices tolerance artificial with
  | error e =>
    rw [hs] at h
    cases h
  | ok t =>
    rw [hs] at h
    cases h
    obtain ⟨hv, hfixed⟩ := Tableau.isValid_of_ofIndices ht hs
    exact ⟨⟨hv, rfl⟩, hfixed⟩

theorem IsValid.exchange {w : Workspace ℚ m n} (hw : w.IsValid) (i : Fin m) (j : Fin n) :
    ((exchange i j).perform w).2.IsValid ∧
      Tableau.Follows w.toTableau ((Workspace.exchange i j).perform w).2.toTableau := by
  cases h : w.pivot i j with
  | error e =>
    rw [perform_exchange_of_error h]
    exact ⟨hw, hw.follows_self⟩
  | ok t =>
    have he := hw.isExchange_of_pivot h
    rw [hw.eq_workspace, Tableau.perform_exchange_workspace hw.basis_injective h]
    exact ⟨⟨he.valid, rfl⟩, he.follows⟩

theorem Reachable.isValid {P : Program ℚ m n} {tolerance : ℚ} {artificial : ℕ}
    (ht : 0 ≤ tolerance) {w : Workspace ℚ m n} (h : Reachable P tolerance artificial w) :
    w.IsValid ∧ w.program = P ∧ w.tolerance = tolerance ∧ w.artificial = artificial := by
  induction h with
  | start h => exact isValid_of_ofIndices ht h
  | exchange i j _ ih =>
    obtain ⟨hw, hP, htol, hart⟩ := ih
    obtain ⟨hv, hf⟩ := hw.exchange i j
    exact ⟨hv, hf.program_eq.trans hP, hf.tolerance_eq.trans htol, hf.artificial_eq.trans hart⟩

theorem IsValid.isBasic_iff {w : Workspace ℚ m n} (hw : w.IsValid) (j : Fin n) :
    w.isBasic j = true ↔ ∃ i, w.basis.get i = j := by
  simp [isBasic, hw.columns_eq]

/-- The list of the basic columns, their set and the evaluation belong together, and the
evaluation has the properties of a basic solution and its prices. -/
structure IsCoherent (w : Workspace ℚ m n) : Prop where
  length_eq : w.basis.indices.length = m
  nodup : w.basis.indices.Nodup
  lt_of_mem : ∀ j ∈ w.basis.indices, j < n
  isBasic_iff : ∀ j, w.isBasic j = true ↔ j.val ∈ w.basis.indices
  evaluated : w.program.evaluate? w.basis w.tolerance = some w.evaluation
  inverse_mul : w.inverse * w.program.basisMatrix w.basis = 1
  mul_inverse : w.program.basisMatrix w.basis * w.inverse = 1
  column_basic : ∀ i, (w.column (w.basis.get i)).get = Pi.single i 1
  constraints_mulVec : w.program.constraints.toMatrix *ᵥ w.point.get = w.program.rhs.get
  point_nonbasic : ∀ j, w.isBasic j = false → w.point.get j = 0
  price_vecMul : w.shadowPrice.get ᵥ* w.program.basisMatrix w.basis = w.basicCosts
  relativeCost_basic : ∀ j, w.isBasic j = true → w.relativeCost j = 0
  objective_eq_cost : w.objective = w.program.cost.get ⬝ᵥ w.point.get
  objective_eq_price : w.objective = w.shadowPrice.get ⬝ᵥ w.program.rhs.get

theorem IsValid.isCoherent {w : Workspace ℚ m n} (hw : w.IsValid) : w.IsCoherent where
  length_eq := Basis.length_indices w.basis
  nodup := Basis.nodup_indices_iff.mpr hw.basis_injective
  lt_of_mem _ := Basis.lt_of_mem_indices
  isBasic_iff j := by rw [hw.isBasic_iff, Basis.mem_indices]
  evaluated := hw.evaluated
  inverse_mul := hw.inverse_mul_basisMatrix
  mul_inverse := hw.basisMatrix_mul_inverse
  column_basic i := by
    ext k
    rw [Tableau.column_get, hw.entries_basic, Pi.single_apply]
  constraints_mulVec := hw.constraints_mulVec_point
  point_nonbasic j hj := by
    rw [← Bool.not_eq_true, hw.isBasic_iff] at hj
    push Not at hj
    rw [hw.point_get, spread_nonbasic hj]
  price_vecMul := by
    rw [hw.shadowPrice_get, Matrix.vecMul_vecMul, hw.inverse_mul_basisMatrix, Matrix.vecMul_one]
  relativeCost_basic j hj := by
    obtain ⟨i, rfl⟩ := (hw.isBasic_iff j).mp hj
    exact hw.toIsValid.relativeCost_basic i
  objective_eq_cost := hw.objective_eq
  objective_eq_price := hw.toIsValid.objective_eq_price

theorem singularBasis_of_pivot {F : Type} [Scalar F] {t : Tableau F m n} {i : Fin m} {j : Fin n}
    {e : Failure F} (h : t.pivot i j = .error e) :
    e = .singularBasis (t.basis.indices.set i j) := by
  unfold Tableau.pivot Tableau.ofBasis at h
  split at h
  · cases h
  · cases h
    rw [Basis.indices_set]

/-- Whatever exchanges were tried, the basis, its set of columns and the evaluation agree. An
exchange that is refused leaves all of them as they were, and one that succeeds puts its column in
the place of the one that leaves. -/
theorem reachable_isCoherent {P : Program ℚ m n} {tolerance : ℚ} {artificial : ℕ}
    (ht : 0 ≤ tolerance) {w : Workspace ℚ m n} (h : Reachable P tolerance artificial w) :
    w.IsCoherent ∧ (w.program = P ∧ w.tolerance = tolerance ∧ w.artificial = artificial) ∧
      (∀ i j e w', (exchange i j).perform w = (.error e, w') →
        e = .singularBasis (w.basis.indices.set i j) ∧ w' = w) ∧
      ∀ i j leaving w', (exchange i j).perform w = (.ok leaving, w') →
        leaving = w.basis.get i ∧ w'.basis = w.basis.set i j i.isLt ∧ w'.IsCoherent := by
  obtain ⟨hv, hfixed⟩ := h.isValid ht
  refine ⟨hv.isCoherent, hfixed, fun i j e w' he => ?_, fun i j leaving w' he => ?_⟩
  · cases hp : w.pivot i j with
    | ok t =>
      rw [perform_exchange_of_ok hp] at he
      cases he
    | error e' =>
      rw [perform_exchange_of_error hp] at he
      cases he
      exact ⟨singularBasis_of_pivot hp, rfl⟩
  · have hcoherent := (hv.exchange i j).1.isCoherent
    rw [he] at hcoherent
    cases hp : w.pivot i j with
    | ok t =>
      rw [perform_exchange_of_ok hp] at he
      cases he
      exact ⟨rfl, (hv.isExchange_of_pivot hp).basis_eq, hcoherent⟩
    | error e' =>
      rw [perform_exchange_of_error hp] at he
      cases he

/-- The first exchange is refused and the second one is made. -/
theorem reachable_isCoherent_beale :
    ∃ w w', Reachable bealeProgram (1 / 1000) 0 w ∧
      (exchange 2 3).perform w = (.error (.singularBasis [0, 1, 3]), w) ∧
      (exchange 0 3).perform w = (.ok 0, w') ∧ w'.basis.indices = [3, 1, 2] ∧ w'.IsCoherent := by
  have h : (ofIndices bealeProgram [0, 1, 2] (1 / 1000) 0).toOption.map
      (fun w => (w.basis.indices, ((exchange 2 3).perform w).1.toOption,
        ((exchange 0 3).perform w).1.toOption)) =
        some ([0, 1, 2], none, some 0) := by decide +kernel
  obtain ⟨w, hw, he⟩ := exists_ok_of_toOption_map h
  simp only [Prod.mk.injEq] at he
  obtain ⟨hindices, hrefused, hmade⟩ := he
  obtain ⟨-, -, herror, hok⟩ := reachable_isCoherent (by norm_num) (Reachable.start hw)
  obtain ⟨e, hx⟩ := exists_error_of_toOption hrefused
  obtain ⟨rfl, hw'⟩ := herror 2 3 e ((exchange 2 3).perform w).2 (Prod.ext hx rfl)
  have hexchange : (exchange 0 3).perform w = (.ok 0, ((exchange 0 3).perform w).2) :=
    Prod.ext (eq_ok_of_toOption hmade) rfl
  obtain ⟨-, hbasis, hcoherent⟩ := hok 0 3 0 _ hexchange
  rw [hindices] at hx
  refine ⟨w, _, .start hw, Prod.ext hx hw', hexchange, ?_, hcoherent⟩
  rw [hbasis, Basis.indices_set, hindices]
  rfl

/-! ### What an exchange does to the tableau -/

/-- The tableau `t'` is what elimination with the entry of row `r` and column `j` makes of `t`. -/
structure IsElimination (t t' : Tableau ℚ m n) (r : Fin m) (j : Fin n) : Prop where
  element_ne : t.element r j ≠ 0
  element_pivot : ∀ k, t'.element r k = t.element r k / t.element r j
  element_other : ∀ i ≠ r, ∀ k,
    t'.element i k = t.element i k - t.element i j * t.element r k / t.element r j
  basicValues_pivot : t'.basicValues.get r = t.basicValues.get r / t.element r j
  basicValues_other : ∀ i ≠ r, t'.basicValues.get i =
    t.basicValues.get i - t.element i j * t.basicValues.get r / t.element r j
  relativeCost_eq : ∀ k, t'.relativeCost k =
    t.relativeCost k - t.relativeCost j * t.element r k / t.element r j
  objective_eq :
    t'.objective = t.objective - t.relativeCost j * t.basicValues.get r / t.element r j

theorem isElimination_of_isExchange {t t' : Tableau ℚ m n} {r : Fin m} {j : Fin n}
    (ht : t.IsValid) (h : Tableau.IsExchange t t' r j) : IsElimination t t' r j where
  element_ne := by
    rw [Tableau.element_eq]
    exact h.entry_ne
  element_pivot k := by
    simp only [Tableau.element_eq]
    exact h.entries_pivot ht k
  element_other i hi k := by
    simp only [Tableau.element_eq]
    rw [h.entries_other ht hi, div_mul_eq_mul_div]
  basicValues_pivot := by
    rw [Tableau.element_eq]
    exact h.basicValues_pivot ht
  basicValues_other i hi := by
    simp only [Tableau.element_eq]
    rw [h.basicValues_other ht hi, div_mul_eq_mul_div]
  relativeCost_eq k := by
    simp only [Tableau.element_eq]
    rw [h.relativeCost_eq ht, div_mul_eq_mul_div]
  objective_eq := by
    rw [Tableau.element_eq, h.objective_eq ht, div_mul_eq_mul_div]

/-- A successful exchange, which evaluates the new basis from scratch, answers with the column that
was basic and eliminates with the entry. With tolerance zero every nonzero entry will do. -/
theorem exchange_isElimination {w : Workspace ℚ m n} (hw : w.toTableau.IsValid) (r : Fin m)
    (j : Fin n) :
    (∀ leaving w', (exchange r j).perform w = (.ok leaving, w') →
      leaving = w.basis.get r ∧ IsElimination w.toTableau w'.toTableau r j) ∧
    (w.tolerance = 0 →
      ((∃ leaving, ((exchange r j).perform w).1 = .ok leaving) ↔ w.element r j ≠ 0)) := by
  cases h : w.pivot r j with
  | ok t =>
    have hexchange := hw.isExchange_of_pivot h
    rw [perform_exchange_of_ok h]
    constructor
    · rintro leaving w' ⟨⟩
      exact ⟨rfl, isElimination_of_isExchange hw hexchange⟩
    · intro _
      rw [Tableau.element_eq]
      exact iff_of_true ⟨_, rfl⟩ hexchange.entry_ne
  | error e =>
    rw [perform_exchange_of_error h]
    constructor
    · rintro leaving w' ⟨⟩
    · intro h0
      refine iff_of_false nofun ?_
      rw [Tableau.element_eq]
      intro hne
      obtain ⟨t', ht'⟩ := hw.pivot_exists h0 hne
      rw [h] at ht'
      cases ht'

theorem exchange_isElimination_beale :
    ∃ w w' : Workspace ℚ 3 7, w.toTableau.IsValid ∧
      (exchange 0 3).perform w = (.ok 0, w') ∧ IsElimination w.toTableau w'.toTableau 0 3 ∧
      ∀ j, ((∃ leaving, ((exchange 2 j).perform w).1 = .ok leaving) ↔ w.element 2 j ≠ 0) := by
  have h : (ofIndices bealeProgram [0, 1, 2] 0 0).toOption.map
      (fun w => ((exchange 0 3).perform w).1.toOption) = some (some 0) := by decide +kernel
  obtain ⟨w, hw, he⟩ := exists_ok_of_toOption_map h
  obtain ⟨hv, -, htol, -⟩ := isValid_of_ofIndices le_rfl hw
  have hok : ((exchange 0 3).perform w).1 = .ok 0 := eq_ok_of_toOption he
  refine ⟨w, ((exchange 0 3).perform w).2, hv.toIsValid, Prod.ext hok rfl, ?_, fun j => ?_⟩
  · exact ((exchange_isElimination hv.toIsValid 0 3).1 0 _ (Prod.ext hok rfl)).2
  · exact (exchange_isElimination hv.toIsValid 2 j).2 htol

end Workspace
end RevisedSimplex
