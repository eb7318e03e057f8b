import RevisedSimplex.Proofs.Primal

/-! # Repeated bases

Tableaux of one program with the same basic columns have the same prices, whatever the order
of the columns. A run in which no set of basic columns repeats has fewer pivots than there are
states, so without a limit it does not run out of them.
-/

namespace RevisedSimplex

open Matrix

variable {m n : ℕ}

def Visit.basisSet {F : Type} [Scalar F] (v : Visit F) : Finset ℕ :=
  (v.tableau.snapshot v.phase v.iteration).basis.toFinset

theorem injOn_Iic_of_lt_imp_ne {α : Type} {f : ℕ → α} {k : ℕ}
    (h : ∀ a b, a < b → b ≤ k → f a ≠ f b) : Set.InjOn f (Set.Iic k) := by
  intro a ha b hb hab
  by_contra hne
  rcases lt_or_gt_of_ne hne with hlt | hlt
  · exact h a b hlt hb hab
  · exact h b a hlt ha hab.symm

namespace Tableau

variable {t t' : Tableau ℚ m n} {i : Fin m} {j : Fin n}

def basicColumns {F : Type} (t : Tableau F m n) : Finset (Fin n) := Finset.univ.image t.basis.get

@[simp] theorem mem_basicColumns {F : Type} {t : Tableau F m n} {j : Fin n} :
    j ∈ t.basicColumns ↔ ∃ i, t.basis.get i = j := by
  simp [basicColumns]

theorem notMem_basicColumns {F : Type} {t : Tableau F m n} {j : Fin n} :
    j ∉ t.basicColumns ↔ ∀ i, t.basis.get i ≠ j := by
  simp

theorem snapshot_basis_toFinset {F : Type} [Scalar F] (t : Tableau F m n) (phase : Phase)
    (iteration : ℕ) :
    (t.snapshot phase iteration).basis.toFinset = t.basicColumns.map Fin.valEmbedding := by
  ext j
  rw [List.mem_toFinset]
  change j ∈ t.basis.toList.map Fin.val ↔ _
  simp [toList_eq_ofFn, List.mem_ofFn]

theorem mem_basicColumns_of_set {F : Type} {t t' : Tableau F m n} {i : Fin m} {j : Fin n}
    (hb : t'.basis = t.basis.set i j i.isLt) (hinj : Function.Injective t.basis.get) {c : Fin n} :
    c ∈ t'.basicColumns ↔ c = j ∨ c ∈ t.basicColumns ∧ c ≠ t.basis.get i := by
  simp only [mem_basicColumns, hb, set_get]
  constructor
  · rintro ⟨l, rfl⟩
    split
    · exact Or.inl rfl
    · rename_i hl
      exact Or.inr ⟨⟨l, rfl⟩, fun he => hl (hinj he)⟩
  · rintro (rfl | ⟨⟨l, rfl⟩, hne⟩)
    · exact ⟨i, if_pos rfl⟩
    · refine ⟨l, if_neg ?_⟩
      rintro rfl
      exact hne rfl

theorem IsExchange.mem_basicColumns_iff (h : IsExchange t t' i j) (ht : t.IsValid) {c : Fin n} :
    c ∈ t'.basicColumns ↔ c = j ∨ c ∈ t.basicColumns ∧ c ≠ t.basis.get i :=
  mem_basicColumns_of_set h.basis_eq ht.basis_injective

namespace IsValid

variable (ht : t.IsValid) (ht' : t'.IsValid) (hP : t'.program = t.program)
  (hb : t'.basicColumns = t.basicColumns)

include ht ht' hP hb

/-- The prices depend on the set of basic columns only. -/
theorem shadowPrice_eq_of_basicColumns : t'.shadowPrice.get = t.shadowPrice.get := by
  apply ht'.shadowPrice_eq_of_vecMul
  ext k
  obtain ⟨l, hl⟩ := mem_basicColumns.mp (hb ▸ mem_basicColumns.mpr ⟨k, rfl⟩)
  have hz := ht.relativeCost_basic l
  rw [relativeCost_eq, sub_eq_zero, hl, ← hP] at hz
  exact hz

theorem relativeCost_eq_of_basicColumns (k : Fin n) : t'.relativeCost k = t.relativeCost k := by
  rw [relativeCost_eq, relativeCost_eq t, ht.shadowPrice_eq_of_basicColumns ht' hP hb, hP]

theorem objective_eq_of_basicColumns : t'.objective = t.objective := by
  rw [ht'.objective_eq_price, ht.objective_eq_price, ht.shadowPrice_eq_of_basicColumns ht' hP hb,
    hP]

end IsValid

theorem lt_stateCount {F : Type} {p : ℕ → Position F m n} {k : ℕ}
    (h : Set.InjOn (fun l => (p l).tableau.basicColumns) (Set.Iic k)) : k < stateCount m n := by
  have hinj : Function.Injective fun l : Fin (k + 1) => (p l).tableau.basis.get := by
    intro a b hab
    refine Fin.ext (h (Nat.lt_succ_iff.mp a.isLt) (Nat.lt_succ_iff.mp b.isLt) ?_)
    exact congrArg (fun g => Finset.univ.image g) hab
  have hcard := Fintype.card_le_of_injective _ hinj
  rw [Fintype.card_fin, Fintype.card_fun, Fintype.card_fin, Fintype.card_fin] at hcard
  calc k < n ^ m := hcard
    _ ≤ n ^ m * (n + 1) := Nat.le_mul_of_pos_right _ n.succ_pos

/-- The visits of a path have different sets of basic columns if the positions have. -/
theorem nodup_visitsOf_iff {F : Type} [Scalar F] {p : ℕ → Position F m n} {k : ℕ} (phase : Phase)
    (iteration : ℕ) :
    ((visitsOf phase iteration k p).map Visit.basisSet).Nodup ↔
      Set.InjOn (fun l => (p l).tableau.basicColumns) (Set.Iic k) := by
  rw [visitsOf, List.map_map, List.nodup_map_iff_inj_on List.nodup_range]
  simp only [List.mem_range, Nat.lt_succ_iff, Function.comp_apply, Visit.basisSet,
    snapshot_basis_toFinset, (Finset.map_injective _).eq_iff]
  exact ⟨fun h a ha b hb => h a ha b hb, fun h a ha b hb => h ha hb⟩

theorem IsExact.primal_ok_of_nodup {t : Tableau ℚ m n} (ht : t.IsExact) {options : Options ℚ}
    (hlimit : options.iterationLimit = none) {phase : Phase}
    (h : ((t.primal phase options).visits.map Visit.basisSet).Nodup) :
    ∃ stop, (t.primal phase options).outcome = .ok stop := by
  obtain ⟨p, k, hp, hpath, -, hvisits, hends⟩ := primal_spec t phase options
  rw [hvisits, nodup_visitsOf_iff] at h
  have hlt := lt_stateCount h
  cases houtcome : (t.primal phase options).outcome with
  | ok stop => exact ⟨stop, rfl⟩
  | error e =>
    rw [houtcome, hlimit] at hends
    have hk := (ht.path hpath (by rw [hp]) k le_rfl).1
    have hzero := (hk.outOfPivots_of_ends hends).1
    rw [allowance, Option.getD_none] at hzero
    omega

/-- Where no set of basic columns repeats on a path of pivots, none repeats in the snapshots, and
without a limit the primal method stops at the end of its path. -/
theorem IsBasicFeasible.primal_of_injOn {t : Tableau ℚ m n} (ht : t.IsBasicFeasible)
    {options : Options ℚ}
    (h : ∀ (p : ℕ → Position ℚ m n) (k : ℕ), IsPath (primalMove options) p k →
      (p 0).tableau = t → Set.InjOn (fun l => (p l).tableau.basicColumns) (Set.Iic k))
    (phase : Phase) :
    ∃ (p : ℕ → Position ℚ m n) (k : ℕ), p 0 = ⟨none, t⟩ ∧ IsPath (primalMove options) p k ∧
      (t.primal phase options).snapshots =
        (List.range (k + 1)).map (fun l => (p l).tableau.snapshot phase l) ∧
      ((t.primal phase options).snapshots.map (·.basis.toFinset)).Nodup ∧
      (options.iterationLimit = none → ∃ stop, (t.primal phase options).outcome = .ok stop ∧
        stop.tableau = (p k).tableau ∧ (stop.status = .optimal ∨ stop.status = .unbounded)) := by
  obtain ⟨p, k, hp, hpath, -, hvisits, hends⟩ := primal_spec t phase options
  have hnodup : ((t.primal phase options).visits.map Visit.basisSet).Nodup := by
    rw [hvisits, nodup_visitsOf_iff]
    exact h p k hpath (by rw [hp])
  refine ⟨p, k, hp, hpath, ?_, ?_, fun hlimit => ?_⟩
  · rw [Run.snapshots_eq_map_visits, hvisits, snapshots_visitsOf]
  · rw [Run.snapshots_eq_map_visits, List.map_map]
    exact hnodup
  · obtain ⟨stop, hstop⟩ := ht.primal_ok_of_nodup hlimit hnodup
    rw [hstop] at hends
    exact ⟨stop, hstop, hends.of_ok.1, (ht.primal_ok hstop).2.status_eq⟩

theorem IsExact.ext {t t' : Tableau ℚ m n} (ht : t.IsExact) (ht' : t'.IsExact)
    (hP : t'.program = t.program) (hb : t'.basis = t.basis) (ha : t'.artificial = t.artificial) :
    t' = t := by
  have he := ht.evaluated
  have he' := ht'.evaluated
  rw [hP, hb, ht'.tolerance_eq, ← ht.tolerance_eq, he] at he'
  obtain ⟨program, basis, evaluation, tolerance, artificial⟩ := t
  obtain ⟨program', basis', evaluation', tolerance', artificial'⟩ := t'
  obtain rfl : program' = program := hP
  obtain rfl : basis' = basis := hb
  obtain rfl : artificial' = artificial := ha
  obtain rfl : evaluation = evaluation' := Option.some.inj he'
  obtain rfl : tolerance' = tolerance := ht'.tolerance_eq.trans ht.tolerance_eq.symm
  rfl

section Path

variable {t : Tableau ℚ m n} (ht : t.IsExact) {options : Options ℚ} {p : ℕ → Position ℚ m n}
  {k : ℕ} (hp : IsPath (primalMove options) p k) (h0 : (p 0).tableau = t)

include ht hp h0

theorem IsExact.position_eq {a b : ℕ} (ha : a ≤ k) (hb : b ≤ k)
    (hbasis : (p a).tableau.basis.get = (p b).tableau.basis.get)
    (hlast : (p a).last = (p b).last) : p a = p b := by
  obtain ⟨hexact, hP, hart⟩ := ht.path hp h0 a ha
  obtain ⟨hexact', hP', hart'⟩ := ht.path hp h0 b hb
  have htab := hexact'.ext hexact (hP.trans hP'.symm) (get_injective hbasis)
    (hart.trans hart'.symm)
  cases hpa : p a
  cases hpb : p b
  rw [hpa, hpb] at htab hlast
  exact congrArg₂ Position.mk hlast htab

/-- A path with more positions than pairs of a last column and a basis repeats one. -/
theorem IsExact.exists_repeat (hk : stateCount m n ≤ k) : ∃ a b, a < b ∧ b ≤ k ∧ p a = p b := by
  obtain ⟨a, b, hne, hab⟩ := Fintype.exists_ne_map_eq_of_card_lt
    (fun l : Fin (k + 1) => ((p l).tableau.basis.get, (p l).last)) (by
      simp only [Fintype.card_prod, Fintype.card_fun, Fintype.card_fin, Fintype.card_option]
      exact Nat.lt_succ_of_le hk)
  obtain ⟨hbasis, hlast⟩ := Prod.mk.inj hab
  have ha := Nat.lt_succ_iff.mp a.isLt
  have hb := Nat.lt_succ_iff.mp b.isLt
  have he := ht.position_eq hp h0 ha hb hbasis hlast
  rcases lt_or_gt_of_ne (Fin.val_ne_of_ne hne) with hlt | hlt
  · exact ⟨a, b, hlt, hb, he⟩
  · exact ⟨b, a, hlt, ha, he.symm⟩

end Path

/-- The primal method without a limit gives up exactly where its pivots never end. -/
theorem IsExact.primal_endless_iff {t : Tableau ℚ m n} (ht : t.IsExact) {options : Options ℚ}
    (hlimit : options.iterationLimit = none) (phase : Phase) :
    (t.primal phase options).outcome = .error .endless ↔
      ∃ p : ℕ → Position ℚ m n, p 0 = ⟨none, t⟩ ∧
        ∀ l, Step (primalMove options) (p l) (p (l + 1)) := by
  constructor
  · intro h
    obtain ⟨p, k, hp, hpath, -, -, hends⟩ := primal_spec t phase options
    have hp0 : (p 0).tableau = t := by rw [hp]
    rw [h, hlimit] at hends
    have hzero := ((ht.path hpath hp0 k le_rfl).1.outOfPivots_of_ends hends).1
    obtain ⟨a, b, hab, hb, he⟩ := ht.exists_repeat hpath hp0 (Nat.le_of_sub_eq_zero hzero)
    rw [← hp]
    exact hpath.exists_infinite hab hb he
  · rintro ⟨p, hp, hstep⟩
    have h := (iterate_of_infinite hstep phase options.iterationLimit
      (allowance options.iterationLimit m n) 0).2
    rw [hp, hlimit] at h
    rw [primal, hlimit]
    exact h

end Tableau
end RevisedSimplex
