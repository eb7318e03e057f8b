import RevisedSimplex.Proofs.Bland
import RevisedSimplex.Proofs.Reordering

/-! # The lexicographic rule

While the rows of the tableau are lexicographically positive, every pivot decreases the cost
row, which the set of basic columns determines. So no set of basic columns comes back from
where the rows were positive. The rule does not make them positive: a phase that starts with
other rows can go round in a cycle.
-/

namespace RevisedSimplex

open Matrix

variable {m n : ℕ}

open scoped Classical in
/-- The sets of columns with a nonsingular matrix. -/
noncomputable def Program.bases (P : Program ℚ m n) : Finset (Finset (Fin n)) :=
  Finset.univ.filter fun S => ∃ basis : Basis m n,
    Finset.univ.image basis.get = S ∧ IsUnit (P.basisMatrix basis)

namespace Tableau

theorem IsValid.basicColumns_mem_bases {t : Tableau ℚ m n} (ht : t.IsValid) :
    t.basicColumns ∈ t.program.bases := by
  classical
  rw [Program.bases, Finset.mem_filter]
  exact ⟨Finset.mem_univ _, t.basis, rfl,
    IsUnit.of_mul_eq_one _ ht.basisMatrix_mul_inverse⟩

section Path

variable {t : Tableau ℚ m n} (ht : t.IsExact) {options : Options ℚ}
  (ho : options.leaving = .lexicographic) {p : ℕ → Position ℚ m n} {k : ℕ}
  (hp : IsPath (primalMove options) p k) (h0 : (p 0).tableau = t)

include ht ho hp h0

theorem IsExact.isLexPositive_mono {a b : ℕ} (hab : a ≤ b) (hb : b ≤ k)
    (hpos : (p a).tableau.IsLexPositive) : (p b).tableau.IsLexPositive := by
  induction b, hab using Nat.le_induction with
  | base => exact hpos
  | succ b _ ih =>
    have hexact := (ht.path hp h0 b (Nat.le_of_succ_le hb)).1
    obtain ⟨i, j, hpivot⟩ := hexact.isLexPivot_of_step ho rfl (hp b hb)
    exact hpivot.isLexPositive hexact.toIsValid (ih (Nat.le_of_succ_le hb))

theorem IsExact.costRow_lt {a b : ℕ} (hab : a < b) (hb : b ≤ k)
    (hpos : (p a).tableau.IsLexPositive) :
    toLex (p b).tableau.costRow < toLex (p a).tableau.costRow := by
  have hstep : ∀ l, a ≤ l → l < k →
      toLex (p (l + 1)).tableau.costRow < toLex (p l).tableau.costRow := by
    intro l hal hl
    have hexact := (ht.path hp h0 l hl.le).1
    obtain ⟨i, j, hpivot⟩ := hexact.isLexPivot_of_step ho rfl (hp l hl)
    exact (hpivot.costRow_lt_iff hexact.toIsValid).mpr
      (ht.isLexPositive_mono ho hp h0 hal hl.le hpos i)
  induction b, hab using Nat.le_induction with
  | base => exact hstep a le_rfl hb
  | succ b hab ih =>
    exact (hstep b (Nat.le_of_succ_le hab) hb).trans (ih (Nat.le_of_succ_le hb))

/-- No tableau up to a repeated set of basic columns has positive rows. -/
theorem IsExact.not_isLexPositive_of_repeat {a b c : ℕ} (hab : a < b) (hb : b ≤ k)
    (hrepeat : (p a).tableau.basicColumns = (p b).tableau.basicColumns) (hc : c ≤ b) :
    ¬ (p c).tableau.IsLexPositive := by
  intro hpos
  obtain ⟨hexact, hP, -⟩ := ht.path hp h0 a (hab.le.trans hb)
  obtain ⟨hexact', hP', -⟩ := ht.path hp h0 b hb
  have hlast := ht.isLexPositive_mono ho hp h0 hc hb hpos
  have hfirst := hexact.isLexPositive_of_basicColumns hexact'.toIsValid (hP'.trans hP.symm)
    hrepeat.symm hlast
  have hlt := ht.costRow_lt ho hp h0 hab hb hfirst
  rw [hexact.costRow_eq_of_basicColumns hexact'.toIsValid (hP'.trans hP.symm) hrepeat.symm] at hlt
  exact lt_irrefl _ hlt

theorem IsExact.basicColumns_injOn_of_isLexPositive (hpos : t.IsLexPositive) :
    Set.InjOn (fun l => (p l).tableau.basicColumns) (Set.Iic k) := by
  refine injOn_Iic_of_lt_imp_ne fun a b hab hb hrepeat => ?_
  refine ht.not_isLexPositive_of_repeat ho hp h0 hab hb hrepeat (Nat.zero_le b) ?_
  rwa [h0]

/-- Without memory a repeated set of basic columns makes a cycle. -/
theorem IsExact.exists_infinite_of_repeat (hrule : options.entering ≠ .firstProfitableWithMemory)
    {a b : ℕ} (hab : a < b) (hb : b ≤ k)
    (hrepeat : (p a).tableau.basicColumns = (p b).tableau.basicColumns) :
    ∃ q : ℕ → Position ℚ m n, q 0 = p 0 ∧ ∀ l, Step (primalMove options) (q l) (q (l + 1)) := by
  have hpath := ht.path hp h0
  -- the order of the basic columns may differ from that of the position in the path
  refine exists_infinite (P := fun s => s.tableau.IsExact ∧ s.tableau.program = t.program ∧
    s.tableau.artificial = t.artificial ∧
    ∃ l < b, s.tableau.basicColumns = (p l).tableau.basicColumns) ?_ ?_
  · rintro s ⟨hexact, hP, hart, l, hl, hcolumns⟩
    obtain ⟨hexactₗ, hPₗ, hartₗ⟩ := hpath l (hl.le.trans hb)
    obtain ⟨s', hstep, hnext⟩ := hexactₗ.step_of_basicColumns hexact (hP.trans hPₗ.symm) hcolumns
      (hart.trans hartₗ.symm) (by simp [ho]) hrule (hp l (hl.trans_le hb))
    obtain ⟨i, j, -, -, -, hpivot⟩ := hexact.isPrimalPivot_of_step rfl hstep
    refine ⟨s', hstep, hexact.of_isExchange hpivot.toIsExchange, hpivot.program_eq.trans hP,
      hpivot.artificial_eq.trans hart, ?_⟩
    rcases Nat.lt_or_eq_of_le (Nat.succ_le_of_lt hl) with hlt | hlast
    · exact ⟨l + 1, hlt, hnext⟩
    · refine ⟨a, hab, hnext.trans ?_⟩
      rw [hrepeat, ← hlast]
  · obtain ⟨hexact, hP, hart⟩ := hpath 0 (Nat.zero_le k)
    exact ⟨hexact, hP, hart, 0, Nat.zero_lt_of_lt hab, rfl⟩

omit ho in
theorem IsExact.lt_card_bases
    (hinj : Set.InjOn (fun l => (p l).tableau.basicColumns) (Set.Iic k)) :
    k < t.program.bases.card := by
  have hmaps : ∀ l ∈ Finset.range (k + 1), (p l).tableau.basicColumns ∈ t.program.bases := by
    intro l hl
    obtain ⟨hexact, hP, -⟩ := ht.path hp h0 l (Nat.lt_succ_iff.mp (Finset.mem_range.mp hl))
    exact hP ▸ hexact.basicColumns_mem_bases
  have hcard := Finset.card_le_card_of_injOn _ hmaps (hinj.mono ?_)
  · rwa [Finset.card_range] at hcard
  · exact fun l hl => Nat.lt_succ_iff.mp (Finset.mem_range.mp hl)

end Path

theorem IsExact.nodup_of_isLexPositive {t : Tableau ℚ m n} (ht : t.IsExact)
    {options : Options ℚ} (ho : options.leaving = .lexicographic) (hpos : t.IsLexPositive)
    (phase : Phase) : ((t.primal phase options).visits.map Visit.basisSet).Nodup ∧
      (t.primal phase options).visits.length ≤ t.program.bases.card := by
  obtain ⟨p, k, hp, hpath, -, hvisits, -⟩ := t.primal_spec phase options
  have hp0 : (p 0).tableau = t := by rw [hp]
  have hinj := ht.basicColumns_injOn_of_isLexPositive ho hpath hp0 hpos
  rw [hvisits, length_visitsOf]
  exact ⟨(nodup_visitsOf_iff phase 0).mpr hinj, ht.lt_card_bases hpath hp0 hinj⟩

theorem head?_visits_primal {F : Type} [Scalar F] (t : Tableau F m n) (phase : Phase)
    (options : Options F) : (t.primal phase options).visits.head? = some ⟨phase, 0, t⟩ := by
  obtain ⟨p, k, hp, -, -, hvisits, -⟩ := t.primal_spec phase options
  rw [hvisits, head?_visitsOf, hp]

end Tableau

/-- The set of basic columns at each snapshot of a phase. -/
def Run.basisSets {F α : Type} [Scalar F] (r : Run F α) (phase : Phase) : List (Finset ℕ) :=
  (r.snapshots.filter (·.phase = phase)).map (·.basis.toFinset)

theorem Run.basisSets_eq_map {F α : Type} [Scalar F] (r : Run F α) (phase : Phase) :
    r.basisSets phase = (r.phaseVisits phase).map Visit.basisSet := by
  rw [basisSets, snapshots_eq_map_visits, List.filter_map, List.map_map]
  rfl

namespace IsPhase

variable {options : Options ℚ} {phase : Phase} {visits : List (Visit ℚ)} {ends : Prop}
  (h : IsPhase options phase visits ends)

include h

theorem ends_of_nodup (hlimit : options.iterationLimit = none)
    (hnodup : (visits.map Visit.basisSet).Nodup) : ends := by
  cases h with
  | skipped => trivial
  | run ht =>
    obtain ⟨stop, hstop⟩ := ht.primal_ok_of_nodup hlimit hnodup
    exact Run.terminates_of_ok hstop

variable (ho : options.leaving = .lexicographic)

include ho

theorem not_isLexPositive_of_repeat {a b c : ℕ} {u v w : Visit ℚ} (hu : visits[a]? = some u)
    (hv : visits[b]? = some v) (hw : visits[c]? = some w) (hab : a < b) (hcb : c ≤ b)
    (hrepeat : u.basisSet = v.basisSet) : ¬ w.tableau.IsLexPositive := by
  cases h with
  | skipped => cases hu
  | @run m n t ht =>
    obtain ⟨p, k, hp, hpath, -, hvisits, -⟩ := t.primal_spec phase options
    rw [hvisits, Tableau.getElem?_visitsOf] at hu hv hw
    obtain ⟨-, rfl⟩ := hu
    obtain ⟨hb, rfl⟩ := hv
    obtain ⟨-, rfl⟩ := hw
    rw [Visit.basisSet, Visit.basisSet, Tableau.snapshot_basis_toFinset,
      Tableau.snapshot_basis_toFinset] at hrepeat
    exact ht.not_isLexPositive_of_repeat ho hpath (by rw [hp]) hab hb
      (Finset.map_injective _ hrepeat) hcb

theorem nodup_of_isLexPositive (hfirst : ∀ v ∈ visits.head?, v.tableau.IsLexPositive) :
    (visits.map Visit.basisSet).Nodup ∧
      ∀ v ∈ visits.head?, visits.length ≤ v.tableau.program.bases.card := by
  cases h with
  | skipped => exact ⟨List.nodup_nil, nofun⟩
  | @run m n t ht =>
    rw [t.head?_visits_primal] at hfirst ⊢
    obtain ⟨hnodup, hlength⟩ := ht.nodup_of_isLexPositive ho (hfirst _ rfl) phase
    refine ⟨hnodup, ?_⟩
    rintro v ⟨⟩
    exact hlength

theorem nodup_of_ends (hlimit : options.iterationLimit = none)
    (hrule : options.entering ≠ .firstProfitableWithMemory) (hends : ends) :
    (visits.map Visit.basisSet).Nodup := by
  cases h with
  | skipped => exact List.nodup_nil
  | @run m n t ht =>
    obtain ⟨p, k, hp, hpath, -, hvisits, -⟩ := t.primal_spec phase options
    rw [hvisits, Tableau.nodup_visitsOf_iff]
    refine injOn_Iic_of_lt_imp_ne fun a b hab hb he => ?_
    obtain ⟨q, hq, hstep⟩ := ht.exists_infinite_of_repeat ho hpath (by rw [hp]) hrule hab hb he
    exact hends ((ht.primal_endless_iff hlimit phase).mpr ⟨q, hq.trans hp, hstep⟩)

end IsPhase

/-- With the lexicographic rule a set of basic columns comes back in a phase only if the rows of
no tableau before were lexicographically positive. So a phase that starts with positive rows
visits no more tableaux than there are bases, and a solve whose phases start so ends. With an
entering rule that has no memory a solve ends if and only if no set comes back. -/
theorem lexicographic_spec (p : Problem ℚ) {options : Options ℚ} (h0 : options.tolerance = 0)
    (ho : options.leaving = .lexicographic) (basis : Option (List ℕ)) :
    (∀ phase (a b c : ℕ) (S : Finset ℕ) (v : Visit ℚ),
      ((p.solve options basis).basisSets phase)[a]? = some S →
      ((p.solve options basis).basisSets phase)[b]? = some S → a < b →
      ((p.solve options basis).phaseVisits phase)[c]? = some v → c ≤ b →
        ¬ v.tableau.IsLexPositive) ∧
    (∀ phase, ∀ first ∈ ((p.solve options basis).phaseVisits phase).head?,
      first.tableau.IsLexPositive →
        ((p.solve options basis).basisSets phase).Nodup ∧
        ((p.solve options basis).basisSets phase).length ≤ first.tableau.program.bases.card) ∧
    (options.iterationLimit = none →
      ((∀ phase, ∀ first ∈ ((p.solve options basis).phaseVisits phase).head?,
        first.tableau.IsLexPositive) → (p.solve options basis).Terminates) ∧
      (options.entering ≠ .firstProfitableWithMemory →
        ((p.solve options basis).Terminates ↔
          ∀ phase, ((p.solve options basis).basisSets phase).Nodup))) := by
  obtain ⟨ends, hphases, hends⟩ := p.solve_phases h0 basis
  simp only [Run.basisSets_eq_map, List.length_map]
  refine ⟨fun phase a b c S v ha hb hab hv hcb => ?_, fun phase first hfirst hpos => ?_,
    fun hlimit => ⟨fun hpos => ?_, fun hrule => hends.trans (forall_congr' fun phase => ?_)⟩⟩
  · rw [List.getElem?_map, Option.map_eq_some_iff] at ha hb
    obtain ⟨u, hu, rfl⟩ := ha
    obtain ⟨w, hw, hrepeat⟩ := hb
    exact (hphases phase).not_isLexPositive_of_repeat ho hu hw hv hab hcb hrepeat.symm
  · have hall : ∀ v ∈ ((p.solve options basis).phaseVisits phase).head?,
        v.tableau.IsLexPositive := by
      intro v hv
      rw [Option.mem_def, Option.mem_def.mp hfirst] at hv
      cases hv
      exact hpos
    obtain ⟨hnodup, hlength⟩ := (hphases phase).nodup_of_isLexPositive ho hall
    exact ⟨hnodup, hlength first hfirst⟩
  · refine hends.mpr fun phase => (hphases phase).ends_of_nodup hlimit ?_
    exact ((hphases phase).nodup_of_isLexPositive ho (hpos phase)).1
  · exact ⟨(hphases phase).nodup_of_ends ho hlimit hrule, (hphases phase).ends_of_nodup hlimit⟩

theorem lexicographic_spec_beale :
    ((beale.solve ⟨0, 0, .dantzig, .lexicographic, none⟩ (some [0, 1, 2])).basisSets .two).Nodup ∧
      (beale.solve ⟨0, 0, .dantzig, .lexicographic, none⟩ (some [0, 1, 2])).Terminates := by
  have h0 : (⟨0, 0, .dantzig, .lexicographic, none⟩ : Options ℚ).tolerance = 0 := rfl
  obtain ⟨-, hnodup, hends⟩ := lexicographic_spec beale h0 rfl (some [0, 1, 2])
  have h : (Tableau.ofBasis bealeProgram #v[0, 1, 2] 0 0).toOption.map
      (·.isPrimalFeasible) = some true := by decide +kernel
  obtain ⟨t, ht, hf⟩ := exists_ok_of_toOption_map h
  obtain ⟨hv, -, hb, htol, -⟩ := Tableau.isValid_of_ofBasis le_rfl ht
  have hnonneg := (Tableau.IsExact.mk hv htol).isPrimalFeasible_iff.mp hf
  have hpos : t.IsLexPositive := hv.isLexPositive_of_first hnonneg (by
    rw [Tableau.basicColumns, hb]
    decide)
  have hstart : Tableau.ofIndices beale.standardForm [0, 1, 2] 0 0 = .ok t := ht
  have hhead := Problem.head?_phaseVisits_solve h0 hstart hf
  refine ⟨(hnodup .two ⟨.two, 0, t⟩ (hhead .two) hpos).1, (hends rfl).1 fun phase v hv => ?_⟩
  rw [hhead phase] at hv
  split at hv
  · cases hv
    exact hpos
  · cases hv

def nextBasis? (options : Options ℚ) (t : Tableau ℚ m n) : Option (Basis m n) :=
  match t.primalMove options none with
  | .pivot i j _ => some (t.basis.set i j i.isLt)
  | _ => none

namespace Problem

/-- The bases are feasible, and a pivot leads from each to the next one, from the last to the
first. -/
def IsCycle (p : Problem ℚ) (options : Options ℚ) {c : ℕ} [NeZero c]
    (bases : Fin c → Basis p.rows p.columns) : Prop :=
  ∀ l, (Tableau.ofBasis p.standardForm (bases l) 0 0).toOption.map
    (fun t => (t.isPrimalFeasible, nextBasis? options t)) = some (true, some (bases (l + 1)))

namespace IsCycle

variable {p : Problem ℚ} {options : Options ℚ} {c : ℕ} [NeZero c]
  {bases : Fin c → Basis p.rows p.columns} (h : p.IsCycle options bases)
  (hrule : options.entering ≠ .firstProfitableWithMemory)

include h

theorem exists_start : ∃ t,
    Tableau.ofBasis p.standardForm (bases 0) 0 0 = .ok t ∧ t.isPrimalFeasible = true := by
  obtain ⟨t, ht, he⟩ := exists_ok_of_toOption_map (h 0)
  exact ⟨t, ht, (Prod.mk.inj he).1⟩

include hrule

theorem exists_step {l : Fin c} {s : Position ℚ p.rows p.columns}
    (hs : Tableau.ofBasis p.standardForm (bases l) 0 0 = .ok s.tableau) :
    ∃ s', Tableau.Step (Tableau.primalMove options) s s' ∧
      Tableau.ofBasis p.standardForm (bases (l + 1)) 0 0 = .ok s'.tableau := by
  obtain ⟨last, t⟩ := s
  obtain ⟨t₁, ht₁, he⟩ := exists_ok_of_toOption_map (h l)
  obtain rfl : t = t₁ := Except.ok.inj (hs.symm.trans ht₁)
  obtain ⟨t', ht', -⟩ := exists_ok_of_toOption_map (h (l + 1))
  obtain ⟨-, hP, -, htol, hart⟩ := Tableau.isValid_of_ofBasis le_rfl hs
  have hnext := (Prod.mk.inj he).2
  unfold nextBasis? at hnext
  split at hnext
  · rename_i i j cost hm
    have hm' : t.primalMove options last = .pivot i j cost := by
      rwa [Tableau.primalMove, t.enteringColumn_of_memoryless hrule last none]
    refine ⟨⟨some j, t'⟩, .pivot hm' ?_, ht'⟩
    rw [Tableau.pivot, hP, htol, hart, Option.some.inj hnext, ht']
  · cases hnext

/-- A solve that starts in a cycle repeats bases and does not end. -/
theorem not_terminates (h0 : options.tolerance = 0) (hlimit : options.iterationLimit = none) :
    ¬ ((p.solve options (some (bases 0).indices)).basisSets .two).Nodup ∧
      ¬ (p.solve options (some (bases 0).indices)).Terminates := by
  obtain ⟨t, ht, hf⟩ := h.exists_start
  obtain ⟨q, hq, hstep⟩ := Tableau.exists_infinite
    (P := fun s => ∃ l, Tableau.ofBasis p.standardForm (bases l) 0 0 = .ok s.tableau)
    (fun s ⟨l, hl⟩ => by
      obtain ⟨s', hs', hnext⟩ := h.exists_step hrule hl
      exact ⟨s', hs', l + 1, hnext⟩) (s := ⟨none, t⟩) ⟨0, ht⟩
  obtain ⟨hv, -, hb, -⟩ := Tableau.isValid_of_ofBasis le_rfl ht
  have hstart : Tableau.ofIndices p.standardForm (bases 0).indices options.tolerance 0 = .ok t := by
    have hnodup := Basis.nodup_indices_iff.mpr (hb ▸ hv.basis_injective)
    rwa [Tableau.ofIndices, Basis.ofIndices_eq_ok_iff.mpr ⟨rfl, hnodup⟩, h0]
  obtain ⟨hvisits, hends⟩ := solve_of_infinite h0 hstart hf hlimit hq hstep
  refine ⟨fun hnodup => ?_, hends⟩
  -- so many pivots without a repetition would need more sets than there are
  rw [Run.basisSets_eq_map, hvisits, Tableau.nodup_visitsOf_iff] at hnodup
  exact lt_irrefl _ (Tableau.lt_stateCount hnodup)

end IsCycle
end Problem

/-- A degenerate program with a cycle under the first profitable column and the lexicographic
rule. -/
def cyclicProgram : Program ℚ 2 7 :=
  ⟨#v[1, 2, 0, 1, 0, -2, -1],
    ⟨#v[#v[1, -2, -2, -1, -1, -1, -1], #v[0, 1, 0, -2, -1, -2, 1]]⟩,
    #v[0, 0]⟩

def cyclic : Problem ℚ where
  objective := .minimize
  program := cyclicProgram
  rows_pos := Nat.zero_lt_two
  columns_pos := by decide
  isFinite := Program.isFinite_eq_true _

def cyclicOptions : Options ℚ := ⟨0, 0, .firstProfitable, .lexicographic, none⟩

def cyclicBasis : Fin 6 → Basis 2 7 :=
  ![#v[4, 5], #v[1, 5], #v[1, 2], #v[6, 2], #v[6, 3], #v[4, 3]]

theorem isCycle_cyclicBasis : cyclic.IsCycle cyclicOptions cyclicBasis := by
  unfold Problem.IsCycle
  decide +kernel

/-- A degenerate program with a cycle under the largest relative cost and the lexicographic
rule. -/
def steepProgram : Program ℚ 2 7 :=
  ⟨#v[10, 0, 54, 34, -3, 14, -3],
    ⟨#v[#v[-10, 12, 36, 34, -1, 28, 3], #v[0, 8, 36, -51, -2, -28, 6]]⟩,
    #v[0, 0]⟩

def steep : Problem ℚ where
  objective := .minimize
  program := steepProgram
  rows_pos := Nat.zero_lt_two
  columns_pos := by decide
  isFinite := Program.isFinite_eq_true _

def steepOptions : Options ℚ := ⟨0, 0, .dantzig, .lexicographic, none⟩

def steepBasis : Fin 6 → Basis 2 7 :=
  ![#v[1, 2], #v[1, 6], #v[3, 6], #v[3, 5], #v[4, 5], #v[4, 2]]

theorem isCycle_steepBasis : steep.IsCycle steepOptions steepBasis := by
  unfold Problem.IsCycle
  decide +kernel

/-- The lexicographic rule does not prevent cycles, neither with the first profitable column nor
with the largest relative cost: from these bases the pivots never end. -/
theorem lexicographic_cycles :
    (¬ ((cyclic.solve cyclicOptions (some [4, 5])).basisSets .two).Nodup ∧
      ¬ (cyclic.solve cyclicOptions (some [4, 5])).Terminates) ∧
    ¬ ((steep.solve steepOptions (some [1, 2])).basisSets .two).Nodup ∧
      ¬ (steep.solve steepOptions (some [1, 2])).Terminates :=
  ⟨isCycle_cyclicBasis.not_terminates nofun rfl rfl,
    isCycle_steepBasis.not_terminates nofun rfl rfl⟩

end RevisedSimplex
