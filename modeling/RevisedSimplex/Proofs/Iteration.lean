import Mathlib
import RevisedSimplex.Run.Lemmas
import RevisedSimplex.Run.Pivoting

/-! # The iteration as a path

What an iteration visits is a path of pivots from its first tableau, and its outcome is
read off the tableau at the end of the path. No law of arithmetic is used.
-/

namespace RevisedSimplex

structure Visit (F : Type) where
  {rows columns : ℕ}
  phase : Phase
  iteration : ℕ
  tableau : Tableau F rows columns

variable {F α β : Type} {m n : ℕ}

def Event.visit? : Event F → Option (Visit F)
  | .visit phase iteration tableau => some ⟨phase, iteration, tableau⟩
  | _ => none

namespace Run

def visits (r : Run F α) : List (Visit F) := r.events.filterMap Event.visit?

theorem snapshots_eq_map_visits [Scalar F] (r : Run F α) :
    r.snapshots = r.visits.map fun v => v.tableau.snapshot v.phase v.iteration := by
  rw [snapshots, visits, List.map_filterMap]
  congr 1
  ext e
  cases e <;> rfl

@[simp] theorem visits_pure (a : α) : (pure a : Run F α).visits = [] := rfl

@[simp] theorem visits_fail (e : Failure F) : (fail e : Run F α).visits = [] := rfl

@[simp] theorem visits_ofExcept (x : Except (Failure F) α) : (ofExcept x).visits = [] := rfl

theorem visits_bind_of_ok {r : Run F α} {a : α} (h : r.outcome = .ok a) (f : α → Run F β) :
    (r >>= f).visits = r.visits ++ (f a).visits := by
  rw [bind_of_ok h]
  exact List.filterMap_append

theorem visits_bind_of_error {r : Run F α} {e : Failure F} (h : r.outcome = .error e)
    (f : α → Run F β) : (r >>= f).visits = r.visits := by
  rw [bind_of_error h]
  rfl

theorem ofExcept_ok_bind (a : α) (f : α → Run F β) : (ofExcept (.ok a) >>= f) = f a := by
  rw [bind_of_ok rfl]
  rfl

end Run

/-- A tableau with the column that entered last. -/
structure Position (F : Type) (m n : ℕ) where
  last : Option (Fin n)
  tableau : Tableau F m n

namespace Tableau

variable [Scalar F] {phase : Phase} {limit : Option ℕ}
  {move : Option (Fin n) → Tableau F m n → Move F m n} {remaining iteration : ℕ}
  {last : Option (Fin n)} {t t' : Tableau F m n}

theorem iterate_of_optimal (h : move last t = .optimal) :
    t.iterate phase limit move remaining iteration last =
      ⟨[.visit phase iteration t], .ok ⟨.optimal, t, iteration⟩⟩ := by
  rw [iterate]
  simp only [h]
  rfl

theorem iterate_of_unbounded {j : Fin n} (h : move last t = .unbounded j) :
    t.iterate phase limit move remaining iteration last =
      ⟨[.visit phase iteration t, .unboundedDirection phase j],
        .ok ⟨.unbounded, t, iteration⟩⟩ := by
  rw [iterate]
  simp only [h]
  rfl

theorem iterate_of_infeasible {i : Fin m} (h : move last t = .infeasible i) :
    t.iterate phase limit move remaining iteration last =
      ⟨[.visit phase iteration t, .infeasibleRow phase i],
        .ok ⟨.infeasible, t, iteration⟩⟩ := by
  rw [iterate]
  simp only [h]
  rfl

theorem iterate_zero_of_pivot {i : Fin m} {j : Fin n} {cost : F}
    (h : move last t = .pivot i j cost) :
    t.iterate phase limit move 0 iteration last =
      ⟨[.visit phase iteration t], .error (outOfPivots limit)⟩ := by
  rw [iterate]
  simp only [h]
  rfl

theorem iterate_of_pivot_error {i : Fin m} {j : Fin n} {cost : F} {e : Failure F}
    (h : move last t = .pivot i j cost) (he : t.pivot i j = .error e) :
    t.iterate phase limit move (remaining + 1) iteration last =
      ⟨[.visit phase iteration t], .error e⟩ := by
  rw [iterate]
  simp only [h, he]
  rfl

theorem iterate_of_pivot_ok {i : Fin m} {j : Fin n} {cost : F}
    (h : move last t = .pivot i j cost) (ht' : t.pivot i j = .ok t') :
    t.iterate phase limit move (remaining + 1) iteration last =
      let next := t'.iterate phase limit move remaining (iteration + 1) (some j)
      ⟨.visit phase iteration t :: .pivot phase j i (t.basis.get i) cost :: next.events,
        next.outcome⟩ := by
  rw [iterate]
  simp only [h, ht']
  rfl

inductive Step (move : Option (Fin n) → Tableau F m n → Move F m n) :
    Position F m n → Position F m n → Prop where
  | pivot {last : Option (Fin n)} {t t' : Tableau F m n} {i : Fin m} {j : Fin n} {cost : F} :
      move last t = .pivot i j cost → t.pivot i j = .ok t' → Step move ⟨last, t⟩ ⟨some j, t'⟩

theorem Step.spec {s s' : Position F m n} (h : Step move s s') :
    ∃ i j cost, move s.last s.tableau = .pivot i j cost ∧ s'.last = some j ∧
      s.tableau.pivot i j = .ok s'.tableau := by
  cases h with
  | pivot hm ht' => exact ⟨_, _, _, hm, rfl, ht'⟩

/-- How an iteration ends at a position, with so many pivots left and so many made. -/
inductive Ends (limit : Option ℕ) (move : Option (Fin n) → Tableau F m n → Move F m n) :
    (remaining pivots : ℕ) → Position F m n → Except (Failure F) (Stop F m n) → Prop where
  | optimal {remaining pivots : ℕ} {last : Option (Fin n)} {t : Tableau F m n} :
      move last t = .optimal →
      Ends limit move remaining pivots ⟨last, t⟩ (.ok ⟨.optimal, t, pivots⟩)
  | unbounded {remaining pivots : ℕ} {last : Option (Fin n)} {t : Tableau F m n} {j : Fin n} :
      move last t = .unbounded j →
      Ends limit move remaining pivots ⟨last, t⟩ (.ok ⟨.unbounded, t, pivots⟩)
  | infeasible {remaining pivots : ℕ} {last : Option (Fin n)} {t : Tableau F m n} {i : Fin m} :
      move last t = .infeasible i →
      Ends limit move remaining pivots ⟨last, t⟩ (.ok ⟨.infeasible, t, pivots⟩)
  | singular {remaining pivots : ℕ} {last : Option (Fin n)} {t : Tableau F m n} {i : Fin m}
      {j : Fin n} {cost : F} {e : Failure F} :
      move last t = .pivot i j cost → t.pivot i j = .error e →
      Ends limit move remaining pivots ⟨last, t⟩ (.error e)
  | outOfPivots {pivots : ℕ} {last : Option (Fin n)} {t : Tableau F m n} {i : Fin m} {j : Fin n}
      {cost : F} :
      move last t = .pivot i j cost →
      Ends limit move 0 pivots ⟨last, t⟩ (.error (outOfPivots limit))

/-- The status with which an iteration stops at a position. -/
inductive StopsAt (move : Option (Fin n) → Tableau F m n → Move F m n) (s : Position F m n) :
    Status → Prop where
  | optimal : move s.last s.tableau = .optimal → StopsAt move s .optimal
  | unbounded {j : Fin n} : move s.last s.tableau = .unbounded j → StopsAt move s .unbounded
  | infeasible {i : Fin m} : move s.last s.tableau = .infeasible i → StopsAt move s .infeasible

theorem Ends.of_ok {pivots : ℕ} {s : Position F m n} {stop : Stop F m n}
    (h : Ends limit move remaining pivots s (.ok stop)) :
    stop.tableau = s.tableau ∧ StopsAt move s stop.status := by
  cases h with
  | optimal hm => exact ⟨rfl, .optimal hm⟩
  | unbounded hm => exact ⟨rfl, .unbounded hm⟩
  | infeasible hm => exact ⟨rfl, .infeasible hm⟩

/-- The first `k + 1` positions of an iteration. -/
def IsPath (move : Option (Fin n) → Tableau F m n → Move F m n) (p : ℕ → Position F m n)
    (k : ℕ) : Prop :=
  ∀ l < k, Step move (p l) (p (l + 1))

theorem isPath_zero (move : Option (Fin n) → Tableau F m n → Move F m n)
    (p : ℕ → Position F m n) : IsPath move p 0 :=
  fun l hl => absurd hl (Nat.not_lt_zero l)

def follow {α : Type} (s : α) (p : ℕ → α) : ℕ → α
  | 0 => s
  | l + 1 => p l

theorem follow_succ {α : Type} (s : α) (p : ℕ → α) : (fun l => follow s p (l + 1)) = p := rfl

def visitsOf (phase : Phase) (iteration k : ℕ) (p : ℕ → Position F m n) : List (Visit F) :=
  (List.range (k + 1)).map fun l => ⟨phase, iteration + l, (p l).tableau⟩

omit [Scalar F] in
theorem visitsOf_succ (phase : Phase) (iteration k : ℕ) (p : ℕ → Position F m n) :
    visitsOf phase iteration (k + 1) p =
      ⟨phase, iteration, (p 0).tableau⟩ ::
        visitsOf phase (iteration + 1) k fun l => p (l + 1) := by
  rw [visitsOf, List.range_succ_eq_map, List.map_cons, List.map_map, Nat.add_zero]
  congr 1
  apply List.map_congr_left
  intro l _
  rw [Function.comp_apply, Nat.add_assoc, Nat.add_comm 1 l]

omit [Scalar F] in
@[simp] theorem length_visitsOf (phase : Phase) (iteration k : ℕ) (p : ℕ → Position F m n) :
    (visitsOf phase iteration k p).length = k + 1 := by
  simp [visitsOf]

omit [Scalar F] in
theorem head?_visitsOf (phase : Phase) (iteration k : ℕ) (p : ℕ → Position F m n) :
    (visitsOf phase iteration k p).head? = some ⟨phase, iteration, (p 0).tableau⟩ := by
  rw [visitsOf, List.range_succ_eq_map, List.map_cons, List.head?_cons]
  rfl

omit [Scalar F] in
theorem getElem?_visitsOf {phase : Phase} {iteration k a : ℕ} {p : ℕ → Position F m n}
    {v : Visit F} :
    (visitsOf phase iteration k p)[a]? = some v ↔
      a ≤ k ∧ v = ⟨phase, iteration + a, (p a).tableau⟩ := by
  rw [List.getElem?_eq_some_iff]
  constructor
  · rintro ⟨ha, rfl⟩
    rw [visitsOf, List.length_map, List.length_range] at ha
    exact ⟨Nat.lt_succ_iff.mp ha, by simp [visitsOf]⟩
  · rintro ⟨ha, rfl⟩
    exact ⟨by simpa [visitsOf] using Nat.lt_succ_iff.mpr ha, by simp [visitsOf]⟩

omit [Scalar F] in
theorem mem_visitsOf {phase : Phase} {iteration k : ℕ} {p : ℕ → Position F m n} {v : Visit F} :
    v ∈ visitsOf phase iteration k p ↔ ∃ l ≤ k, v = ⟨phase, iteration + l, (p l).tableau⟩ := by
  simp only [visitsOf, List.mem_map, List.mem_range, Nat.lt_succ_iff, eq_comm]

theorem snapshots_visitsOf (phase : Phase) (k : ℕ) (p : ℕ → Position F m n) :
    ((visitsOf phase 0 k p).map fun v => v.tableau.snapshot v.phase v.iteration) =
      (List.range (k + 1)).map fun l => (p l).tableau.snapshot phase l := by
  simp [visitsOf, List.map_map, Function.comp_def]

theorem exists_path_of_ends {phase : Phase} {limit : Option ℕ}
    {move : Option (Fin n) → Tableau F m n → Move F m n} {remaining iteration : ℕ}
    {last : Option (Fin n)} {t : Tableau F m n} {r : Run F (Stop F m n)}
    (hvisits : r.visits = [⟨phase, iteration, t⟩])
    (hends : Ends limit move remaining iteration ⟨last, t⟩ r.outcome) :
    ∃ (p : ℕ → Position F m n) (k : ℕ), p 0 = ⟨last, t⟩ ∧ IsPath move p k ∧ k ≤ remaining ∧
      r.visits = visitsOf phase iteration k p ∧
      Ends limit move (remaining - k) (iteration + k) (p k) r.outcome :=
  ⟨fun _ => ⟨last, t⟩, 0, rfl, isPath_zero _ _, Nat.zero_le _, hvisits, hends⟩

/-- An iteration follows a path and ends at its last position. -/
theorem iterate_spec (phase : Phase) (limit : Option ℕ)
    (move : Option (Fin n) → Tableau F m n → Move F m n) (remaining iteration : ℕ)
    (last : Option (Fin n)) (t : Tableau F m n) :
    ∃ (p : ℕ → Position F m n) (k : ℕ), p 0 = ⟨last, t⟩ ∧ IsPath move p k ∧ k ≤ remaining ∧
      (t.iterate phase limit move remaining iteration last).visits =
        visitsOf phase iteration k p ∧
      Ends limit move (remaining - k) (iteration + k) (p k)
        (t.iterate phase limit move remaining iteration last).outcome := by
  induction remaining generalizing iteration last t with
  | zero =>
    cases h : move last t with
    | optimal => rw [iterate_of_optimal h]; exact exists_path_of_ends rfl (.optimal h)
    | unbounded j => rw [iterate_of_unbounded h]; exact exists_path_of_ends rfl (.unbounded h)
    | infeasible i => rw [iterate_of_infeasible h]; exact exists_path_of_ends rfl (.infeasible h)
    | pivot i j cost => rw [iterate_zero_of_pivot h]; exact exists_path_of_ends rfl (.outOfPivots h)
  | succ remaining ih =>
    cases h : move last t with
    | optimal => rw [iterate_of_optimal h]; exact exists_path_of_ends rfl (.optimal h)
    | unbounded j => rw [iterate_of_unbounded h]; exact exists_path_of_ends rfl (.unbounded h)
    | infeasible i => rw [iterate_of_infeasible h]; exact exists_path_of_ends rfl (.infeasible h)
    | pivot i j cost =>
      cases ht' : t.pivot i j with
      | error e =>
        rw [iterate_of_pivot_error h ht']
        exact exists_path_of_ends rfl (.singular h ht')
      | ok t' =>
        obtain ⟨p, k, hp, hpath, hk, hvisits, hends⟩ := ih (iteration + 1) (some j) t'
        refine ⟨follow ⟨last, t⟩ p, k + 1, rfl, ?_, Nat.succ_le_succ hk, ?_⟩
        · rintro (_ | l) hl
          · change Step move ⟨last, t⟩ (p 0)
            rw [hp]
            exact .pivot h ht'
          · exact hpath l (Nat.lt_of_succ_lt_succ hl)
        · rw [iterate_of_pivot_ok h ht', visitsOf_succ, follow_succ, ← hvisits,
            Nat.succ_sub_succ, show iteration + (k + 1) = iteration + 1 + k by omega]
          exact ⟨rfl, hends⟩

theorem iterate_of_infinite {p : ℕ → Position F m n} (h : ∀ l, Step move (p l) (p (l + 1)))
    (phase : Phase) (limit : Option ℕ) (remaining iteration : ℕ) :
    ((p 0).tableau.iterate phase limit move remaining iteration (p 0).last).visits =
        visitsOf phase iteration remaining p ∧
      ((p 0).tableau.iterate phase limit move remaining iteration (p 0).last).outcome =
        .error (outOfPivots limit) := by
  induction remaining generalizing iteration p with
  | zero =>
    obtain ⟨i, j, cost, hm, -, -⟩ := (h 0).spec
    rw [iterate_zero_of_pivot hm]
    exact ⟨rfl, rfl⟩
  | succ remaining ih =>
    obtain ⟨i, j, cost, hm, hlast, ht'⟩ := (h 0).spec
    obtain ⟨hvisits, houtcome⟩ := ih (p := fun l => p (l + 1)) (fun l => h (l + 1)) (iteration + 1)
    rw [iterate_of_pivot_ok hm ht', visitsOf_succ, ← hvisits, ← hlast]
    exact ⟨rfl, houtcome⟩

/-- Where every position of a kind has a step to one of the kind, the steps never end. -/
theorem exists_infinite {P : Position F m n → Prop}
    (h : ∀ s, P s → ∃ s', Step move s s' ∧ P s') {s : Position F m n} (hs : P s) :
    ∃ q : ℕ → Position F m n, q 0 = s ∧ ∀ l, Step move (q l) (q (l + 1)) := by
  choose next hstep hnext using h
  let q : ℕ → {s // P s} := Nat.rec ⟨s, hs⟩ fun _ s => ⟨next s.1 s.2, hnext s.1 s.2⟩
  exact ⟨fun l => (q l).1, rfl, fun l => hstep (q l).1 (q l).2⟩

/-- A path that comes back to a position can be continued forever. -/
theorem IsPath.exists_infinite {p : ℕ → Position F m n} {k a b : ℕ} (h : IsPath move p k)
    (hab : a < b) (hb : b ≤ k) (he : p a = p b) :
    ∃ q : ℕ → Position F m n, q 0 = p 0 ∧ ∀ l, Step move (q l) (q (l + 1)) := by
  refine Tableau.exists_infinite (P := fun s => ∃ l < b, s = p l) ?_ ⟨0, Nat.zero_lt_of_lt hab, rfl⟩
  rintro s ⟨l, hl, rfl⟩
  refine ⟨p (l + 1), h l (hl.trans_le hb), ?_⟩
  rcases Nat.lt_or_eq_of_le (Nat.succ_le_of_lt hl) with hlt | hlast
  · exact ⟨l + 1, hlt, rfl⟩
  · exact ⟨a, hab, (congrArg p hlast).trans he.symm⟩

/-- What every step keeps holds all along a path. -/
theorem IsPath.invariant {move : Option (Fin n) → Tableau F m n → Move F m n}
    {p : ℕ → Position F m n} {k : ℕ} (h : IsPath move p k) {P : Position F m n → Prop}
    (hstep : ∀ s s', P s → Step move s s' → P s') (h0 : P (p 0)) : ∀ l ≤ k, P (p l) := by
  intro l hl
  induction l with
  | zero => exact h0
  | succ l ih => exact hstep _ _ (ih (Nat.le_of_succ_le hl)) (h l hl)

theorem IsPath.mono {move : Option (Fin n) → Tableau F m n → Move F m n}
    {p : ℕ → Position F m n} {k : ℕ} (h : IsPath move p k) {α : Type} [Preorder α]
    {P : Position F m n → Prop} {f : Position F m n → α}
    (hstep : ∀ s s', P s → Step move s s' → f s ≤ f s') (hP : ∀ l ≤ k, P (p l)) {a b : ℕ}
    (hab : a ≤ b) (hb : b ≤ k) : f (p a) ≤ f (p b) := by
  induction b, hab using Nat.le_induction with
  | base => exact le_rfl
  | succ b _ ih =>
    exact (ih (Nat.le_of_succ_le hb)).trans (hstep _ _ (hP b (Nat.le_of_succ_le hb)) (h b hb))

end Tableau
end RevisedSimplex
