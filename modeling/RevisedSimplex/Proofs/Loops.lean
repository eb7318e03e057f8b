import Mathlib

/-! # Loops

What a loop over a list computes or keeps: sums, the best element under a key, and any
property that each step passes on.
-/

namespace RevisedSimplex

variable {n : ℕ}

theorem foldl_add_eq_add_sum {α : Type} (f : α → ℚ) (l : List α) (c : ℚ) :
    l.foldl (fun total a => total + f a) c = c + (l.map f).sum := by
  induction l generalizing c with
  | nil => simp
  | cons a l ih => rw [List.foldl_cons, ih, List.map_cons, List.sum_cons, add_assoc]

theorem foldl_finRange_eq_sum (f : Fin n → ℚ) :
    (List.finRange n).foldl (fun total i => total + f i) 0 = ∑ i, f i := by
  rw [foldl_add_eq_add_sum, zero_add, Fin.sum_univ_def]

theorem foldl_extremal {α κ : Type} [Preorder κ] (key : α → κ) {f : α → α → α}
    (hf : ∀ b a, (f b a = b ∨ f b a = a) ∧ key (f b a) ≤ key b ∧ key (f b a) ≤ key a)
    (l : List α) (b : α) :
    l.foldl f b ∈ b :: l ∧ ∀ x ∈ b :: l, key (l.foldl f b) ≤ key x := by
  induction l generalizing b with
  | nil => simp
  | cons a l ih =>
    obtain ⟨hm, hle⟩ := ih (f b a)
    obtain ⟨hor, hb, ha⟩ := hf b a
    rw [List.foldl_cons]
    have hfirst := hle _ (List.mem_cons_self ..)
    constructor
    · rcases List.mem_cons.mp hm with h | h
      · rw [h]
        rcases hor with h | h <;> rw [h] <;> simp
      · exact List.mem_cons_of_mem _ (List.mem_cons_of_mem _ h)
    · rintro x hx
      rcases List.mem_cons.mp hx with rfl | hx
      · exact hfirst.trans hb
      · rcases List.mem_cons.mp hx with rfl | hx
        · exact hfirst.trans ha
        · exact hle _ (List.mem_cons_of_mem _ hx)

/-- A loop that starts with nothing and takes only better elements ends with the first of the best
ones. -/
theorem foldl_firstLeast {α κ : Type} [LinearOrder κ] (key : α → κ) {f : Option α → α → Option α}
    (hnone : ∀ a, f none a = some a)
    (hsome : ∀ b a, f (some b) a = if key a < key b then some a else some b) (l : List α) :
    l.foldl f none = none ∧ l = [] ∨
      ∃ before a after, l = before ++ a :: after ∧ l.foldl f none = some a ∧
        (∀ x ∈ before, key a < key x) ∧ ∀ x ∈ after, key a ≤ key x := by
  induction l using List.reverseRecOn with
  | nil => exact Or.inl ⟨rfl, rfl⟩
  | append_singleton l c ih =>
    right
    rw [List.foldl_append, List.foldl_cons, List.foldl_nil]
    rcases ih with ⟨hn, rfl⟩ | ⟨before, a, after, rfl, ha, hbefore, hafter⟩
    · exact ⟨[], c, [], rfl, by rw [hn, hnone], by simp, by simp⟩
    · rw [ha, hsome]
      split
      · rename_i hlt
        refine ⟨before ++ a :: after, c, [], rfl, rfl, fun x hx => ?_, by simp⟩
        rcases List.mem_append.mp hx with hx | hx
        · exact hlt.trans (hbefore x hx)
        · rcases List.mem_cons.mp hx with rfl | hx
          · exact hlt
          · exact hlt.trans_le (hafter x hx)
      · rename_i hle
        refine ⟨before, a, after ++ [c], by simp, rfl, hbefore, fun x hx => ?_⟩
        rcases List.mem_append.mp hx with hx | hx
        · exact hafter x hx
        · exact List.mem_singleton.mp hx ▸ not_lt.mp hle

theorem foldl_least {α κ : Type} [LinearOrder κ] (key : α → κ) {f : Option α → α → Option α}
    (hnone : ∀ a, f none a = some a)
    (hsome : ∀ b a, f (some b) a = if key a < key b then some a else some b) (l : List α) :
    l.foldl f none = none ∧ l = [] ∨
      ∃ a, l.foldl f none = some a ∧ a ∈ l ∧ ∀ x ∈ l, key a ≤ key x := by
  refine (foldl_firstLeast key hnone hsome l).imp_right ?_
  rintro ⟨before, a, after, rfl, ha, hbefore, hafter⟩
  refine ⟨a, ha, by simp, fun x hx => ?_⟩
  rcases List.mem_append.mp hx with hx | hx
  · exact (hbefore x hx).le
  · rcases List.mem_cons.mp hx with rfl | hx
    · exact le_rfl
    · exact hafter x hx

theorem head?_eq_some_iff_of_pairwise {α κ : Type} [Preorder κ] (place : α → κ) {l : List α}
    (h : l.Pairwise fun a b => place a < place b) {a : α} :
    l.head? = some a ↔ a ∈ l ∧ ∀ b ∈ l, b ≠ a → place a < place b := by
  cases l with
  | nil => simp
  | cons c l =>
    obtain ⟨hc, -⟩ := List.pairwise_cons.mp h
    rw [List.head?_cons, Option.some_inj]
    constructor
    · rintro rfl
      exact ⟨List.mem_cons_self .., fun b hb hne => hc b ((List.mem_cons.mp hb).resolve_left hne)⟩
    · rintro ⟨ha, hle⟩
      by_contra hne
      have hlt := hc a ((List.mem_cons.mp ha).resolve_left (Ne.symm hne))
      exact lt_asymm hlt (hle c (List.mem_cons_self ..) hne)

theorem mem_of_foldl_choice {α : Type} {f : Option α → α → Option α}
    (hf : ∀ b a, f b a = b ∨ f b a = some a) {l : List α} {x : α} (h : l.foldl f none = some x) :
    x ∈ l := by
  suffices ∀ b, l.foldl f b = some x → b = some x ∨ x ∈ l from (this none h).resolve_left nofun
  clear h
  induction l with
  | nil => exact fun b h => Or.inl h
  | cons a l ih =>
    intro b h
    rcases ih _ h with hx | hx
    · rcases hf b a with hb | ha
      · exact Or.inl (hb ▸ hx)
      · rw [ha] at hx
        exact Or.inr (Option.some.inj hx ▸ List.mem_cons_self ..)
    · exact Or.inr (List.mem_cons_of_mem _ hx)

/-- Induction on what is left of a loop over `Fin n`. -/
theorem finRange_induction {motive : ℕ → List (Fin n) → Prop} (nil : motive n [])
    (cons : ∀ (k : Fin n) l, motive (k + 1) l → motive k (k :: l)) :
    motive 0 (List.finRange n) := by
  suffices ∀ d k, k + d = n → motive k ((List.finRange n).drop k) from this n 0 (Nat.zero_add n)
  intro d
  induction d with
  | zero =>
    intro k hk
    obtain rfl : k = n := hk
    rw [List.drop_of_length_le (by simp)]
    exact nil
  | succ d ih =>
    intro k hk
    have hlt : k < (List.finRange n).length := by simp; omega
    rw [List.drop_eq_getElem_cons hlt, List.getElem_finRange]
    exact cons ⟨k, by omega⟩ _ (ih (k + 1) (by omega))

theorem foldlM_finRange_some {σ : Type} {f : σ → Fin n → Option σ} {P : ℕ → σ → Prop}
    (hstep : ∀ (k : Fin n) s s', P k s → f s k = some s' → P (k + 1) s') {s t : σ} (hs : P 0 s)
    (h : (List.finRange n).foldlM f s = some t) : P n t := by
  refine finRange_induction (motive := fun k l => ∀ s, P k s → l.foldlM f s = some t → P n t)
    ?_ ?_ s hs h
  · intro s hs h
    cases h
    exact hs
  · intro k l ih s hs h
    rw [List.foldlM_cons] at h
    obtain ⟨s', hf, h⟩ := Option.bind_eq_some_iff.mp h
    exact ih s' (hstep k s s' hs hf) h

theorem foldlM_finRange_exists {σ : Type} {f : σ → Fin n → Option σ} {P : ℕ → σ → Prop}
    (hstep : ∀ (k : Fin n) s, P k s → ∃ s', f s k = some s' ∧ P (k + 1) s') {s : σ} (hs : P 0 s) :
    ∃ t, (List.finRange n).foldlM f s = some t := by
  refine finRange_induction (motive := fun k l => ∀ s, P k s → ∃ t, l.foldlM f s = some t)
    ?_ ?_ s hs
  · exact fun s _ => ⟨s, rfl⟩
  · intro k l ih s hs
    obtain ⟨s', hf, hs'⟩ := hstep k s hs
    obtain ⟨t, ht⟩ := ih s' hs'
    rw [List.foldlM_cons]
    exact ⟨t, Option.bind_eq_some_iff.mpr ⟨s', hf, ht⟩⟩

theorem foldlM_finRange_rel {α β : Type} {f : α → Fin n → Option α} {g : β → Fin n → Option β}
    {R : ℕ → α → β → Prop}
    (hstep : ∀ (k : Fin n) a b, R k a b → Option.Rel (R (k + 1)) (f a k) (g b k)) {a : α} {b : β}
    (h : R 0 a b) :
    Option.Rel (R n) ((List.finRange n).foldlM f a) ((List.finRange n).foldlM g b) := by
  refine finRange_induction
    (motive := fun k l => ∀ a b, R k a b → Option.Rel (R n) (l.foldlM f a) (l.foldlM g b))
    ?_ ?_ a b h
  · exact fun a b h => .some h
  · intro k l ih a b h
    rw [List.foldlM_cons, List.foldlM_cons]
    have hk := hstep k a b h
    cases hf : f a k <;> cases hg : g b k <;> rw [hf, hg] at hk <;> cases hk
    · exact .none
    · rename_i h
      exact ih _ _ h

end RevisedSimplex
