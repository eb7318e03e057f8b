import RevisedSimplex.Run.Basic

/-! # Runs in sequence

The events and the outcome of a run that continues another one. Runs form a lawful
monad, so the way a run is cut into pieces does not matter.
-/

namespace RevisedSimplex.Run

variable {F α β : Type}

@[simp] theorem events_pure (a : α) : (pure a : Run F α).events = [] := rfl

@[simp] theorem outcome_pure (a : α) : (pure a : Run F α).outcome = .ok a := rfl

@[simp] theorem events_emit (e : Event F) : (emit e).events = [e] := rfl

@[simp] theorem events_fail (e : Failure F) : (fail e : Run F α).events = [] := rfl

@[simp] theorem outcome_fail (e : Failure F) : (fail e : Run F α).outcome = .error e := rfl

@[simp] theorem events_ofExcept (x : Except (Failure F) α) : (ofExcept x).events = [] := rfl

@[simp] theorem outcome_ofExcept (x : Except (Failure F) α) : (ofExcept x).outcome = x := rfl

theorem bind_of_ok {r : Run F α} {a : α} (h : r.outcome = .ok a) (f : α → Run F β) :
    r >>= f = ⟨r.events ++ (f a).events, (f a).outcome⟩ := by
  change Run.bind r f = _
  simp [Run.bind, h]

theorem bind_of_error {r : Run F α} {e : Failure F} (h : r.outcome = .error e)
    (f : α → Run F β) : r >>= f = ⟨r.events, .error e⟩ := by
  change Run.bind r f = _
  simp [Run.bind, h]

theorem outcome_bind (r : Run F α) (f : α → Run F β) :
    (r >>= f).outcome = r.outcome.bind fun a => (f a).outcome := by
  cases h : r.outcome with
  | ok a => rw [bind_of_ok h]; rfl
  | error e => rw [bind_of_error h]; rfl

theorem outcome_bind_eq_ok {r : Run F α} {f : α → Run F β} {b : β} :
    (r >>= f).outcome = .ok b ↔ ∃ a, r.outcome = .ok a ∧ (f a).outcome = .ok b := by
  rw [outcome_bind]
  cases r.outcome <;> simp [Except.bind]

theorem outcome_bind_eq_error {r : Run F α} {f : α → Run F β} {e : Failure F} :
    (r >>= f).outcome = .error e ↔
      r.outcome = .error e ∨ ∃ a, r.outcome = .ok a ∧ (f a).outcome = .error e := by
  rw [outcome_bind]
  cases r.outcome <;> simp [Except.bind]

private theorem bind_pure' (r : Run F α) : r.bind Run.pure = r := by
  obtain ⟨events, outcome⟩ := r
  cases outcome <;> simp [Run.bind, Run.pure]

private theorem pure_bind' (a : α) (f : α → Run F β) : (Run.pure a).bind f = f a := by
  simp [Run.bind, Run.pure]

private theorem bind_assoc' {γ : Type} (r : Run F α) (f : α → Run F β) (g : β → Run F γ) :
    (r.bind f).bind g = r.bind fun a => (f a).bind g := by
  obtain ⟨events, outcome⟩ := r
  cases outcome with
  | ok a =>
    simp only [Run.bind]
    cases (f a).outcome <;> simp
  | error e => rfl

instance : LawfulMonad (Run F) := LawfulMonad.mk' (Run F) bind_pure' pure_bind' bind_assoc'

@[simp] theorem bind_emit_events (e : Event F) (f : Unit → Run F β) :
    (emit e >>= f).events = e :: (f ()).events := rfl

end RevisedSimplex.Run
