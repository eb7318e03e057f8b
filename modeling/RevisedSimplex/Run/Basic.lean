import RevisedSimplex.Run.Event

/-! # Runs

A run is the list of its events with the result or the failure that ends it. A run
that continues another one starts with the events of that one.
-/

namespace RevisedSimplex

variable {F α : Type}

structure Run (F α : Type) where
  events : List (Event F)
  outcome : Except (Failure F) α

namespace Run

protected def pure (a : α) : Run F α := ⟨[], .ok a⟩

protected def bind {β : Type} (r : Run F α) (f : α → Run F β) : Run F β :=
  match r.outcome with
  | .ok a =>
    let next := f a
    ⟨r.events ++ next.events, next.outcome⟩
  | .error e => ⟨r.events, .error e⟩

instance : Monad (Run F) where
  pure := Run.pure
  bind := Run.bind

def emit (e : Event F) : Run F Unit := ⟨[e], .ok ()⟩

def fail (e : Failure F) : Run F α := ⟨[], .error e⟩

def ofExcept (r : Except (Failure F) α) : Run F α := ⟨[], r⟩

def snapshots [Scalar F] (r : Run F α) : List (Snapshot F) := r.events.filterMap (·.snapshot?)

end Run
end RevisedSimplex
