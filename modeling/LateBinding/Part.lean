/-!
# Actions on a part of a state

A `Part σ τ` says how a `τ` lies inside a `σ`.  `Part.run` performs an action on the part: the part
is taken out of the state, and what the action makes of it is put back, also when the action fails.
-/

namespace LateBinding

/-- A place for a `τ` inside a `σ`. -/
structure Part (σ : Type u) (τ : Type v) where
  get : σ → τ
  put : τ → σ → σ

/-- An action on the part, as an action on the whole. -/
def Part.run (part : Part σ τ) (act : EStateM ε τ α) : EStateM ε σ α := fun s =>
  match act (part.get s) with
  | .ok a t => .ok a (part.put t s)
  | .error e t => .error e (part.put t s)

/-- The second component of a pair. -/
def Part.second : Part (σ × τ) τ := ⟨Prod.snd, fun t s => (s.1, t)⟩

/-- A value as one component of a pair whose other component is trivial. -/
def Part.alone : Part σ (σ × Unit) := ⟨fun s => (s, ()), fun t _ => t.1⟩

/-- A result that does not depend on a state, as an action. -/
def liftExcept : Except ε α → EStateM ε σ α
  | .ok a => pure a
  | .error e => throw e

end LateBinding
