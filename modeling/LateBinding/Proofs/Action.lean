import LateBinding.Part

/-!
# What an action answers and leaves

`answer` is what an action returns or fails with, and `after` the state that it leaves behind in
either case.  Every way of combining actions is described by these two.  `Keeps` says that an action
leaves some view of the state as it was, and `Pays` that it adds one to a count for every answer that
has to be paid for.
-/

namespace LateBinding

/-- What an action returns or fails with. -/
def answer (act : EStateM ε σ α) (s : σ) : Except ε α :=
  match act s with
  | .ok a _ => .ok a
  | .error e _ => .error e

/-- The state that an action leaves behind. -/
def after (act : EStateM ε σ α) (s : σ) : σ :=
  match act s with
  | .ok _ s => s
  | .error _ s => s

variable {ε σ τ α β : Type u}

theorem answer_congr {act act' : EStateM ε σ α} {s s' : σ} (h : act s = act' s') :
    answer act s = answer act' s' := by
  rw [answer, answer, h]

theorem after_congr {act act' : EStateM ε σ α} {s s' : σ} (h : act s = act' s') :
    after act s = after act' s' := by
  rw [after, after, h]

theorem eq_ok_of_answer {act : EStateM ε σ α} {s : σ} {a : α} (h : answer act s = .ok a) :
    act s = .ok a (after act s) := by
  simp only [answer] at h
  simp only [after]
  cases hs : act s with
  | ok a' s' =>
    rw [hs] at h
    cases h
    rfl
  | error e s' =>
    rw [hs] at h
    cases h

/-! ## Sequences of actions -/

theorem answer_bind (act : EStateM ε σ α) (next : α → EStateM ε σ β) (s : σ) :
    answer (act >>= next) s =
      match answer act s with
      | .ok a => answer (next a) (after act s)
      | .error e => .error e := by
  simp only [answer, after, bind, EStateM.bind]
  cases act s <;> rfl

theorem after_bind (act : EStateM ε σ α) (next : α → EStateM ε σ β) (s : σ) :
    after (act >>= next) s =
      match answer act s with
      | .ok a => after (next a) (after act s)
      | .error _ => after act s := by
  simp only [answer, after, bind, EStateM.bind]
  cases act s <;> rfl

theorem bind_of_ok {act : EStateM ε σ α} {next : α → EStateM ε σ β} {s : σ} {a : α}
    (h : answer act s = .ok a) : (act >>= next) s = next a (after act s) := by
  simp only [answer] at h
  simp only [bind, EStateM.bind, after]
  cases hs : act s with
  | ok a' s' =>
    rw [hs] at h
    cases h
    rfl
  | error e s' =>
    rw [hs] at h
    cases h

theorem answer_bind_of_ok {act : EStateM ε σ α} {next : α → EStateM ε σ β} {s : σ} {a : α}
    (h : answer act s = .ok a) : answer (act >>= next) s = answer (next a) (after act s) := by
  rw [answer_bind, h]

theorem after_bind_of_ok {act : EStateM ε σ α} {next : α → EStateM ε σ β} {s : σ} {a : α}
    (h : answer act s = .ok a) : after (act >>= next) s = after (next a) (after act s) := by
  rw [after_bind, h]

theorem answer_bind_of_error {act : EStateM ε σ α} {next : α → EStateM ε σ β} {s : σ} {e : ε}
    (h : answer act s = .error e) : answer (act >>= next) s = .error e := by
  rw [answer_bind, h]

theorem after_bind_of_error {act : EStateM ε σ α} {next : α → EStateM ε σ β} {s : σ} {e : ε}
    (h : answer act s = .error e) : after (act >>= next) s = after act s := by
  rw [after_bind, h]

/-- A transitive relation between states holds across a sequence of actions if it holds across each
of them. -/
theorem rel_after_bind {r : σ → σ → Prop} (htrans : ∀ {s s' s''}, r s s' → r s' s'' → r s s'')
    {act : EStateM ε σ α} {next : α → EStateM ε σ β} {s : σ} (h : r s (after act s))
    (hnext : ∀ a, answer act s = .ok a → r (after act s) (after (next a) (after act s))) :
    r s (after (act >>= next) s) := by
  rw [after_bind]
  cases ha : answer act s with
  | ok a => exact htrans h (hnext a ha)
  | error e => exact h

theorem map_eq_ok_iff {γ : Type v} {δ : Type w} {r : Except ε γ} {f : γ → δ} {b : δ} :
    r.map f = .ok b ↔ ∃ a, r = .ok a ∧ f a = b := by
  cases r <;> simp [Except.map]

theorem map_eq_error_iff {γ : Type v} {δ : Type w} {r : Except ε γ} {f : γ → δ} {e : ε} :
    r.map f = .error e ↔ r = .error e := by
  cases r <;> simp [Except.map]

theorem answer_bind_pure (act : EStateM ε σ α) (f : α → β) (s : σ) :
    answer (act >>= fun a => pure (f a)) s = (answer act s).map f := by
  rw [answer_bind]
  cases answer act s <;> rfl

theorem after_bind_pure (act : EStateM ε σ α) (f : α → β) (s : σ) :
    after (act >>= fun a => pure (f a)) s = after act s := by
  rw [after_bind]
  cases answer act s <;> rfl

@[simp] theorem answer_liftExcept (r : Except ε α) (s : σ) : answer (liftExcept r) s = r := by
  cases r <;> rfl

@[simp] theorem after_liftExcept (r : Except ε α) (s : σ) :
    after (liftExcept r : EStateM ε σ α) s = s := by
  cases r <;> rfl

@[simp] theorem answer_get (s : σ) : answer (get : EStateM ε σ σ) s = .ok s := rfl

@[simp] theorem after_get (s : σ) : after (get : EStateM ε σ σ) s = s := rfl

@[simp] theorem answer_adaptExcept {δ : Type u} (f : δ → ε) (act : EStateM δ σ α) (s : σ) :
    answer (act.adaptExcept f) s = (answer act s).mapError f := by
  simp only [answer, EStateM.adaptExcept]
  cases act s <;> rfl

@[simp] theorem after_adaptExcept {δ : Type u} (f : δ → ε) (act : EStateM δ σ α) (s : σ) :
    after (act.adaptExcept f) s = after act s := by
  simp only [after, EStateM.adaptExcept]
  cases act s <;> rfl

/-! ## What an action leaves alone -/

/-- The action may change the state, but not what `view` sees of it. -/
def Keeps {ω : Type v} (view : σ → ω) (act : EStateM ε σ α) : Prop :=
  ∀ s, view (after act s) = view s

section Keeps

variable {ω : Type v} {view : σ → ω} {act : EStateM ε σ α}

theorem Keeps.bind {next : α → EStateM ε σ β} (h : Keeps view act)
    (hnext : ∀ a, Keeps view (next a)) : Keeps view (act >>= next) := by
  intro s
  rw [after_bind]
  cases answer act s with
  | ok a => exact (hnext a _).trans (h s)
  | error e => exact h s

theorem keeps_pure (a : α) : Keeps view (pure a : EStateM ε σ α) := fun _ => rfl

theorem keeps_liftExcept (r : Except ε α) : Keeps view (liftExcept r : EStateM ε σ α) := by
  intro s
  rw [after_liftExcept]

end Keeps

/-! ## What an action pays for -/

/-- One for an answer that passes a test, nothing for any other answer or for a failure. -/
def price (p : α → Bool) : Except ε α → Nat
  | .ok a => if p a then 1 else 0
  | .error _ => 0

/-- The action adds the price of what it answers to a count, and nothing else. -/
def Pays (count : σ → Nat) (p : α → Bool) (act : EStateM ε σ α) : Prop :=
  ∀ s, count (after act s) = count s + price p (answer act s)

section Pays

variable {count : σ → Nat} {p : α → Bool} {act : EStateM ε σ α}

theorem pays_pure {a : α} (h : p a = false) : Pays count p (pure a : EStateM ε σ α) := by
  intro s
  show count s = count s + if p a then 1 else 0
  rw [h]
  rfl

theorem Keeps.pays_bind {q : β → Bool} {next : α → EStateM ε σ β} (h : Keeps count act)
    (hnext : ∀ a, Pays count q (next a)) : Pays count q (act >>= next) := by
  intro s
  rw [after_bind, answer_bind]
  cases answer act s with
  | ok a =>
    show count (after (next a) (after act s)) = count s + price q (answer (next a) (after act s))
    rw [hnext a, h]
  | error e => exact h s

theorem Pays.map {q : β → Bool} (h : Pays count p act) {f : α → β} (hf : ∀ a, q (f a) = p a) :
    Pays count q (act >>= fun a => pure (f a)) := by
  intro s
  rw [after_bind_pure, answer_bind_pure, h s]
  cases answer act s with
  | ok a =>
    show _ = count s + if q (f a) then 1 else 0
    rw [hf]
    rfl
  | error e => rfl

end Pays

/-! ## Actions on a part -/

@[simp] theorem answer_run (part : Part σ τ) (act : EStateM ε τ α) (s : σ) :
    answer (part.run act) s = answer act (part.get s) := by
  simp only [answer, Part.run]
  cases act (part.get s) <;> rfl

@[simp] theorem after_run (part : Part σ τ) (act : EStateM ε τ α) (s : σ) :
    after (part.run act) s = part.put (after act (part.get s)) s := by
  simp only [after, Part.run]
  cases act (part.get s) <;> rfl

end LateBinding
