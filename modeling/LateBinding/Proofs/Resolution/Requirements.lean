import LateBinding.Proofs.Resolution.Representable
import LateBinding.Proofs.TypeSystem.Subtyping

/-!
# The requirements for closing a method

What it takes to close a method is a list of `Requirement`s in the order in which they are checked:
that the method is generic, that the counts agree, and for one parameter after the other that its
argument is proper and meets the constraints in the order of their declaration
(`TypeSystem.requirements`).  A method is closed if all of them hold, and otherwise refused for the
first that does not (`TypeSystem.close_enforces_requirements`).
-/

namespace LateBinding

/-- A condition for closing a method, with the refusal of what does not meet it. -/
structure Requirement where
  holds : Prop
  refusal : ClosingError

/-- How it ends to check requirements in order: with the refusal of the first one that is not met,
or without any. -/
inductive Checks : List Requirement → Option ClosingError → Prop
  | nil : Checks [] none
  | unmet {q : Requirement} {rest : List Requirement} (h : ¬ q.holds) :
      Checks (q :: rest) (some q.refusal)
  | met {q : Requirement} {rest : List Requirement} {r : Option ClosingError} (h : q.holds)
      (hrest : Checks rest r) : Checks (q :: rest) r

namespace Checks

variable {qs qs' : List Requirement} {r r' : Option ClosingError} {e : ClosingError}

theorem append (h : Checks qs r) (h' : Checks qs' r') : Checks (qs ++ qs') (r.or r') := by
  induction h with
  | nil => exact h'
  | unmet hq => exact .unmet hq
  | met hq _ ih => exact .met hq ih

theorem flatMap {xs : List α} {f : α → List Requirement} {g : α → Option ClosingError}
    (h : ∀ x, Checks (f x) (g x)) : Checks (xs.flatMap f) (xs.findSome? g) := by
  induction xs with
  | nil => exact .nil
  | cons x xs ih =>
    have hfirst : (x :: xs).findSome? g = (g x).or (xs.findSome? g) := by
      rw [List.findSome?_cons]
      cases g x <;> rfl
    rw [List.flatMap_cons, hfirst]
    exact (h x).append ih

/-- A check of one test after the other, each with the refusal for what fails it. -/
theorem map_find {xs : List α} {test : α → Bool} {f : α → Requirement}
    (h : ∀ x, test x = true ↔ (f x).holds) :
    Checks (xs.map f) ((xs.find? fun x => !test x).map fun x => (f x).refusal) := by
  induction xs with
  | nil => exact .nil
  | cons x xs ih =>
    rw [List.map_cons]
    by_cases htest : test x = true
    · rw [List.find?_cons_of_neg (by simp [htest])]
      exact .met ((h x).1 htest) ih
    · rw [List.find?_cons_of_pos (by simp [htest])]
      exact .unmet fun hx => htest ((h x).2 hx)

/-- Requirements are checked without a refusal exactly if all of them hold. -/
theorem none_iff : Checks qs none ↔ ∀ q ∈ qs, q.holds := by
  constructor
  · intro h
    generalize hr : none = r at h
    induction h with
    | nil => exact List.forall_mem_nil _
    | unmet => cases hr
    | met hq _ ih => exact List.forall_mem_cons.2 ⟨hq, ih hr⟩
  · intro h
    induction qs with
    | nil => exact .nil
    | cons q qs ih =>
      obtain ⟨hq, hqs⟩ := List.forall_mem_cons.1 h
      exact .met hq (ih hqs)

/-- They are checked with a refusal exactly if it is that of one which does not hold, while all
before it do. -/
theorem some_iff : Checks qs (some e) ↔ ∃ before q rest, qs = before ++ q :: rest ∧
    (∀ p ∈ before, p.holds) ∧ ¬ q.holds ∧ q.refusal = e := by
  constructor
  · intro h
    generalize hr : some e = r at h
    induction h with
    | nil => cases hr
    | @unmet q rest hq =>
      cases hr
      exact ⟨[], q, rest, rfl, List.forall_mem_nil _, hq, rfl⟩
    | @met q _ _ hq _ ih =>
      obtain ⟨before, q', rest, rfl, hbefore, hq', he⟩ := ih hr
      exact ⟨q :: before, q', rest, rfl, List.forall_mem_cons.2 ⟨hq, hbefore⟩, hq', he⟩
  · rintro ⟨before, q, rest, rfl, hbefore, hq, rfl⟩
    exact (none_iff.2 hbefore).append (.unmet hq)

theorem unique (h : Checks qs r) (h' : Checks qs r') : r = r' := by
  induction h with
  | nil =>
    cases h'
    rfl
  | unmet hq =>
    cases h' with
    | unmet => rfl
    | met hq' => exact absurd hq' hq
  | met hq _ ih =>
    cases h' with
    | unmet hq' => exact absurd hq hq'
    | met _ hrest' => exact ih hrest'

end Checks

/-- What can be an argument at all: no host type itself, and without placeholders at any depth. -/
def Ty.Proper (a : Ty) : Prop := a.isHost = false ∧ ∀ s, a.HasPart s → s.isPlaceholder = false

theorem Ty.proper_iff {a : Ty} : a.Proper ↔ a.isHost = false ∧ a.hasPlaceholder = false := by
  rw [Proper, hasPlaceholder_eq_false_iff_part]

theorem Method.isGeneric_iff {m : Method} :
    m.isGeneric = true ↔ m.generics ≠ [] ∧ m.typeArgs = [] := by
  simp [isGeneric]

namespace TypeSystem

variable {ts : TypeSystem}

/-- A constraint is met by the arguments from which a path of interfaces and base types leads up to
the definition that it names.  A constraint that names none is met by nothing. -/
def Meets (ts : TypeSystem) (a constraint : Ty) : Prop :=
  ∃ n path, constraint.name? = some n ∧ ts.PathUp a n path

theorem satisfies_iff_meets {a constraint : Ty} :
    ts.satisfies a constraint = true ↔ ts.Meets a constraint := by
  simp only [satisfies, Option.any_eq_true, implements_iff_exists_pathUp, Meets, exists_and_left]

/-! ## The list of requirements -/

/-- What one parameter requires of its argument. -/
def parameterRequirements (ts : TypeSystem) (m : Method) (p : GenericParam) (a : Ty) :
    List Requirement :=
  ⟨a.Proper, .inadmissible m.name p.id.name a⟩ ::
    p.constraints.map fun c => ⟨ts.Meets a c, .unmetConstraint m.name p.id.name a c⟩

/-- What it takes to close a method over type arguments, in the order of the checks. -/
def requirements (ts : TypeSystem) (m : Method) (args : List Ty) : List Requirement :=
  ⟨m.generics ≠ [] ∧ m.typeArgs = [], .notGeneric m.name⟩ ::
    ⟨m.generics.length = args.length, .wrongCount m.name m.generics.length args.length⟩ ::
      (m.generics.zip args).flatMap fun (p, a) => ts.parameterRequirements m p a

theorem checks_argumentViolation? (m : Method) (p : GenericParam) (a : Ty) :
    Checks (ts.parameterRequirements m p a) (ts.argumentViolation? m p a) := by
  unfold parameterRequirements argumentViolation?
  split
  · rename_i himproper
    refine .unmet fun hproper => ?_
    obtain ⟨hforeign, hclosed⟩ := Ty.proper_iff.1 hproper
    simp [hforeign, hclosed] at himproper
  · rename_i hproper
    simp only [Bool.or_eq_true, not_or, Bool.not_eq_true] at hproper
    exact .met (Ty.proper_iff.2 hproper) (.map_find fun c => satisfies_iff_meets)

theorem checks_violation? (ts : TypeSystem) (m : Method) (args : List Ty) :
    Checks (ts.requirements m args) (ts.violation? m args) := by
  unfold requirements violation?
  split
  · rename_i hgeneric
    exact .unmet fun h => by simp [Method.isGeneric_iff.2 h] at hgeneric
  · rename_i hgeneric
    refine .met (Method.isGeneric_iff.1 (by simpa using hgeneric)) ?_
    split
    · rename_i hlength
      exact .unmet hlength
    · rename_i hlength
      exact .met (not_not.1 hlength) (.flatMap fun (p, a) => checks_argumentViolation? m p a)

theorem checks_iff {m : Method} {args : List Ty} {r : Option ClosingError} :
    Checks (ts.requirements m args) r ↔ ts.violation? m args = r :=
  ⟨(checks_violation? ts m args).unique, fun h => h ▸ checks_violation? ts m args⟩

/-! ## Closing -/

theorem admits_iff {m : Method} {args : List Ty} :
    ts.Admits m args ↔ m.generics.length = args.length ∧ (∀ a ∈ args, a.Proper) ∧
      ∀ (i : Nat) (p : GenericParam) (a : Ty), m.generics[i]? = some p → args[i]? = some a →
        ∀ c ∈ p.constraints, ts.Meets a c := by
  constructor
  · intro h
    refine ⟨h.length.symm, fun a ha => Ty.proper_iff.2 ⟨h.foreign a ha, h.closed a ha⟩, ?_⟩
    intro i p a hp ha c hc
    have hpa : (p, a) ∈ m.generics.zip args :=
      List.mem_of_getElem? (List.getElem?_zip_eq_some.2 ⟨hp, ha⟩)
    exact satisfies_iff_meets.1 (h.satisfied (p, a) hpa c hc)
  · rintro ⟨hlength, hproper, hmeets⟩
    refine ⟨hlength.symm, fun a ha => (Ty.proper_iff.1 (hproper a ha)).1,
      fun a ha => (Ty.proper_iff.1 (hproper a ha)).2, ?_⟩
    rintro ⟨p, a⟩ hpa c hc
    obtain ⟨i, hi⟩ := List.getElem?_of_mem hpa
    obtain ⟨hp, ha⟩ := List.getElem?_zip_eq_some.1 hi
    exact satisfies_iff_meets.2 (hmeets i p a hp ha c hc)

/-- What a method is closed over, and what becomes of the type system, for all type systems, methods
and arguments.  Closing succeeds exactly if the method is generic and not yet closed, the counts
agree, every argument is proper and every constraint of every parameter is met by its argument; then
one more substitution is counted and nothing else has changed.  It fails exactly with the refusal of
the first requirement that does not hold, and leaves the type system as it was. -/
theorem close_enforces_requirements (ts : TypeSystem) (m : Method) (args : List Ty) :
    ((∃ c, answer (close m args) ts = .ok c) ↔
        (m.generics ≠ [] ∧ m.typeArgs = []) ∧ m.generics.length = args.length ∧
          (∀ a ∈ args, a.Proper) ∧
          ∀ (i : Nat) (p : GenericParam) (a : Ty), m.generics[i]? = some p → args[i]? = some a →
            ∀ c ∈ p.constraints, ts.Meets a c) ∧
      (∀ c, answer (close m args) ts = .ok c → c = m.close args ∧
        after (close m args) ts = { ts with substitutions := ts.substitutions + 1 }) ∧
      ∀ e, (answer (close m args) ts = .error e ↔
          ∃ before q rest, ts.requirements m args = before ++ q :: rest ∧
            (∀ p ∈ before, p.holds) ∧ ¬ q.holds ∧ q.refusal = e) ∧
        (answer (close m args) ts = .error e → after (close m args) ts = ts) := by
  refine ⟨?_, ?_, fun e => ⟨?_, ?_⟩⟩
  · simp only [answer_close_eq_ok_iff, exists_and_left, exists_eq', and_true,
      Method.isGeneric_iff, admits_iff]
  · intro c hc
    obtain ⟨hadmits, rfl⟩ := answer_close_eq_ok_iff.1 hc
    rw [after_close, violation?_eq_none_iff.2 hadmits]
    exact ⟨rfl, rfl⟩
  · rw [← Checks.some_iff, checks_iff, answer_close]
    cases ts.violation? m args <;> simp
  · intro he
    rw [answer_close] at he
    rw [after_close]
    cases hviolation : ts.violation? m args with
    | none =>
      rw [hviolation] at he
      cases he
    | some e' => rfl

end TypeSystem

end LateBinding
