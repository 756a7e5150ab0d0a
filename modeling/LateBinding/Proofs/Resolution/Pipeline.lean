import LateBinding.Journal
import LateBinding.Proofs.Action

/-!
# What the pipeline answers

The pipeline writes to its journal but never reads what it writes: its answers are functions of the
type tables (`TypeSystem.argumentOutcome`, `TypeSystem.typeArgumentOutcome`), and the tables are as
before when it is done.
-/

namespace LateBinding

namespace TypeSystem

/-- The result of closing `m` over `args` in the pipeline. -/
def closing (ts : TypeSystem) (m : Method) (args : List Ty) : Except ResolutionError Method :=
  match ts.violation? m args with
  | some e => .error (.refused m.name e)
  | none => .ok (m.close args)

/-- The outcome of a call of `g` with arguments of the given types. -/
def argumentOutcome (ts : TypeSystem) (g : MethodGroup) (policy : MissPolicy)
    (argTypes : List Ty) : Except ResolutionError Outcome := do
  let s ← g.pick .arguments argTypes.length policy
  if s.method.isGeneric then
    let typeArgs ← s.method.infer argTypes
    return .closed (← ts.closing s.method typeArgs)
  else
    return .wholeGroup

/-- The outcome of an instantiation of `g` with the given type arguments. -/
def typeArgumentOutcome (ts : TypeSystem) (g : MethodGroup) (policy : MissPolicy)
    (typeArgs : List Ty) : Except ResolutionError Outcome := do
  let s ← g.pick .typeArguments typeArgs.length policy
  if s.method.isGeneric then
    return .closed (← ts.closing s.method typeArgs)
  else
    return .wholeGroup

section Tables

variable {ts ts' : TypeSystem}

theorem violation?_congr (h : ts.types = ts'.types) (m : Method) (args : List Ty) :
    ts.violation? m args = ts'.violation? m args := by
  obtain ⟨types, namespaces, issued, substitutions⟩ := ts
  obtain ⟨types', namespaces', issued', substitutions'⟩ := ts'
  cases h
  rfl

theorem closing_congr (h : ts.types = ts'.types) (m : Method) (args : List Ty) :
    ts.closing m args = ts'.closing m args := by
  rw [closing, violation?_congr h, closing]

theorem argumentOutcome_congr (h : ts.types = ts'.types) (g : MethodGroup) (policy : MissPolicy)
    (argTypes : List Ty) :
    ts.argumentOutcome g policy argTypes = ts'.argumentOutcome g policy argTypes := by
  simp only [argumentOutcome, closing_congr h]

theorem typeArgumentOutcome_congr (h : ts.types = ts'.types) (g : MethodGroup)
    (policy : MissPolicy) (typeArgs : List Ty) :
    ts.typeArgumentOutcome g policy typeArgs = ts'.typeArgumentOutcome g policy typeArgs := by
  simp only [typeArgumentOutcome, closing_congr h]

end Tables

theorem answer_close (m : Method) (args : List Ty) (ts : TypeSystem) :
    answer (close m args) ts =
      match ts.violation? m args with
      | some e => .error e
      | none => .ok (m.close args) := by
  rw [close, answer_bind, answer_get, after_get]
  simp only
  cases ts.violation? m args <;> rfl

theorem after_close (m : Method) (args : List Ty) (ts : TypeSystem) :
    after (close m args) ts =
      match ts.violation? m args with
      | some _ => ts
      | none => { ts with substitutions := ts.substitutions + 1 } := by
  rw [close, after_bind, answer_get, after_get]
  simp only
  cases ts.violation? m args <;> rfl

theorem keeps_close (m : Method) (args : List Ty) : Keeps (·.types) (close m args) := by
  intro ts
  rw [after_close]
  cases ts.violation? m args <;> rfl

end TypeSystem

namespace Journal

variable (g : MethodGroup) (policy : MissPolicy) (j : Journal)

/-! ## The steps -/

theorem answer_pick (measure : Measure) (wanted : Nat) :
    answer (pick g measure wanted policy) j = g.pick measure wanted policy := by
  rw [pick, answer_bind, answer_liftExcept]
  cases g.pick measure wanted policy <;> rfl

theorem keeps_pick (measure : Measure) (wanted : Nat) :
    Keeps (·.types) (pick g measure wanted policy) := by
  unfold pick
  exact (keeps_liftExcept _).bind fun s => Keeps.bind (fun j => rfl) fun _ => keeps_pure s

theorem answer_close (m : Method) (args : List Ty) :
    answer (close m args) j = j.types.closing m args := by
  rw [close, answer_run, answer_adaptExcept, TypeSystem.answer_close, TypeSystem.closing]
  show Except.mapError _ (match j.types.violation? m args with
    | some e => .error e
    | none => .ok (m.close args)) = _
  cases j.types.violation? m args <;> rfl

theorem keeps_close (m : Method) (args : List Ty) : Keeps (·.types.types) (close m args) := by
  intro j
  rw [close, after_run, after_adaptExcept]
  exact TypeSystem.keeps_close m args j.types

/-! ## The pipeline -/

theorem answer_resolveArguments (argTypes : List Ty) :
    answer (resolveArguments g policy argTypes) j = j.types.argumentOutcome g policy argTypes := by
  have hpick : (after (pick g .arguments argTypes.length policy) j).types = j.types :=
    keeps_pick g policy _ _ j
  rw [resolveArguments, answer_bind, answer_pick, TypeSystem.argumentOutcome]
  cases g.pick .arguments argTypes.length policy with
  | error e => rfl
  | ok s =>
    show answer (if s.method.isGeneric then _ else _) _ = if s.method.isGeneric then _ else _
    split
    · rw [answer_bind, answer_liftExcept, after_liftExcept]
      cases s.method.infer argTypes with
      | error e => rfl
      | ok typeArgs =>
        show answer (close s.method typeArgs >>= _) _ = j.types.closing s.method typeArgs >>= _
        rw [answer_bind, answer_close, hpick]
        cases j.types.closing s.method typeArgs <;> rfl
    · rfl

theorem answer_resolveTypeArguments (typeArgs : List Ty) :
    answer (resolveTypeArguments g policy typeArgs) j =
      j.types.typeArgumentOutcome g policy typeArgs := by
  have hpick : (after (pick g .typeArguments typeArgs.length policy) j).types = j.types :=
    keeps_pick g policy _ _ j
  rw [resolveTypeArguments, answer_bind, answer_pick, TypeSystem.typeArgumentOutcome]
  cases g.pick .typeArguments typeArgs.length policy with
  | error e => rfl
  | ok s =>
    show answer (if s.method.isGeneric then _ else _) _ = if s.method.isGeneric then _ else _
    split
    · rw [answer_bind, answer_close, hpick]
      show _ = j.types.closing s.method typeArgs >>= _
      cases j.types.closing s.method typeArgs <;> rfl
    · rfl

theorem keeps_resolveArguments (argTypes : List Ty) :
    Keeps (·.types.types) (resolveArguments g policy argTypes) := by
  have hpick : Keeps (·.types.types) (pick g .arguments argTypes.length policy) :=
    fun j => congrArg _ (keeps_pick g policy _ _ j)
  refine hpick.bind fun s => ?_
  split
  · refine (keeps_liftExcept _).bind fun typeArgs => ?_
    exact (keeps_close s.method typeArgs).bind fun m => keeps_pure _
  · exact keeps_pure _

theorem keeps_resolveTypeArguments (typeArgs : List Ty) :
    Keeps (·.types.types) (resolveTypeArguments g policy typeArgs) := by
  have hpick : Keeps (·.types.types) (pick g .typeArguments typeArgs.length policy) :=
    fun j => congrArg _ (keeps_pick g policy _ _ j)
  refine hpick.bind fun s => ?_
  split
  · exact (keeps_close s.method typeArgs).bind fun m => keeps_pure _
  · exact keeps_pure _

end Journal

end LateBinding
