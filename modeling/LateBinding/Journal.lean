import LateBinding.Inference
import LateBinding.Selection
import LateBinding.Part

/-!
# The resolution pipeline

Resolution asks a type system to close methods and leaves notices behind; a `Journal` is the type
system with these notices.  `Journal.resolveArguments` runs the whole pipeline for a call: selection
of an overload, inference, closing.  `Journal.resolveTypeArguments` does the same for type arguments
that are given.  Both end in an `Outcome`.
-/

namespace LateBinding

/-- A type system and the notices given so far, oldest first. -/
structure Journal where
  types : TypeSystem := {}
  warnings : List Warning := []
deriving Repr, Inhabited

/-- What the pipeline ends in: the group as it is, because the selected overload is not generic, or
a method closed over type arguments. -/
inductive Outcome where
  | wholeGroup
  | closed (m : Method)
deriving Repr, Inhabited

namespace Journal

/-- The type system of a journal. -/
def typesPart : Part Journal TypeSystem := ⟨types, fun ts j => { j with types := ts }⟩

/-- Selects an overload and leaves a notice if it is unmatched. -/
def pick (g : MethodGroup) (measure : Measure) (wanted : Nat) (policy : MissPolicy) :
    EStateM ResolutionError Journal Selection := do
  let s ← liftExcept (g.pick measure wanted policy)
  modify fun j => { j with warnings := j.warnings ++ (g.notice? measure wanted s).toList }
  return s

/-- Closes a method over type arguments. -/
def close (m : Method) (args : List Ty) : EStateM ResolutionError Journal Method :=
  typesPart.run ((TypeSystem.close m args).adaptExcept (.refused m.name))

/-- Resolves a call of `g` with arguments of the given types. -/
def resolveArguments (g : MethodGroup) (policy : MissPolicy) (argTypes : List Ty) :
    EStateM ResolutionError Journal Outcome := do
  let s ← pick g .arguments argTypes.length policy
  if s.method.isGeneric then
    let typeArgs ← liftExcept (s.method.infer argTypes)
    return .closed (← close s.method typeArgs)
  else
    return .wholeGroup

/-- Resolves an instantiation of `g` with the given type arguments. -/
def resolveTypeArguments (g : MethodGroup) (policy : MissPolicy) (typeArgs : List Ty) :
    EStateM ResolutionError Journal Outcome := do
  let s ← pick g .typeArguments typeArgs.length policy
  if s.method.isGeneric then
    return .closed (← close s.method typeArgs)
  else
    return .wholeGroup

end Journal

end LateBinding
