import LateBinding.ResolutionError

/-!
# Inference of type arguments

A generic parameter is inferred from the types of the arguments.  If a formal is the parameter
itself, the first such formal decides, whether or not it has an argument.  Otherwise the formals
are laid over their arguments in order (`Ty.align?`), and the first place where the parameter meets
a part of an argument gives its type.
-/

namespace LateBinding

namespace Ty

mutual

/-- What `p` stands for when a formal type is laid over an actual one: the part of the actual type
at the first aligned occurrence of `p`.  Applications align when they have the same definition and
as many arguments. -/
def align? (p : Placeholder) : Ty → Ty → Option Ty
  | param q _, actual => if q = p then some actual else none
  | app n formals, app m actuals =>
    if n = m ∧ formals.length = actuals.length then alignAll? p formals actuals else none
  | _, _ => none

/-- The first success of `align?` on corresponding types. -/
def alignAll? (p : Placeholder) : List Ty → List Ty → Option Ty
  | formal :: formals, actual :: actuals =>
    (align? p formal actual).or (alignAll? p formals actuals)
  | _, _ => none

end

/-- Whether a type is exactly the placeholder `p`. -/
def isParam (p : Placeholder) : Ty → Bool
  | param q _ => q = p
  | _ => false

end Ty

namespace Method

/-- The position of the first formal whose type is exactly `p`. -/
def exactFormal? (m : Method) (p : Placeholder) : Option Nat :=
  m.formals.findIdx? fun f => f.ty.isParam p

/-- The type inferred for `p`. -/
def inferOne (m : Method) (p : Placeholder) (argTypes : List Ty) : Option Ty :=
  match m.exactFormal? p with
  | some j => argTypes[j]?
  | none => Ty.alignAll? p (m.formals.map (·.ty)) argTypes

/-- One slot for every generic parameter, in order; `none` where nothing could be inferred. -/
def inferSlots (m : Method) (argTypes : List Ty) : List (Option Ty) :=
  m.generics.map fun p => m.inferOne p.id argTypes

/-- All slots filled, or the failure for the first parameter whose slot is empty. -/
def infer (m : Method) (argTypes : List Ty) : Except ResolutionError (List Ty) :=
  m.generics.mapM fun p =>
    match m.inferOne p.id argTypes with
    | some ty => .ok ty
    | none => .error (.unsolved m.name p.id.name)

end Method

end LateBinding
