import LateBinding.TypeSystem.Hierarchy

/-!
# Closing generic methods

`TypeSystem.close` closes a generic method over type arguments.  The arguments are checked
first (`TypeSystem.violation?`): the method has to be generic, the counts have to agree, and then,
parameter by parameter, the argument has to be a foreign type without placeholders and has to
implement every constraint.  The first violation is the error; only success is counted.
-/

namespace LateBinding

/-- Why a method could not be closed. -/
inductive ClosingError where
  | notGeneric (method : String)
  | wrongCount (method : String) (expected found : Nat)
  | unmetConstraint (method param : String) (argument constraint : Ty)
  | inadmissible (method param : String) (argument : Ty)
deriving Repr, Inhabited

/-- The text of a refusal. -/
def ClosingError.message : ClosingError → String
  | notGeneric method => "`" ++ method ++ "` is not a generic method definition"
  | wrongCount method expected found =>
    "`" ++ method ++ "` takes " ++ toString expected ++ " type argument(s), " ++ toString found
      ++ " supplied"
  | unmetConstraint method param argument constraint =>
    "type argument `" ++ argument.display ++ "` for `" ++ param ++ "` of `" ++ method
      ++ "` does not satisfy constraint `" ++ constraint.display ++ "`"
  | inadmissible method param argument =>
    "`" ++ argument.display ++ "` is not a valid type argument for `" ++ param ++ "` of `"
      ++ method ++ "`"

namespace TypeSystem

/-- Whether a constraint names a definition that the argument implements. -/
def satisfies (ts : TypeSystem) (argument constraint : Ty) : Bool :=
  constraint.name?.any (ts.implements argument)

/-- The first objection to `argument` as the argument for one parameter of `m`. -/
def argumentViolation? (ts : TypeSystem) (m : Method) (p : GenericParam) (argument : Ty) :
    Option ClosingError :=
  if argument.isHost || argument.hasPlaceholder then
    some (.inadmissible m.name p.id.name argument)
  else
    (p.constraints.find? fun c => !ts.satisfies argument c).map
      (.unmetConstraint m.name p.id.name argument)

/-- The first objection to closing `m` over `args`. -/
def violation? (ts : TypeSystem) (m : Method) (args : List Ty) : Option ClosingError :=
  if !m.isGeneric then
    some (.notGeneric m.name)
  else if m.generics.length ≠ args.length then
    some (.wrongCount m.name m.generics.length args.length)
  else
    (m.generics.zip args).findSome? fun (p, argument) => ts.argumentViolation? m p argument

/-- Closes `m` over `args`; a success counts as one substitution. -/
def close (m : Method) (args : List Ty) : EStateM ClosingError TypeSystem Method := do
  match (← get).violation? m args with
  | some e => throw e
  | none =>
    modify fun ts => { ts with substitutions := ts.substitutions + 1 }
    return m.close args

end TypeSystem

end LateBinding
