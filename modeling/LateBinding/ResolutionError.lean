import LateBinding.TypeSystem.Closing

/-!
# Failures of resolution

A `ResolutionError` names the method or member it concerns and what went wrong;
`ResolutionError.message` is its text.  A refusal of the foreign side to close a method is kept
inside as the `ClosingError` it is.
-/

namespace LateBinding

/-- What overloads are told apart by: their formals or their generic parameters. -/
inductive Measure where
  | arguments
  | typeArguments
deriving DecidableEq, Repr, Inhabited

namespace Measure

/-- The measure of a method. -/
def count : Measure → Method → Nat
  | arguments, m => m.arity
  | typeArguments, m => m.typeArity

/-- What is counted, in words. -/
def noun : Measure → String
  | arguments => "argument(s)"
  | typeArguments => "type argument(s)"

end Measure

/-- Why a method, an overload or a member could not be resolved. -/
inductive ResolutionError where
  | noOverload (method : String) (measure : Measure) (wanted : Nat) (available : List Nat)
  | unsolved (method param : String)
  | refused (method : String) (source : ClosingError)
  | noExtension (ty : Ty) (member : String)
  | noMember (ty : Ty) (member : String)
  | noSuchOverload (method : String) (index size : Nat)
deriving Repr, Inhabited

/-- The text of a failure. -/
def ResolutionError.message : ResolutionError → String
  | noOverload method measure wanted available =>
    let offer :=
      if available.isEmpty then "none" else ", ".intercalate (available.map toString)
    "no overload of `" ++ method ++ "` takes " ++ toString wanted ++ " " ++ measure.noun
      ++ " (available: " ++ offer ++ ")"
  | unsolved method param =>
    "cannot infer type argument `" ++ param ++ "` of `" ++ method ++ "` from the call arguments"
  | refused method source =>
    "cannot specialize `" ++ method ++ "`: " ++ source.message
  | noExtension ty member =>
    "no extension method `" ++ member ++ "` found for `" ++ ty.display ++ "`"
  | noMember ty member => "`" ++ ty.display ++ "` has no member `" ++ member ++ "`"
  | noSuchOverload method index size =>
    "overload index " ++ toString index ++ " out of range for `" ++ method ++ "` ("
      ++ toString size ++ " overload(s))"

end LateBinding
