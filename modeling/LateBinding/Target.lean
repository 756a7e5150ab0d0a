import LateBinding.Value

/-!
# Targets of calls

A resolved call aims at a `Target`: a whole group, whose overloads the invoker tells apart, or one
method.  Both may be bound to a receiver.  A `Call` is a target with its arguments.
-/

namespace LateBinding

/-- What a resolved call aims at. -/
inductive Target where
  | group (g : MethodGroup)
  | method (m : Method) (receiver : Option ForeignObject)
deriving Repr, Inhabited

/-- The target as a group without a receiver. -/
def Target.toGroup : Target → MethodGroup
  | group g => g.unbind
  | method m _ => .single m

/-- The method of a target that is not a whole group. -/
def Target.method? : Target → Option Method
  | group _ => none
  | method m _ => some m

/-- A target together with the arguments for it. -/
structure Call where
  target : Target
  args : List Value
deriving Inhabited

end LateBinding
