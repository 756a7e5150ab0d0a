import LateBinding.ResolutionError

/-!
# Selection of overloads

Overloads are selected by a count alone: the number of arguments, or of type arguments.  A group of
one is selected as it is; otherwise the first overload with the wanted count is, and without one
the first overload of the group stands in, unmatched (`MethodGroup.select?`).  A `MissPolicy` says
whether an unmatched selection is used, with a `Warning`, or refused (`MethodGroup.pick`).
-/

namespace LateBinding

/-- What happens when no overload has the wanted count: use the first one, or fail. -/
inductive MissPolicy where
  | fallback
  | strict
deriving DecidableEq, Repr, Inhabited

/-- An overload selected from a group, with its position and whether its count was the wanted one
or did not matter. -/
structure Selection where
  method : Method
  index : Nat
  matched : Bool
deriving Repr, Inhabited

/-- A notice that the first overload of a group was used for want of a better one. -/
structure Warning where
  method : String
  fallback : String
  message : String
deriving DecidableEq, Repr, Inhabited

namespace MethodGroup

/-- The overload for `wanted` arguments or type arguments; only an empty group has none. -/
def select? (g : MethodGroup) (measure : Measure) (wanted : Nat) : Option Selection :=
  match g.methods with
  | [] => none
  | [m] => some ⟨m, 0, true⟩
  | first :: rest =>
    match (first :: rest).zipIdx.find? fun (m, _) => measure.count m == wanted with
    | some (m, i) => some ⟨m, i, true⟩
    | none => some ⟨first, 0, false⟩

/-- The failure to find an overload for `wanted` arguments or type arguments. -/
def miss (g : MethodGroup) (measure : Measure) (wanted : Nat) : ResolutionError :=
  .noOverload g.name measure wanted (g.methods.map measure.count)

/-- Selection under a policy. -/
def pick (g : MethodGroup) (measure : Measure) (wanted : Nat) (policy : MissPolicy) :
    Except ResolutionError Selection :=
  match g.select? measure wanted with
  | none => .error (g.miss measure wanted)
  | some s => if s.matched || policy = .fallback then .ok s else .error (g.miss measure wanted)

/-- The notice that goes with an unmatched selection. -/
def notice? (g : MethodGroup) (measure : Measure) (wanted : Nat) (s : Selection) : Option Warning :=
  if s.matched then none
  else some {
    method := g.name
    fallback := s.method.signature
    message := (g.miss measure wanted).message ++ "; falling back to the first overload" }

end MethodGroup

end LateBinding
