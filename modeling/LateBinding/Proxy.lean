import LateBinding.Journal
import LateBinding.OnceMap.Basic
import LateBinding.Target
import LateBinding.ValueTyping

/-!
# Proxies

A `Proxy` stands for a method group and remembers how its calls were resolved: `callCache` by the
types of the arguments, `typeCache` by the type arguments of instantiations.  The two never share an
entry.  Operations on a proxy run on a pair of the proxy and the journal; the receiver is bound to
the answer and takes no part in what is remembered.
-/

namespace LateBinding

/-- A method group with its typing of values, its policy and its two caches.  Lists of types are
compared up to the constraints of placeholders. -/
structure Proxy where
  group : MethodGroup
  typing : ValueTyping
  policy : MissPolicy
  callCache : OnceMap (List Ty) Outcome := .empty
  typeCache : OnceMap (List Ty) Outcome := .empty
deriving Inhabited

namespace Proxy

/-- A proxy over `group`, unbound, with empty caches. -/
def new (group : MethodGroup) (typing : ValueTyping) (policy : MissPolicy) : Proxy :=
  { group := group.unbind, typing, policy }

/-- A new proxy over another group, with the typing and the policy of this one. -/
def forGroup (p : Proxy) (group : MethodGroup) : Proxy := new group p.typing p.policy

/-- A new proxy over the overload at `index` alone. -/
def overload (p : Proxy) (index : Nat) : Except ResolutionError Proxy :=
  match p.group.methods[index]? with
  | some m => .ok (p.forGroup (.single m))
  | none => .error (.noSuchOverload p.group.name index p.group.size)

/-- The target that an outcome gives for a receiver. -/
def target (p : Proxy) (receiver : Option ForeignObject) : Outcome → Target
  | .wholeGroup => .group { p.group with receiver }
  | .closed m => .method m receiver

/-! ## Resolution through the caches -/

/-- The call cache of a proxy, beside the journal. -/
def callPart : Part (Proxy × Journal) (OnceMap (List Ty) Outcome × Journal) where
  get s := (s.1.callCache, s.2)
  put t s := ({ s.1 with callCache := t.1 }, t.2)

/-- The type cache of a proxy, beside the journal. -/
def typePart : Part (Proxy × Journal) (OnceMap (List Ty) Outcome × Journal) where
  get s := (s.1.typeCache, s.2)
  put t s := ({ s.1 with typeCache := t.1 }, t.2)

/-- Resolves a call with arguments of the given types. -/
def resolveTypes (argTypes : List Ty) (receiver : Option ForeignObject) :
    EStateM ResolutionError (Proxy × Journal) Target := do
  let p := (← get).1
  let outcome ← callPart.run
    (OnceMap.demandApart argTypes (Journal.resolveArguments p.group p.policy argTypes))
  return p.target receiver outcome

/-- Resolves a call with the given arguments. -/
def resolve (args : List Value) (receiver : Option ForeignObject) :
    EStateM ResolutionError (Proxy × Journal) Target := do
  resolveTypes (args.map (← get).1.typing.typeOf) receiver

/-- Resolves a call and returns it with its arguments. -/
def call (args : List Value) (receiver : Option ForeignObject) :
    EStateM ResolutionError (Proxy × Journal) Call := do
  return { target := ← resolve args receiver, args }

/-- Resolves an instantiation with the given type arguments. -/
def instantiate (typeArgs : List Ty) (receiver : Option ForeignObject) :
    EStateM ResolutionError (Proxy × Journal) Target := do
  let p := (← get).1
  let outcome ← typePart.run
    (OnceMap.demandApart typeArgs (Journal.resolveTypeArguments p.group p.policy typeArgs))
  return p.target receiver outcome

end Proxy

end LateBinding
