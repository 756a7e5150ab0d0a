import LateBinding.Engine

/-!
# Members

A `Member` is a proxy found on a receiver.  A declared member binds the receiver to what it
resolves; an extension member passes it as the first argument of a static method.  Instantiating a
member leaves the receiver and gives a proxy of its own.
-/

namespace LateBinding

/-- How a member belongs to its receiver. -/
inductive MemberKind where
  | declared
  | extension
deriving DecidableEq, Repr, Inhabited

/-- A proxy found on a receiver. -/
structure Member where
  kind : MemberKind
  proxy : ProxyId
  receiver : ForeignObject
deriving Repr, Inhabited

namespace Member

/-- The object that a resolved call is bound to. -/
def boundReceiver (m : Member) : Option ForeignObject :=
  match m.kind with
  | .declared => some m.receiver
  | .extension => none

/-- The arguments that reach the method: the receiver comes first for an extension. -/
def fullArgs (m : Member) (args : List Value) : List Value :=
  match m.kind with
  | .declared => args
  | .extension => .foreign m.receiver :: args

/-- An action on the proxy of a member. -/
def onProxy (m : Member) (act : EStateM ResolutionError (Proxy × Journal) α) :
    EStateM ResolutionError Engine α :=
  (Engine.proxyPart m.proxy).run act

/-- Resolves a call of the member. -/
def resolve (m : Member) (args : List Value) : EStateM ResolutionError Engine Target :=
  m.onProxy (Proxy.resolve (m.fullArgs args) m.boundReceiver)

/-- Resolves a call of the member and returns it with the arguments that reach the method. -/
def call (m : Member) (args : List Value) : EStateM ResolutionError Engine Call :=
  m.onProxy (Proxy.call (m.fullArgs args) m.boundReceiver)

/-- The member closed over type arguments, with the same receiver and a new proxy. -/
def instantiate (m : Member) (typeArgs : List Ty) : EStateM ResolutionError Engine Member := do
  let target ← m.onProxy (Proxy.instantiate typeArgs none)
  let id ← Engine.add (((← get).proxy m.proxy).forGroup target.toGroup)
  return { m with proxy := id }

end Member

end LateBinding
