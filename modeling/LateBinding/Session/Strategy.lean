import LateBinding.Session.Catalog

/-!
# Strategies of member lookup

A `Strategy` is one way of finding a member on a receiver: it finds the member, passes, or fails.
`Strategy.declared` finds instance methods on the receiver's base chain, `Strategy.extension` finds
extension methods, and `Strategy.forMember` answers for a single member.  `Strategy.firstOf` tries a
list of strategies in order.
-/

namespace LateBinding

/-- A way of finding members.  `none` leaves the member to other strategies. -/
structure Strategy where
  name : String
  find : ForeignObject → String → EStateM ResolutionError Workspace (Option Member)

/-- The instance methods called `member` of the first definition on the base chain that has any. -/
def TypeSystem.declaredMethods? (ts : TypeSystem) (ty : Ty) (member : String) :
    Option (List Method) :=
  ty.name?.bind fun n => (ts.baseChain n).findSome? fun k =>
    match (ts.methods (.con k)).filter fun m => !m.isStatic && m.name == member with
    | [] => none
    | methods => some methods

namespace Workspace

/-- The extension member of a receiver. -/
def findExtension (receiver : ForeignObject) (member : String) :
    EStateM ResolutionError Workspace Member := do
  match receiver.ty.name? with
  | none => throw (.noExtension receiver.ty member)
  | some n =>
    let w ← get
    let methods ← memoPart.run
      (w.catalog.index.resolveOnce w.engine.types receiver.ty member)
    let proxy ← proxyFor (.extension n member) { name := member, methods }
    return { kind := .extension, proxy, receiver }

end Workspace

namespace Strategy

/-- Instance methods declared on the receiver's type or on its base chain. -/
def declared : Strategy where
  name := "declared"
  find receiver member := do
    match (← get).engine.types.declaredMethods? receiver.ty member with
    | none => return none
    | some methods =>
      let proxy ← Workspace.proxyFor (.declared receiver.ty member) { name := member, methods }
      return some { kind := .declared, proxy, receiver }

/-- Extension methods of the receiver's type; a missing one is left to other strategies. -/
def extension : Strategy where
  name := "extension"
  find receiver member := fun w =>
    match Workspace.findExtension receiver member w with
    | .ok found w => .ok (some found) w
    | .error (.noExtension _ _) w => .ok none w
    | .error e w => .error e w

/-- Answers for one member only: with a new proxy over a group, or with a failure. -/
def forMember (name answered : String) (answer : Except ResolutionError MethodGroup) :
    Strategy where
  name
  find receiver member := do
    if member = answered then
      let proxy ← Workspace.newProxy (← liftExcept answer)
      return some { kind := .declared, proxy, receiver }
    else
      return none

/-- The strategies that settings ask for. -/
def defaults (settings : Settings) : List Strategy :=
  if settings.extensionsEnabled then [declared, extension] else [declared]

/-- The member that the first strategy to answer finds. -/
def firstOf (strategies : List Strategy) (receiver : ForeignObject) (member : String) :
    EStateM ResolutionError Workspace Member :=
  match strategies with
  | [] => throw (.noMember receiver.ty member)
  | s :: rest => do
    match ← s.find receiver member with
    | some found => return found
    | none => firstOf rest receiver member

end Strategy

end LateBinding
