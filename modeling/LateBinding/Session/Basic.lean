import LateBinding.Session.Strategy

/-!
# Sessions

A `Session` is a catalog with the strategies of its member lookup.  Lookups run on a `SessionState`,
a session beside an engine: `Session.find` through the strategies, `Session.findExtension`
for extension methods alone, `Session.call` for a lookup with a call.  A session is built from
a `SessionPlan`.
-/

namespace LateBinding

/-- A catalog with the strategies of its member lookup. -/
structure Session where
  catalog : Catalog
  strategies : List Strategy
deriving Inhabited

/-- A session beside an engine. -/
structure SessionState where
  session : Session
  engine : Engine
deriving Inhabited

namespace Session

/-- The workspace of a session. -/
def workspacePart : Part SessionState Workspace where
  get s := ⟨s.session.catalog, s.engine⟩
  put w s := { session := { s.session with catalog := w.catalog }, engine := w.engine }

/-- Finds a member on a receiver by the strategies of the session. -/
def find (receiver : ForeignObject) (member : String) :
    EStateM ResolutionError SessionState Member := do
  let strategies := (← get).session.strategies
  workspacePart.run (Strategy.firstOf strategies receiver member)

/-- Finds an extension member on a receiver. -/
def findExtension (receiver : ForeignObject) (member : String) :
    EStateM ResolutionError SessionState Member :=
  workspacePart.run (Workspace.findExtension receiver member)

/-- An action on the engine. -/
def onEngine (act : EStateM ε Engine α) : EStateM ε SessionState α :=
  workspacePart.run (Workspace.enginePart.run act)

/-- Finds a member on a receiver and resolves a call of it. -/
def call (receiver : ForeignObject) (member : String) (args : List Value) :
    EStateM ResolutionError SessionState Call := do
  let found ← find receiver member
  onEngine (found.call args)

/-- Tells a session that a namespace was loaded; the number of extension methods it brought. -/
def load (s : Session) (ts : TypeSystem) (ns : String) : Nat × Session :=
  let (count, catalog) := s.catalog.load ts ns
  (count, { s with catalog })

end Session

/-! ## Building -/

/-- A session in the making.  `strategies` is `none` as long as the settings decide. -/
structure SessionPlan where
  settings : Settings := {}
  strategies : Option (List Strategy) := none
deriving Inhabited

namespace SessionPlan

/-- A plan with other settings. -/
def withSettings (p : SessionPlan) (settings : Settings) : SessionPlan := { p with settings }

/-- A plan with one more strategy.  Without a list so far, the strategies that the settings ask for
at this moment come before it. -/
def withStrategy (p : SessionPlan) (s : Strategy) : SessionPlan :=
  { p with strategies := some (p.strategies.getD (Strategy.defaults p.settings) ++ [s]) }

/-- A plan with exactly the given strategies. -/
def withStrategies (p : SessionPlan) (strategies : List Strategy) : SessionPlan :=
  { p with strategies := some strategies }

/-- The session of a plan; the namespaces to preload are scanned in the given type system. -/
def build (p : SessionPlan) (ts : TypeSystem) : Session where
  catalog := p.settings.preload.foldl (fun c ns => (c.load ts ns).2) (.ofSettings p.settings)
  strategies := p.strategies.getD (Strategy.defaults p.settings)

end SessionPlan

end LateBinding
