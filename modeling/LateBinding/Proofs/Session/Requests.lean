import LateBinding.Proofs.Session.Lookup

/-!
# Requests to a session

A `Request` is one thing that a holder of a session can ask for: a lookup, a lookup with a call, an
operation on a member found before or on a proxy made before.  `Session.outcome` is what a request
shows, with proxies in place of their identifiers and without their caches.  From a sound session
with built-in strategies it is a function of the tables (`Request.expected`).
-/

namespace LateBinding

/-- The overload at an index of a proxy, as a proxy of its own. -/
def Engine.overload (id : ProxyId) (index : Nat) : EStateM ResolutionError Engine ProxyId := do
  Engine.add (← liftExcept (((← get).proxy id).overload index))

/-- What can be asked of a session. -/
inductive Request where
  | find (receiver : ForeignObject) (member : String)
  | findExtension (receiver : ForeignObject) (member : String)
  | call (receiver : ForeignObject) (member : String) (args : List Value)
  | callMember (m : Member) (args : List Value)
  | instantiateMember (m : Member) (typeArgs : List Ty)
  | resolve (id : ProxyId) (args : List Value) (receiver : Option ForeignObject)
  | instantiate (id : ProxyId) (typeArgs : List Ty) (receiver : Option ForeignObject)
  | overload (id : ProxyId) (index : Nat)

/-- What a request is answered with. -/
inductive Reply where
  | member (m : Member)
  | call (c : Call)
  | target (t : Target)
  | proxy (id : ProxyId)

/-- A reply with proxies in place of their identifiers, the caches left out. -/
inductive Reply.View where
  | member (m : Member.View)
  | call (c : Call)
  | target (t : Target)
  | proxy (p : Proxy)

/-- A reply as it is seen in an engine. -/
def Reply.view (e : Engine) : Reply → Reply.View
  | member m => .member (m.view e)
  | call c => .call c
  | target t => .target t
  | proxy id => .proxy (e.proxy id).forget

namespace Session

/-- Performs a request. -/
def perform : Request → EStateM ResolutionError SessionState Reply
  | .find receiver member => do return .member (← find receiver member)
  | .findExtension receiver member => do return .member (← findExtension receiver member)
  | .call receiver member args => do return .call (← call receiver member args)
  | .callMember m args => do return .call (← onEngine (m.call args))
  | .instantiateMember m typeArgs => do return .member (← onEngine (m.instantiate typeArgs))
  | .resolve id args receiver => do
    return .target (← onEngine ((Engine.proxyPart id).run (Proxy.resolve args receiver)))
  | .instantiate id typeArgs receiver => do
    return .target (← onEngine ((Engine.proxyPart id).run (Proxy.instantiate typeArgs receiver)))
  | .overload id index => do return .proxy (← onEngine (Engine.overload id index))

/-- What a request shows. -/
def outcome (r : Request) (s : SessionState) : Except ResolutionError Reply.View :=
  (answer (perform r) s).map (Reply.view (after (perform r) s).engine)

/-- The state that requests leave behind, one after the other. -/
def run (requests : List Request) (s : SessionState) : SessionState :=
  requests.foldl (fun s r => after (perform r) s) s

end Session

/-! ## What the tables say -/

/-- What a call of a member comes to on a proxy. -/
def Member.called (kind : MemberKind) (receiver : ForeignObject) (ts : TypeSystem) (p : Proxy)
    (args : List Value) : Except ResolutionError Call :=
  let m : Member := { kind, receiver, proxy := default }
  (p.callTarget ((m.fullArgs args).map p.typing.typeOf) m.boundReceiver ts).map fun target =>
    { target, args := m.fullArgs args }

theorem Member.called_congr {ts ts' : TypeSystem} (h : ts'.types = ts.types) (kind : MemberKind)
    (receiver : ForeignObject) (p : Proxy) (args : List Value) :
    called kind receiver ts' p args = called kind receiver ts p args := by
  simp only [called, Proxy.callTarget, TypeSystem.argumentOutcome_congr h]

/-- What an instantiation of a member comes to on a proxy. -/
def Member.instantiated (m : Member) (ts : TypeSystem) (p : Proxy) (typeArgs : List Ty) :
    Except ResolutionError Member.View :=
  (p.typeTarget typeArgs none ts).map fun target =>
    ⟨m.kind, m.receiver, p.forGroup target.toGroup⟩

/-- What a request has to show when built-in strategies of the given kinds are used: a function of
the tables and of the proxies without their caches. -/
def Request.expected (kinds : List MemberKind) (w : Workspace) :
    Request → Except ResolutionError Reply.View
  | find receiver member => (w.foundFirst receiver member kinds).map .member
  | findExtension receiver member => (w.foundExtension receiver member).map .member
  | call receiver member args => do
    let m ← w.foundFirst receiver member kinds
    return .call (← Member.called m.kind m.receiver w.engine.types m.proxy args)
  | callMember m args =>
    let p := (w.engine.proxy m.proxy).forget
    (Member.called m.kind m.receiver w.engine.types p args).map .call
  | instantiateMember m typeArgs =>
    let p := (w.engine.proxy m.proxy).forget
    (m.instantiated w.engine.types p typeArgs).map .member
  | resolve id args receiver =>
    let p := (w.engine.proxy id).forget
    (p.callTarget (args.map p.typing.typeOf) receiver w.engine.types).map .target
  | instantiate id typeArgs receiver =>
    let p := (w.engine.proxy id).forget
    (p.typeTarget typeArgs receiver w.engine.types).map .target
  | overload id index => ((w.engine.proxy id).forget.overload index).map .proxy

theorem Request.expected_forget (kinds : List MemberKind) (w : Workspace) (r : Request) :
    r.expected kinds w.forget = r.expected kinds w := by
  have hproxy : ∀ id, (w.forget.engine.proxy id).forget = (w.engine.proxy id).forget := by
    intro id
    show (w.engine.forget.proxy id).forget = _
    rw [Engine.proxy_forget]
    rfl
  cases r with
  | find => rfl
  | findExtension => rfl
  | call => rfl
  | callMember => simp only [expected, hproxy]; rfl
  | instantiateMember => simp only [expected, hproxy]; rfl
  | resolve => simp only [expected, hproxy]; rfl
  | instantiate => simp only [expected, hproxy]; rfl
  | overload => simp only [expected, hproxy]

/-! ## Requests to the engine -/

namespace Engine

/-- An action that keeps an engine sound, adds to it at most, and answers `r`, seen by `view`. -/
structure Yields (e : Engine) (act : EStateM ResolutionError Engine α) (view : Engine → α → β)
    (r : Except ResolutionError β) : Prop where
  sound : (after act e).Sound
  grows : e.Extends (after act e)
  answer : (answer act e).map (view (after act e)) = r

variable {e e' : Engine} {act act' : EStateM ResolutionError Engine α} {view : Engine → α → β}
  {r : Except ResolutionError β}

theorem yields_throw (he : e.Sound) (err : ResolutionError) :
    Yields e (throw err : EStateM ResolutionError Engine α) view (.error err) :=
  ⟨he, .refl e, rfl⟩

/-- An action that comes down to another one, performed later. -/
theorem Yields.of_eq (h : Yields e' act' view r) (hgrows : e.Extends e') (hact : act e = act' e') :
    Yields e act view r where
  sound := by
    rw [after_congr hact]
    exact h.sound
  grows := by
    rw [after_congr hact]
    exact hgrows.trans h.grows
  answer := by
    rw [answer_congr hact, after_congr hact]
    exact h.answer

theorem Yields.map (h : Yields e act view r) {next : α → γ} {seen : Engine → γ → δ} {f : β → δ}
    (hseen : ∀ e a, seen e (next a) = f (view e a)) :
    Yields e (act >>= fun a => pure (next a)) seen (r.map f) where
  sound := by
    rw [after_bind_pure]
    exact h.sound
  grows := by
    rw [after_bind_pure]
    exact h.grows
  answer := by
    rw [answer_bind_pure, after_bind_pure, ← h.answer]
    cases LateBinding.answer act e with
    | error err => rfl
    | ok a => exact congrArg Except.ok (hseen _ a)

theorem Yields.bind_of_error (h : Yields e act view r) {next : α → EStateM ResolutionError Engine γ}
    {seen : Engine → γ → δ} {err : ResolutionError}
    (herr : LateBinding.answer act e = .error err) :
    Yields e (act >>= next) seen (.error err) where
  sound := by
    rw [after_bind_of_error herr]
    exact h.sound
  grows := by
    rw [after_bind_of_error herr]
    exact h.grows
  answer := by
    rw [answer_bind_of_error herr]
    rfl

theorem yields_onProxy (he : e.Sound) {act : EStateM ResolutionError (Proxy × Journal) α}
    {f : TypeSystem → Proxy → Except ResolutionError α} (h : Proxy.Determined act f)
    (id : ProxyId) :
    Yields e ((proxyPart id).run act) (fun _ a => a) (f e.types (e.proxy id)) where
  sound := he.onProxy h id
  grows := extends_onProxy h e id
  answer := by
    rw [answer_onProxy h he]
    cases f e.types (e.proxy id) <;> rfl

/-- A new proxy, seen without its caches. -/
theorem yields_add (he : e.Sound) {p : Proxy} (hp : p.forget = p) :
    Yields e (add p) (fun e id => (e.proxy id).forget) (.ok p) where
  sound := by
    refine he.add ?_
    rw [← hp]
    exact Proxy.sound_forget _ p
  grows := extends_add p e
  answer := by
    rw [answer_add]
    show Except.ok (((after (add p) e).proxy _).forget) = _
    rw [proxy_after_add, if_pos rfl, hp]

theorem yields_overload (he : e.Sound) (id : ProxyId) (index : Nat) :
    Yields e (overload id index) (fun e id => (e.proxy id).forget)
      ((e.proxy id).forget.overload index) := by
  have hoverload : (e.proxy id).forget.overload index = (e.proxy id).overload index := rfl
  have hact : overload id index e =
      (liftExcept ((e.proxy id).overload index) >>= fun p => add p) e := rfl
  rw [hoverload]
  unfold Proxy.overload at hact ⊢
  cases hm : (e.proxy id).group.methods[index]? with
  | none =>
    rw [hm] at hact
    exact (yields_throw he _).of_eq (.refl e) hact
  | some m =>
    rw [hm] at hact
    exact (yields_add he rfl).of_eq (.refl e) hact

/-- What is left of an instantiation when its target is known: a new proxy over the target. -/
theorem instantiateMember_of_target {m : Member} {typeArgs : List Ty} {target : Target}
    (htarget : LateBinding.answer ((proxyPart m.proxy).run (Proxy.instantiate typeArgs none)) e =
      .ok target) :
    m.instantiate typeArgs e =
      (add ((e.proxy m.proxy).forGroup target.toGroup) >>= fun id => pure { m with proxy := id })
        (after ((proxyPart m.proxy).run (Proxy.instantiate typeArgs none)) e) := by
  let e' := after ((proxyPart m.proxy).run (Proxy.instantiate typeArgs none)) e
  have hforget : (e'.proxy m.proxy).forGroup target.toGroup =
      (e.proxy m.proxy).forGroup target.toGroup := by
    rw [← Proxy.forGroup_forget,
      forget_proxy_after_onProxy (Proxy.determined_instantiate typeArgs none),
      Proxy.forGroup_forget]
  rw [Member.instantiate, Member.onProxy, bind_of_ok htarget, ← hforget]
  rfl

theorem yields_instantiateMember (he : e.Sound) (m : Member) (typeArgs : List Ty) :
    Yields e (m.instantiate typeArgs) Member.view
      (m.instantiated e.types (e.proxy m.proxy).forget typeArgs) := by
  have hd := Proxy.determined_instantiate typeArgs none
  have hproxy := yields_onProxy he hd m.proxy
  have hanswer := answer_onProxy hd he m.proxy
  have hinstantiated : m.instantiated e.types (e.proxy m.proxy).forget typeArgs =
      ((e.proxy m.proxy).typeTarget typeArgs none e.types).map fun target =>
        ⟨m.kind, m.receiver, (e.proxy m.proxy).forGroup target.toGroup⟩ := rfl
  rw [hinstantiated]
  cases htarget : (e.proxy m.proxy).typeTarget typeArgs none e.types with
  | error err =>
    rw [htarget] at hanswer
    exact hproxy.bind_of_error hanswer
  | ok target =>
    rw [htarget] at hanswer
    have hadd := yields_add hproxy.sound (p := (e.proxy m.proxy).forGroup target.toGroup) rfl
    have hmember : Yields _ (add ((e.proxy m.proxy).forGroup target.toGroup) >>= fun id =>
        pure { m with proxy := id }) Member.view
          (.ok ⟨m.kind, m.receiver, (e.proxy m.proxy).forGroup target.toGroup⟩) :=
      hadd.map fun _ _ => rfl
    exact hmember.of_eq hproxy.grows (instantiateMember_of_target hanswer)

end Engine

namespace Workspace

variable {w : Workspace}

/-- An action on the engine alone. -/
theorem yields_onEngine (hw : w.Sound) {act : EStateM ResolutionError Engine α}
    {view : Engine → α → β} {r : Except ResolutionError β} (h : Engine.Yields w.engine act view r) :
    Yields w (enginePart.run act) view r where
  sound := by
    rw [after_run]
    exact hw.of_engine h.sound h.grows
  grows := by
    rw [after_run]
    exact ⟨rfl, rfl, rfl, h.grows⟩
  answer := by
    rw [answer_run, after_run]
    exact h.answer

end Workspace

end LateBinding
