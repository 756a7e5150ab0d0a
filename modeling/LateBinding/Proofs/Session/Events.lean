import LateBinding.Proofs.Extension.Log
import LateBinding.Proofs.Session.Caching
import LateBinding.Proofs.Session.Interning

/-!
# Sessions among events

Between two requests to a session namespaces are loaded, its extension index and the type tables
change, and its memo may be used with other indexes.  Every such `SessionState.Event` keeps a
session in step and lets it retain what it has (`SessionState.continues_follow`), so interned
proxies agree with the memo in every state, and later lookups come back to them
(`SessionState.interned_agree`).
-/

namespace LateBinding

/-- A workspace with the same proxies, lookups and interned proxies, on tables with the property
`T`. -/
theorem Workspace.InStep.continues_of_eq {T : TableProperty} {w w' : Workspace} (h : w.InStep T)
    (hproxies : w'.engine.proxies = w.engine.proxies) (htables : T w'.engine.types.types)
    (hmemo : w'.catalog.memo = w.catalog.memo)
    (hinterned : w'.catalog.interned = w.catalog.interned) : w.Continues T w' := by
  have hproxy : ∀ id, w'.engine.proxy id = w.engine.proxy id := by
    intro id
    rw [Engine.proxy, hproxies, Engine.proxy]
  have hengine : w.engine.Retains w'.engine := by
    refine ⟨Nat.le_of_eq (by rw [hproxies]), fun id _ => ?_⟩
    rw [hproxy]
    exact .refl _
  refine ⟨⟨fun id => ?_, htables, ?_, ?_⟩, hengine, fun _ _ hget => ?_, fun _ _ hget => ?_⟩
  · rw [hproxy]
    exact h.engine id
  · rw [hmemo]
    exact h.memo
  · rw [hmemo, hinterned]
    exact h.interned.mono fun _ _ href => href.mono (fun _ _ hget => hget) hengine
  · rwa [hmemo]
  · rwa [hinterned]

/-- Declared members are instance methods of their name, at least one. -/
theorem TypeSystem.of_declaredMethods? {ts : TypeSystem} {ty : Ty} {member : String}
    {methods : List Method} (h : ts.declaredMethods? ty member = some methods) :
    methods ≠ [] ∧ ∀ m ∈ methods, m.isStatic = false ∧ m.name = member := by
  obtain ⟨n, -, hfind⟩ := Option.bind_eq_some_iff.1 h
  obtain ⟨k, -, hk⟩ := List.exists_of_findSome?_eq_some hfind
  split at hk
  · cases hk
  · rename_i hne
    cases hk
    refine ⟨hne, fun m hm => ?_⟩
    simpa using (List.mem_filter.1 hm).2

namespace SessionState

/-- What happens to a session, or to the tables under it. -/
inductive Event where
  | ask (r : Request)
  | load (ns : String)
  | changeIndex (c : ExtensionIndex.Change)
  | resolveWith (ix : ExtensionIndex) (ts : TypeSystem) (ty : Ty) (member : String)
  | changeTypes (c : TypeSystem.Change)

/-- Whether an event changes the type tables. -/
def Event.changesTypes : Event → Bool
  | changeTypes _ => true
  | ask _ | load _ | changeIndex _ | resolveWith _ _ _ _ => false

/-- A session after one more event. -/
def step (s : SessionState) : Event → SessionState
  | .ask r => after (Session.perform r) s
  | .load ns => { s with session := (s.session.load s.engine.types ns).2 }
  | .changeIndex c =>
    let catalog := { s.session.catalog with index := s.session.catalog.index.apply c }
    { s with session := { s.session with catalog } }
  | .resolveWith ix ts ty member =>
    after (Session.workspacePart.run (Workspace.memoPart.run (ix.resolveOnce ts ty member))) s
  | .changeTypes c => { s with engine := { s.engine with types := s.engine.types.apply c } }

/-- A session after events, one after the other. -/
def follow (s : SessionState) (events : List Event) : SessionState := events.foldl step s

/-- The strategies are built-in ones of the given kinds, and the workspace is in step. -/
structure InStep (kinds : List MemberKind) (T : TableProperty) (s : SessionState) : Prop where
  strategies : s.session.strategies = kinds.map MemberKind.strategy
  workspace : s.workspace.InStep T

/-- The later session is in step and retains what the earlier one has. -/
structure Continues (kinds : List MemberKind) (T : TableProperty) (s s' : SessionState) : Prop where
  inStep : s'.InStep kinds T
  retains : s.workspace.Retains s'.workspace

variable {kinds : List MemberKind} {T : TableProperty} {s s' s'' : SessionState}

theorem Continues.trans (h : Continues kinds T s s') (h' : Continues kinds T s' s'') :
    Continues kinds T s s'' := ⟨h'.inStep, h.retains.trans h'.retains⟩

theorem continues_of_workspace (hs : s.InStep kinds T)
    (hstrategies : s'.session.strategies = s.session.strategies)
    (h : s.workspace.Continues T s'.workspace) : Continues kinds T s s' :=
  ⟨⟨hstrategies.trans hs.strategies, h.inStep⟩, h.retains⟩

/-! ## Requests -/

/-- A request that passes an action on to the workspace and wraps what it answers. -/
theorem continues_of_run (hs : s.InStep kinds T) {act : EStateM ResolutionError SessionState α}
    {onWorkspace : EStateM ResolutionError Workspace α}
    (hact : act s = Session.workspacePart.run onWorkspace s)
    (h : s.workspace.Continues T (after onWorkspace s.workspace)) (reply : α → β) :
    Continues kinds T s (after (act >>= fun a => pure (reply a)) s) := by
  rw [after_bind_pure, after_congr hact, after_run]
  exact continues_of_workspace hs rfl h

theorem continues_ask (hs : s.InStep kinds T) (r : Request) :
    Continues kinds T s (after (Session.perform r) s) := by
  have hw := hs.workspace
  have he := hw.engine
  have hfind := fun receiver member => Workspace.seeks_firstOf hw receiver member kinds
  rw [← hs.strategies] at hfind
  cases r with
  | find receiver member =>
    exact continues_of_run hs rfl (hfind receiver member).continues _
  | findExtension receiver member =>
    exact continues_of_run hs rfl (Workspace.seeks_findExtension hw receiver member).continues _
  | call receiver member args =>
    refine continues_of_run hs (Session.run_bind _ _ s) ?_ _
    have hfound := (hfind receiver member).continues
    refine rel_after_bind (r := Workspace.Continues T) Workspace.Continues.trans hfound ?_
    intro m _
    exact Workspace.continues_onEngine hfound.inStep
      (Engine.continues_onProxy hfound.inStep.engine (Proxy.accumulates_call _ _) m.proxy)
  | callMember m args =>
    exact continues_of_run hs rfl (Workspace.continues_onEngine hw
      (Engine.continues_onProxy he (Proxy.accumulates_call _ _) m.proxy)) _
  | instantiateMember m typeArgs =>
    exact continues_of_run hs rfl (Workspace.continues_onEngine hw
      (Engine.continues_instantiateMember he m typeArgs)) _
  | resolve id args receiver =>
    exact continues_of_run hs rfl (Workspace.continues_onEngine hw
      (Engine.continues_onProxy he (Proxy.accumulates_perform (.resolve args receiver)) id)) _
  | instantiate id typeArgs receiver =>
    exact continues_of_run hs rfl (Workspace.continues_onEngine hw
      (Engine.continues_onProxy he (Proxy.accumulates_perform (.instantiate typeArgs receiver))
        id)) _
  | overload id index =>
    exact continues_of_run hs rfl (Workspace.continues_onEngine hw
      (Engine.continues_overload he id index)) _

/-! ## Events -/

/-- An event keeps a session in step; one that changes the type tables does so if all tables have
the property `T`. -/
theorem continues_step (hs : s.InStep kinds T) (e : Event)
    (hT : e.changesTypes → ∀ types, T types) : Continues kinds T s (s.step e) := by
  have hw := hs.workspace
  cases e with
  | ask r => exact continues_ask hs r
  | load ns =>
    have hload : (s.session.load s.engine.types ns).2.catalog.memo = s.session.catalog.memo ∧
        (s.session.load s.engine.types ns).2.catalog.interned = s.session.catalog.interned := by
      show (s.session.catalog.load s.engine.types ns).2.memo = _ ∧
        (s.session.catalog.load s.engine.types ns).2.interned = _
      unfold Catalog.load
      split <;> exact ⟨rfl, rfl⟩
    exact continues_of_workspace hs rfl (hw.continues_of_eq rfl hw.tables hload.1 hload.2)
  | changeIndex c => exact continues_of_workspace hs rfl (hw.continues_of_eq rfl hw.tables rfl rfl)
  | resolveWith ix ts ty member =>
    rw [step, after_run]
    exact continues_of_workspace hs rfl (Workspace.continues_resolveOnce hw ix ts ty member)
  | changeTypes c => exact continues_of_workspace hs rfl (hw.continues_of_eq rfl (hT rfl _) rfl rfl)

theorem continues_follow (hs : s.InStep kinds T) (events : List Event)
    (hT : ∀ e ∈ events, e.changesTypes → ∀ types, T types) :
    Continues kinds T s (s.follow events) := by
  induction events generalizing s with
  | nil => exact ⟨hs, .refl _⟩
  | cons e es ih =>
    have hstep := continues_step hs e (hT e List.mem_cons_self)
    exact hstep.trans (ih hstep.inStep fun e' he' => hT e' (List.mem_cons_of_mem e he'))

/-- A session with nothing remembered is in step with any tables. -/
theorem inStep_of_forget (hstart : s.forget = s)
    (hstrategies : s.session.strategies = kinds.map MemberKind.strategy)
    (hT : T s.engine.types.types) : s.InStep kinds T := by
  rw [← hstart]
  exact ⟨hstrategies, Workspace.inStep_forget s.workspace hT⟩

theorem answer_find (s : SessionState) (receiver : ForeignObject) (member : String) :
    answer (Session.find receiver member) s =
      answer (Strategy.firstOf s.session.strategies receiver member) s.workspace :=
  answer_run Session.workspacePart _ s

theorem answer_findExtension (s : SessionState) (receiver : ForeignObject) (member : String) :
    answer (Session.findExtension receiver member) s =
      answer (Workspace.findExtension receiver member) s.workspace :=
  answer_run Session.workspacePart _ s

/-- A member that a lookup finds has the proxy that was interned for an equal key before. -/
theorem proxy_of_lookup (hs : s.InStep kinds T) {receiver : ForeignObject} {member : String}
    {m : Member} (hm : answer (Session.find receiver member) s = .ok m ∨
      answer (Session.findExtension receiver member) s = .ok m)
    {key key' : ProxyKey} (hkey : m.kind.key? receiver member = some key') (hbeq : key == key')
    {id : ProxyId} (hid : s.session.catalog.interned.get? key = some id) : m.proxy = id := by
  have of_seeks : ∀ act : EStateM ResolutionError Workspace Member,
      Workspace.Seeks T s.workspace receiver member act some → answer act s.workspace = .ok m →
        m.proxy = id := by
    intro act hseeks hanswer
    obtain ⟨-, k, hk, hinterned⟩ := hseeks.located m m hanswer rfl
    rw [hk] at hkey
    cases hkey
    have hretained := hseeks.continues.retains.interned key id hid
    rw [OnceMap.get?_congr _ hbeq, hinterned] at hretained
    exact Option.some.inj hretained
  rw [answer_find, answer_findExtension, hs.strategies] at hm
  rcases hm with hm | hm
  · exact of_seeks _ (Workspace.seeks_firstOf hs.workspace receiver member kinds) hm
  · exact of_seeks _ (Workspace.seeks_findExtension hs.workspace receiver member) hm

/-- A session with built-in strategies starts with nothing remembered, on any tables and with any
proxies, and goes through any events.  In every state an interned extension member is over the
lookup that the memo holds for it, which is not empty, and an interned declared member over instance
methods of its name, at least one; no interned proxy is bound.  From then on, whatever comes, the
proxy keeps its group and all that it remembers, and every lookup that finds a member of an equal
key finds it with this proxy. -/
theorem interned_agree (s : SessionState) (hstart : s.forget = s)
    (hbuiltin : ∀ x ∈ s.session.strategies, x = .declared ∨ x = .extension)
    (events : List Event) :
    let t := s.follow events
    let interned := t.session.catalog.interned
    (∀ n member id, interned.get? (.extension n member) = some id →
        ∃ methods, methods ≠ [] ∧ t.session.catalog.memo.get? (n, member) = some methods ∧
          (t.engine.proxy id).group = { name := member, methods }) ∧
      (∀ ty member id, interned.get? (.declared ty member) = some id →
        ∃ methods, methods ≠ [] ∧ (∀ m ∈ methods, m.isStatic = false ∧ m.name = member) ∧
          (t.engine.proxy id).group = { name := member, methods }) ∧
      ∀ key id, interned.get? key = some id → ∀ more,
        let t' := t.follow more
        (t'.engine.proxy id).group = (t.engine.proxy id).group ∧
          (∀ measure k o, ((t.engine.proxy id).cache measure).get? k = some o →
            ((t'.engine.proxy id).cache measure).get? k = some o) ∧
          ∀ receiver member m, answer (Session.find receiver member) t' = .ok m ∨
            answer (Session.findExtension receiver member) t' = .ok m →
            ∀ key', m.kind.key? receiver member = some key' → key == key' → m.proxy = id := by
  intro t interned
  obtain ⟨kinds, hkinds⟩ := Session.exists_kinds hbuiltin
  have hs : s.InStep kinds fun _ => True := inStep_of_forget hstart hkinds trivial
  have hall : ∀ events : List Event, ∀ e ∈ events, e.changesTypes →
      ∀ types : OrderedMap TypeName TypeEntry, True := fun _ _ _ _ _ => trivial
  have ht := (continues_follow hs events (hall events)).inStep
  have hrefers := ht.workspace.interned.holds
  refine ⟨fun n member id hid => ?_, fun ty member id hid => ?_, fun key id hid more => ?_⟩
  · obtain ⟨-, methods, hgroup, hmemo⟩ := hrefers _ id hid
    exact ⟨methods, ht.workspace.memo.holds _ _ hmemo, hmemo, hgroup⟩
  · obtain ⟨-, methods, hgroup, ts, -, hmethods⟩ := hrefers _ id hid
    obtain ⟨hne, hinstance⟩ := TypeSystem.of_declaredMethods? hmethods
    exact ⟨methods, hne, hinstance, hgroup⟩
  · obtain ⟨hlt, -⟩ := hrefers key id hid
    have hlater := continues_follow ht more (hall more)
    have hproxy := hlater.retains.engine.proxy id hlt
    refine ⟨Proxy.group_eq_of_forget hproxy.forget, hproxy.cached, ?_⟩
    intro receiver member m hm key' hkey hbeq
    exact proxy_of_lookup hlater.inStep hm hkey hbeq (hlater.retains.interned key id hid)

/-- A declared member and an extension member, one proxy for each.  A method that is declared on the
type afterwards does not join the group of the interned proxy, and the next lookup finds it with
this proxy all the same. -/
theorem interned_agree_lateOverload :
    let box : Ty := .con ⟨"Demo", "Box"⟩
    let go := ({} : TypeSystem).declare box { name := "Go" }
    let each := go.2.declare (.con ⟨"Demo", "Boxes"⟩) {
      name := "Each", formals := [⟨"self", box⟩], isStatic := true, isExtension := true }
    let s : SessionState := {
      session := ({} : SessionPlan).build each.2
      engine := { types := each.2 } }
    let thing : ForeignObject := ⟨box, 1⟩
    let t := s.follow [.load "Demo", .ask (.find thing "Go"), .ask (.find thing "Each")]
    let t' := t.follow [.changeTypes (.declare box { name := "Go", formals := [⟨"x", box⟩] })]
    s.forget = s ∧
      (∃ methods, methods ≠ [] ∧
        t.session.catalog.memo.get? (⟨"Demo", "Box"⟩, "Each") = some methods ∧
        (t.engine.proxy ⟨1⟩).group = { name := "Each", methods }) ∧
      (∃ methods, methods ≠ [] ∧ (∀ m ∈ methods, m.isStatic = false ∧ m.name = "Go") ∧
        (t.engine.proxy ⟨0⟩).group = { name := "Go", methods }) ∧
      (t'.engine.types.methods box).length = 2 ∧
      (t'.engine.proxy ⟨0⟩).group = (t.engine.proxy ⟨0⟩).group ∧
      ∃ m, answer (Session.find thing "Go") t' = .ok m ∧ m.proxy = ⟨0⟩ := by
  intro box go each s thing t t'
  have hstart : s.forget = s := by
    have hengine : s.engine.forget = s.engine := by
      rw [Engine.forget, Array.map_empty]
    exact congrArg (fun engine => { s with engine }) hengine
  have hbuiltin : ∀ x ∈ s.session.strategies, x = .declared ∨ x = .extension := by
    intro x hx
    rcases List.mem_cons.1 hx with rfl | hx
    · exact .inl rfl
    · exact .inr (List.mem_singleton.1 hx)
  obtain ⟨hdeclared, hextension, hlate, hfind⟩ :
      t.session.catalog.interned.get? (.declared box "Go") = some ⟨0⟩ ∧
        t.session.catalog.interned.get? (.extension ⟨"Demo", "Box"⟩ "Each") = some ⟨1⟩ ∧
        (t'.engine.types.methods box).length = 2 ∧
        answer (Session.find thing "Go") t' = .ok ⟨.declared, ⟨0⟩, thing⟩ := by
    simp only [t', t, s, thing, each, go, box, SessionPlan.build, Strategy.defaults,
      Strategy.declared, Strategy.extension, Workspace.findExtension, ExtensionIndex.resolveOnce,
      ExtensionIndex.resolve, ExtensionIndex.find?, TypeSystem.declaredMethods?,
      TypeSystem.lineage_eq_within, TypeSystem.baseChain_eq_within]
    exact ⟨rfl, rfl, rfl, rfl⟩
  obtain ⟨hextensions, hdeclareds, hlater⟩ := interned_agree s hstart hbuiltin
    [.load "Demo", .ask (.find thing "Go"), .ask (.find thing "Each")]
  obtain ⟨hgroup, -, hproxy⟩ := hlater _ _ hdeclared
    [.changeTypes (.declare box { name := "Go", formals := [⟨"x", box⟩] })]
  exact ⟨hstart, hextensions _ _ _ hextension, hdeclareds _ _ _ hdeclared, hlate, hgroup, _, hfind,
    hproxy thing "Go" _ (.inl hfind) _ rfl BEq.rfl⟩

end SessionState

end LateBinding
