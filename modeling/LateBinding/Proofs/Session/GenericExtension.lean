import LateBinding.Proofs.Resolution.Agreement
import LateBinding.Proofs.Session.Caching

/-!
# Generic extensions on every instantiation

A session that has been told of some namespaces knows a generic extension method as the only
candidate of a definition and a member.  Then the method is called on every instantiation of that
definition, closed over the type arguments that the receiver and the arguments fit
(`Session.call_of_genericExtension`).  Nothing that the session is asked before stands in the way.
-/

namespace LateBinding

/-! ## The methods that answer -/

namespace TypeSystem

variable {ts : TypeSystem} {n : TypeName} {member : String}

/-- Static methods leave a member to extensions. -/
theorem declaredMethods?_eq_none {ty : Ty} (hn : ty.name? = some n)
    (hstatic : ∀ k ∈ ts.baseChain n, ∀ d ∈ ts.methods (.con k), d.name = member → d.isStatic) :
    ts.declaredMethods? ty member = none := by
  rw [declaredMethods?, hn, Option.bind_some, List.findSome?_eq_none_iff]
  intro k hk
  have hnil : (ts.methods (.con k)).filter (fun m => !m.isStatic && m.name == member) = [] := by
    rw [List.filter_eq_nil_iff]
    intro d hd hdeclared
    simp only [Bool.and_eq_true, Bool.not_eq_true', beq_iff_eq] at hdeclared
    rw [hstatic k hk d hd hdeclared.2] at hdeclared
    cases hdeclared.1
  rw [hnil]

end TypeSystem

/-- Candidates of the definition itself come before all others. -/
theorem ExtensionIndex.find?_of_lookup? {ix : ExtensionIndex} {n : TypeName} {member : String}
    {methods : List Method} (h : ix.lookup? n member = some methods) (ts : TypeSystem) :
    ix.find? ts n member = some methods := by
  rw [find?, TypeSystem.lineage, preorder_cons_of_mem (TypeSystem.mem_namesFrom_self ts n),
    List.findSome?_cons, h]
  rfl

/-- An extension method on applications of `n`, generic in parameters that all occur in its
formals. -/
structure Method.GenericExtension (m : Method) (n : TypeName) : Prop where
  generic : m.isGeneric = true
  receiver : ∃ self parameters, m.receiverFormal? = some ⟨self, .app n parameters⟩
  mentioned : ∀ p ∈ m.generics, ∃ t ∈ m.formalTypes, t.mentions p.id = true

/-- The first of the formals is an application of the extended definition. -/
theorem Method.GenericExtension.formalTypes {m : Method} {n : TypeName}
    (h : m.GenericExtension n) : ∃ parameters rest, m.formalTypes = .app n parameters :: rest := by
  obtain ⟨self, parameters, hreceiver⟩ := h.receiver
  unfold receiverFormal? at hreceiver
  split at hreceiver
  · obtain ⟨rest, hformals⟩ := List.head?_eq_some_iff.1 hreceiver
    exact ⟨parameters, rest.map (·.ty), by rw [Method.formalTypes, hformals, List.map_cons]⟩
  · cases hreceiver

/-- A call with arguments of the formal types, with admitted type arguments put in, of a group that
has no other method. -/
theorem TypeSystem.argumentOutcome_of_admits {ts : TypeSystem} {m : Method} {g : MethodGroup}
    {typeArgs argTypes : List Ty} (hg : g.methods = [m]) (hgeneric : m.isGeneric = true)
    (hnumbered : Numbered m.generics)
    (hmentioned : ∀ p ∈ m.generics, ∃ t ∈ m.formalTypes, t.mentions p.id = true)
    (hadmits : ts.Admits m typeArgs)
    (hargs : (m.formalTypes.map (Ty.subst typeArgs) == argTypes) = true) (policy : MissPolicy) :
    ts.argumentOutcome g policy argTypes = .ok (.closed (m.close typeArgs)) := by
  refine argumentOutcome_of_beq hargs ?_
  have hslots := Method.inferSlots_subst hnumbered hadmits.length hmentioned
  have hcount : (m.formalTypes.map (Ty.subst typeArgs)).length = m.arity := by
    rw [List.length_map, Method.length_formalTypes]
  rw [argumentOutcome_of_isFirst (MethodGroup.isFirst_of_sole hg) hgeneric hcount
    (Method.infer_eq_ok_iff.2 hslots), closing_eq_ok_iff.2 ⟨⟨hgeneric, hadmits⟩, rfl⟩]
  rfl

/-- A call of an extension member passes the receiver in front, and leaves the target unbound. -/
theorem Member.called_extension {ts : TypeSystem} {p : Proxy} {receiver : ForeignObject}
    {args : List Value} {c : Method}
    (h : ts.argumentOutcome p.group p.policy (receiver.ty :: args.map p.typing.typeOf) =
      .ok (.closed c)) :
    called .extension receiver ts p args =
      .ok { target := .method c none, args := .foreign receiver :: args } := by
  unfold called Proxy.callTarget
  simp only [fullArgs, boundReceiver, List.map_cons, ValueTyping.typeOf, h]
  rfl

/-- An extension is found when no declared method is. -/
theorem Workspace.foundFirst_extension {w : Workspace} {receiver : ForeignObject} {n : TypeName}
    {member : String} {methods : List Method} (hn : receiver.ty.name? = some n)
    (hdeclared : w.engine.types.declaredMethods? receiver.ty member = none)
    (hextension : w.catalog.index.find? w.engine.types n member = some methods) :
    w.foundFirst receiver member [.declared, .extension] =
      .ok ⟨.extension, receiver, w.catalog.newProxy { name := member, methods }⟩ := by
  simp only [foundFirst, List.findSome?_cons, found?, methods?, hdeclared, hn, Option.bind_some,
    hextension, Option.map_none, Option.map_some]

/-! ## New sessions -/

namespace Session

/-- A session that is told of namespaces, each in the type system of its moment. -/
def loadAll (s : Session) (loads : List (TypeSystem × String)) : Session :=
  loads.foldl (fun s (ts, ns) => (s.load ts ns).2) s

/-- The session that has some settings and knows an index, and has not been asked for anything. -/
def ofIndex (settings : Settings) (index : ExtensionIndex) : Session where
  catalog := { Catalog.ofSettings settings with index }
  strategies := Strategy.defaults settings

theorem forget_ofIndex (settings : Settings) (index : ExtensionIndex) (e : Engine) :
    (⟨ofIndex settings index, e⟩ : SessionState).forget = ⟨ofIndex settings index, e.forget⟩ := rfl

theorem exists_load_ofIndex (settings : Settings) (index : ExtensionIndex) (ts : TypeSystem)
    (ns : String) :
    ∃ index', ((ofIndex settings index).load ts ns).2 = ofIndex settings index' := by
  cases h : settings.extensionsEnabled with
  | true =>
    refine ⟨(index.scan ts ns).2, ?_⟩
    simp [load, Catalog.load, ofIndex, Catalog.ofSettings, h]
  | false =>
    refine ⟨index, ?_⟩
    simp [load, Catalog.load, ofIndex, Catalog.ofSettings, h]

theorem exists_loadAll_ofIndex (settings : Settings) (index : ExtensionIndex)
    (loads : List (TypeSystem × String)) :
    ∃ index', (ofIndex settings index).loadAll loads = ofIndex settings index' := by
  induction loads generalizing index with
  | nil => exact ⟨index, rfl⟩
  | cons l ls ih =>
    obtain ⟨ts, ns⟩ := l
    obtain ⟨index', hload⟩ := exists_load_ofIndex settings index ts ns
    show ∃ index', ((ofIndex settings index).load ts ns).2.loadAll ls = ofIndex settings index'
    rw [hload]
    exact ih index'

theorem loadAll_map (s : Session) (ts : TypeSystem) (namespaces : List String) :
    s.loadAll (namespaces.map (ts, ·)) =
      { s with catalog := namespaces.foldl (fun c ns => (c.load ts ns).2) s.catalog } := by
  induction namespaces generalizing s with
  | nil => rfl
  | cons ns rest ih => exact ih (s.load ts ns).2

/-- Preloading is loading. -/
theorem build_eq_loadAll (settings : Settings) (ts : TypeSystem) :
    ({ settings } : SessionPlan).build ts =
      (ofIndex settings (Catalog.ofSettings settings).index).loadAll
        (settings.preload.map (ts, ·)) := by
  rw [loadAll_map]
  rfl

/-- A new session that is told of namespaces knows an index, and nothing more. -/
theorem exists_build_loadAll (settings : Settings) (ts : TypeSystem)
    (loads : List (TypeSystem × String)) :
    ∃ index, (({ settings } : SessionPlan).build ts).loadAll loads = ofIndex settings index := by
  obtain ⟨preloaded, hbuild⟩ := exists_loadAll_ofIndex settings (Catalog.ofSettings settings).index
    (settings.preload.map (ts, ·))
  rw [build_eq_loadAll, hbuild]
  exact exists_loadAll_ofIndex settings preloaded loads

/-! ## Calls -/

open SessionState

/-- What a lookup with a call answers. -/
theorem answer_call {kinds : List MemberKind} {s : SessionState} (hs : s.Sound kinds)
    (receiver : ForeignObject) (member : String) (args : List Value) :
    answer (call receiver member args) s =
      s.workspace.foundFirst receiver member kinds >>= fun m =>
        Member.called m.kind m.receiver s.workspace.engine.types m.proxy args := by
  have hcall := (Workspace.yields_call hs.workspace kinds receiver member args).answer
  have hact : call receiver member args s = workspacePart.run
      (Strategy.firstOf (kinds.map MemberKind.strategy) receiver member >>= fun m =>
        Workspace.enginePart.run (m.call args)) s := by
    rw [← hs.strategies]
    exact run_bind _ _ s
  rw [← hcall, answer_congr hact, answer_run]
  exact (congrFun Except.map_id _).symm

/-- A generic extension works on every instantiation of the definition it extends.  A new session is
told of namespaces until its index has the method as the only candidate, and is then asked for
anything in any order.  If the types of a receiver and of the arguments are the formals with
admitted type arguments put in, and no instance method has the name, then a call at this point aims
at the method closed over just these type arguments.  The target is not bound, and the receiver is
passed in front of the arguments. -/
theorem call_of_genericExtension (settings : Settings) (ts₀ : TypeSystem)
    (loads : List (TypeSystem × String)) (engine : Engine) (declaredIn : TypeSystem) (owner : Ty)
    (name : String) (clauses : List Signature.Clause) (n : TypeName) (typeArgs : List Ty)
    (requests : List Request) (receiver : ForeignObject) (args : List Value) :
    let m := (declaredIn.declare owner (.ofClauses name clauses)).1
    let session := (({ settings } : SessionPlan).build ts₀).loadAll loads
    let argTypes := receiver.ty :: args.map (ValueTyping.ofNames settings.typeNames).typeOf
    let c := m.close typeArgs
    settings.extensionsEnabled →
    engine.forget = engine →
    m.GenericExtension n →
    session.catalog.index.lookup? n m.name = some [m] →
    engine.types.Admits m typeArgs →
    m.formalTypes.map (Ty.subst typeArgs) == argTypes →
    (∀ k ∈ engine.types.baseChain n, ∀ d ∈ engine.types.methods (.con k),
      d.name = m.name → d.isStatic) →
    answer (call receiver m.name args) (run requests ⟨session, engine⟩) =
        .ok { target := .method c none, args := .foreign receiver :: args } ∧
      c.typeArgs = typeArgs ∧ c.formalTypes = m.formalTypes.map (Ty.subst typeArgs) ∧
      c.formalTypes == argTypes := by
  intro m session argTypes c
  obtain ⟨index, hsession⟩ : ∃ index, session = ofIndex settings index :=
    exists_build_loadAll settings ts₀ loads
  clear_value session
  subst hsession
  intro henabled hengine hm hlookup hadmits hargs hstatic
  have hstart :
      (⟨ofIndex settings index, engine⟩ : SessionState).Sound [.declared, .extension] := by
    rw [← hengine, ← forget_ofIndex]
    refine Sound.forget ?_
    show Strategy.defaults settings = _
    rw [Strategy.defaults, if_pos henabled]
    rfl
  have hgrows := grows_run hstart requests
  have hname : receiver.ty.name? = some n := by
    obtain ⟨parameters, rest, hformals⟩ := hm.formalTypes
    rw [hformals, List.map_cons, List.cons_beq_cons, Bool.and_eq_true] at hargs
    rw [← Ty.name?_congr hargs.1, Ty.subst, Ty.name?]
  have hfound := Workspace.foundFirst_extension
    (w := SessionState.workspace ⟨ofIndex settings index, engine⟩) hname
    (TypeSystem.declaredMethods?_eq_none hname hstatic)
    (ExtensionIndex.find?_of_lookup? hlookup engine.types)
  have hcall : answer (call receiver m.name args) (run requests ⟨ofIndex settings index, engine⟩) =
      .ok { target := .method c none, args := .foreign receiver :: args } := by
    -- The requests left the tables as they were, so the lookup is that of the start.
    rw [answer_call hgrows.sound, hgrows.workspace.foundFirst, hfound]
    show Member.called _ _ _ _ _ = _
    rw [Member.called_congr hgrows.workspace.engine.tables]
    exact Member.called_extension (TypeSystem.argumentOutcome_of_admits rfl hm.generic
      (Signature.numbered_ofClauses name clauses) hm.mentioned hadmits hargs _)
  have hformals : c.formalTypes = m.formalTypes.map (Ty.subst typeArgs) :=
    Method.formalTypes_close m typeArgs
  exact ⟨hcall, rfl, hformals, by rw [hformals]; exact hargs⟩

/-- A method with a constraint and a second formal, called on one instantiation after another. -/
theorem call_of_genericExtension_secondInstantiation :
    let shape : Ty := .con ⟨"Demo", "IShape"⟩
    let ring : Ty := .con ⟨"Demo", "Ring"⟩
    let disc : Ty := .con ⟨"Demo", "Disc"⟩
    let box (ty : Ty) : Ty := .app ⟨"Demo", "Box"⟩ [ty]
    let t : Ty := .param ⟨"T", 0, .method⟩ []
    let defined := [
      { name := ⟨"Demo", "Box"⟩, parameters := some ["T"] },
      { name := ⟨"Demo", "Ring"⟩, interfaces := [shape] },
      { name := ⟨"Demo", "Disc"⟩, interfaces := [shape] }].foldl TypeSystem.define {}
    let owner : Ty := .con ⟨"Demo", "Boxes"⟩
    let clauses : List Signature.Clause := [.generic ["T"], .constrain "T" shape,
      .formal "self" (box t), .formal "other" t, .returns t, .extension]
    let m := (defined.declare owner (.ofClauses "Or" clauses)).1
    let types := (defined.declare owner (.ofClauses "Or" clauses)).2
    let session := (({} : SessionPlan).build types).loadAll [(types, "Demo")]
    let boxOf (ty : Ty) : ForeignObject := ⟨box ty, 1⟩
    let one (ty : Ty) : Value := .foreign ⟨ty, 2⟩
    let second := answer (call (boxOf disc) "Or" [one disc])
      (run [.call (boxOf ring) "Or" [one ring]] ⟨session, { types }⟩)
    session.catalog.index.lookup? ⟨"Demo", "Box"⟩ "Or" = some [m] ∧
      types.Admits m [disc] ∧
      second = .ok {
        target := .method (m.close [disc]) none
        args := [.foreign (boxOf disc), one disc] } ∧
      (m.close [disc]).formalTypes == [box disc, disc] := by
  intro shape ring disc box t defined owner clauses m types session boxOf one second
  have hsatisfies : types.satisfies disc shape = true := by
    simp only [types, defined, owner, clauses, disc, shape, box, t, TypeSystem.satisfies,
      TypeSystem.implements_eq_within]
    rfl
  have hchain : types.baseChain ⟨"Demo", "Box"⟩ = [⟨"Demo", "Box"⟩] := by
    simp only [types, defined, owner, clauses, shape, box, t, TypeSystem.baseChain_eq_within]
    rfl
  have hm : m.GenericExtension ⟨"Demo", "Box"⟩ :=
    ⟨rfl, ⟨"self", [.param ⟨"T", 0, .method⟩ []], rfl⟩, by decide⟩
  have hlookup : session.catalog.index.lookup? ⟨"Demo", "Box"⟩ m.name = some [m] := by
    simp only [session, m, types, defined, owner, clauses, shape, box, t]
    rfl
  have hadmits : types.Admits m [disc] := by
    refine ⟨rfl, by decide, by decide, ?_⟩
    exact List.forall_mem_singleton.2 (List.forall_mem_singleton.2 hsatisfies)
  have hargs : m.formalTypes.map (Ty.subst [disc]) == [box disc, disc] := by decide
  have hmethods : types.methods (.con ⟨"Demo", "Box"⟩) = [] := by
    simp only [types, defined, owner, clauses, shape, box, t]
    rfl
  have hstatic : ∀ k ∈ types.baseChain ⟨"Demo", "Box"⟩, ∀ d ∈ types.methods (.con k),
      d.name = m.name → d.isStatic := by
    rw [hchain, List.forall_mem_singleton, hmethods]
    exact List.forall_mem_nil _
  have hengine : ({ types } : Engine).forget = { types } := by
    rw [Engine.forget, Array.map_empty]
  obtain ⟨hcall, -, -, hformals⟩ := call_of_genericExtension {} types [(types, "Demo")] { types }
    defined owner "Or" clauses ⟨"Demo", "Box"⟩ [disc] [.call (boxOf ring) "Or" [one ring]]
    (boxOf disc) [one disc] rfl hengine hm hlookup hadmits hargs hstatic
  exact ⟨hlookup, hadmits, hcall, hformals⟩

end Session

end LateBinding
