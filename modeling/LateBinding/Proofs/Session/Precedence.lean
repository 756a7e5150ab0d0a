import LateBinding.Proofs.Session.Events
import LateBinding.Proofs.Session.GenericExtension
import LateBinding.Proofs.TypeSystem.BaseChain

/-!
# Precedence in member lookup

With the strategies that the settings ask for, a declared member of the first type on the
receiver's base chain comes before every extension, and an extension is found where the chain has
nothing.  As long as the type tables stay as they are, neither what was looked up before nor what
is registered makes a difference to the first of these (`SessionState.find_precedence`).
-/

namespace LateBinding

theorem ExtensionIndex.resolveOnce_congr {ts ts' : TypeSystem} (h : ts'.types = ts.types)
    (ix : ExtensionIndex) : ix.resolveOnce ts' = ix.resolveOnce ts := by
  obtain ⟨types, namespaces, issued, substitutions⟩ := ts
  obtain ⟨types', namespaces', issued', substitutions'⟩ := ts'
  cases h
  rfl

/-- The kinds of members that settings ask for. -/
def MemberKind.defaults (settings : Settings) : List MemberKind :=
  if settings.extensionsEnabled then [.declared, .extension] else [.declared]

theorem Strategy.defaults_eq_map (settings : Settings) :
    Strategy.defaults settings = (MemberKind.defaults settings).map MemberKind.strategy := by
  unfold defaults MemberKind.defaults
  split <;> rfl

namespace Workspace

variable {ts : TypeSystem} {w : Workspace} {receiver : ForeignObject} {member : String}

/-- A lookup that answers with a member of the given kind whose proxy is over the given methods. -/
def FindsMember (w : Workspace) (receiver : ForeignObject) (member : String)
    (act : EStateM ResolutionError Workspace Member) (kind : MemberKind) (methods : List Method) :
    Prop :=
  ∃ id, answer act w = .ok ⟨kind, id, receiver⟩ ∧
    ((after act w).engine.proxy id).group = { name := member, methods }

/-- A member that is declared on the base chain is found before the other strategies are asked. -/
theorem firstOf_declared (h : w.InStep (· = ts.types)) {methods : List Method}
    (hm : ts.declaredMethods? receiver.ty member = some methods) (rest : List Strategy) :
    w.FindsMember receiver member
      (Strategy.firstOf (.declared :: rest) receiver member) .declared methods := by
  have hnow : w.engine.types.declaredMethods? receiver.ty member = some methods := by
    rw [TypeSystem.declaredMethods?_congr h.tables, hm]
  obtain ⟨id, hid⟩ := declared_find_of_some h hnow
  -- The proxy may be an old one; then its key stood for the same methods, on the same tables.
  obtain ⟨-, methods', hgroup, ts', hts', hm'⟩ :=
    hid.continues.inStep.interned.holds _ id hid.interned
  rw [TypeSystem.declaredMethods?_congr hts', hm] at hm'
  cases hm'
  refine ⟨id, ?_, ?_⟩
  · rw [Strategy.firstOf, answer_bind_of_ok hid.answer]
    rfl
  · rw [Strategy.firstOf, after_bind_of_ok hid.answer]
    exact hgroup

theorem firstOf_of_none (h : w.InStep (· = ts.types))
    (hm : ts.declaredMethods? receiver.ty member = none) (rest : List Strategy) :
    Strategy.firstOf (.declared :: rest) receiver member w =
      Strategy.firstOf rest receiver member w := by
  have hfind : Strategy.declared.find receiver member w = .ok none w := by
    refine declared_find_of_none ?_
    rw [TypeSystem.declaredMethods?_congr h.tables, hm]
  have hanswer : answer (Strategy.declared.find receiver member) w = .ok none := by
    rw [answer, hfind]
  have hafter : after (Strategy.declared.find receiver member) w = w := by
    rw [after, hfind]
  rw [Strategy.firstOf, bind_of_ok hanswer, hafter]

theorem FindsMember.of_eq {act act' : EStateM ResolutionError Workspace Member} {kind : MemberKind}
    {methods : List Method} (h : w.FindsMember receiver member act' kind methods)
    (hact : act w = act' w) : w.FindsMember receiver member act kind methods := by
  obtain ⟨id, hanswer, hgroup⟩ := h
  exact ⟨id, by rw [answer_congr hact, hanswer], by rw [after_congr hact, hgroup]⟩

/-- An extension that the memo or else the index has is found, in a proxy over just these
methods. -/
theorem firstOf_extension_of_ok (h : w.InStep (· = ts.types)) {methods : List Method}
    (hm : answer (w.catalog.index.resolveOnce ts receiver.ty member) w.catalog.memo = .ok methods)
    (rest : List Strategy) :
    w.FindsMember receiver member
      (Strategy.firstOf (.extension :: rest) receiver member) .extension methods := by
  rw [← ExtensionIndex.resolveOnce_congr h.tables] at hm
  obtain ⟨n, id, -, hid, hmemo⟩ := findExtension_of_ok h hm
  have hfind : answer (Strategy.extension.find receiver member) w =
      .ok (some ⟨.extension, id, receiver⟩) := by
    rw [answer_extension_find, hid.answer]
  obtain ⟨-, methods', hgroup, hstood⟩ := hid.continues.inStep.interned.holds _ id hid.interned
  have hsame : methods' = methods := Option.some.inj (hstood.symm.trans hmemo)
  refine ⟨id, ?_, ?_⟩
  · rw [Strategy.firstOf, answer_bind_of_ok hfind]
    rfl
  · rw [Strategy.firstOf, after_bind_of_ok hfind]
    show ((after (Strategy.extension.find receiver member) w).engine.proxy id).group = _
    rw [after_extension_find, hgroup, hsame]
    rfl

theorem firstOf_extension_of_error (h : w.InStep (· = ts.types)) {e : ResolutionError}
    (he : answer (w.catalog.index.resolveOnce ts receiver.ty member) w.catalog.memo = .error e) :
    answer (Strategy.firstOf [.extension] receiver member) w =
      .error (.noMember receiver.ty member) := by
  rw [← ExtensionIndex.resolveOnce_congr h.tables] at he
  obtain ⟨-, hanswer⟩ := findExtension_of_error h he
  have hfind : answer (Strategy.extension.find receiver member) w = .ok none := by
    rw [answer_extension_find, hanswer]
  rw [Strategy.firstOf, answer_bind_of_ok hfind]
  rfl

end Workspace

namespace SessionState

/-- A new session with the strategies that its settings ask for is in step. -/
theorem inStep_build (settings : Settings) (ts : TypeSystem) {e : Engine} (he : e.forget = e) :
    InStep (MemberKind.defaults settings) (· = e.types.types)
      ⟨({ settings } : SessionPlan).build ts, e⟩ := by
  obtain ⟨index, hindex⟩ := Session.exists_build_loadAll settings ts []
  have hbuild : ({ settings } : SessionPlan).build ts = Session.ofIndex settings index := hindex
  rw [hbuild]
  refine inStep_of_forget ?_ (Strategy.defaults_eq_map settings) rfl
  rw [Session.forget_ofIndex, he]

theorem find_of_findsMember {s : SessionState} {receiver : ForeignObject} {member : String}
    {kind : MemberKind} {methods : List Method}
    (h : s.workspace.FindsMember receiver member
      (Strategy.firstOf s.session.strategies receiver member) kind methods) :
    ∃ id, answer (Session.find receiver member) s = .ok ⟨kind, id, receiver⟩ ∧
      ((after (Session.find receiver member) s).engine.proxy id).group =
        { name := member, methods } := by
  obtain ⟨id, hanswer, hgroup⟩ := h
  have hafter : (after (Session.find receiver member) s).engine =
      (after (Strategy.firstOf s.session.strategies receiver member) s.workspace).engine :=
    congrArg SessionState.engine (after_run Session.workspacePart _ s)
  exact ⟨id, (answer_find s receiver member).trans hanswer, by rw [hafter, hgroup]⟩

/-- Precedence of members, from a new session on any type system, after any events that leave the
type tables as they are.  If some type on the receiver's base chain declares instance methods of the
name, a lookup finds the declared member, over just these methods of the first such type, whatever
extensions are known.  If no type does, it finds the extension member over what the memo or else the
index has for the receiver's type, unless extensions are disabled, and fails if there is nothing.
The search along the base chain ends on every type system and every type. -/
theorem find_precedence (settings : Settings) (ts : TypeSystem) (e : Engine) (he : e.forget = e)
    (events : List Event) (hevents : ∀ event ∈ events, event.changesTypes = false)
    (receiver : ForeignObject) (member : String) :
    let start : SessionState := ⟨({ settings } : SessionPlan).build ts, e⟩
    let s := start.follow events
    let found := answer (Session.find receiver member) s
    let later := after (Session.find receiver member) s
    let chain := e.types.ancestor? receiver.ty
    ((∃ k owner, chain k = some owner ∧ e.types.instanceMethods owner member ≠ []) →
        ∃ k owner id, chain k = some owner ∧ e.types.instanceMethods owner member ≠ [] ∧
          (∀ i < k, ∀ t, chain i = some t → e.types.instanceMethods t member = []) ∧
          found = .ok ⟨.declared, id, receiver⟩ ∧
          (later.engine.proxy id).group =
            { name := member, methods := e.types.instanceMethods owner member }) ∧
      ((∀ k owner, chain k = some owner → e.types.instanceMethods owner member = []) →
        if settings.extensionsEnabled then
          match answer (s.session.catalog.index.resolveOnce e.types receiver.ty member)
            s.session.catalog.memo with
          | .ok methods => ∃ id, found = .ok ⟨.extension, id, receiver⟩ ∧
            (later.engine.proxy id).group = { name := member, methods }
          | .error _ => found = .error (.noMember receiver.ty member)
        else found = .error (.noMember receiver.ty member)) ∧
      ∀ r, e.types.BaseSearch member [] (some receiver.ty) r ↔
        r = e.types.declaredMethods? receiver.ty member := by
  intro start s found later chain
  have hs : s.InStep (MemberKind.defaults settings) (· = e.types.types) :=
    (continues_follow (inStep_build settings ts he) events fun event hevent hchanges =>
      absurd hchanges (by rw [hevents event hevent]; decide)).inStep
  have hstrategies : s.session.strategies = Strategy.defaults settings :=
    hs.strategies.trans (Strategy.defaults_eq_map settings).symm
  refine ⟨fun ⟨k, owner, hk, hne⟩ => ?_, fun hnone => ?_, fun r =>
    TypeSystem.baseSearch_iff e.types receiver.ty member r⟩
  · have hsome : ∃ k, e.types.declaredAt? receiver.ty member k ≠ none :=
      ⟨k, fun hnone => hne (TypeSystem.declaredAt?_eq_none_iff.1 hnone owner hk)⟩
    obtain ⟨k, methods, hmethods, hfirst⟩ := TypeSystem.exists_first hsome
    obtain ⟨owner, howner, rfl, hne⟩ := TypeSystem.declaredAt?_eq_some_iff.1 hmethods
    obtain ⟨rest, hrest⟩ : ∃ rest, Strategy.defaults settings = .declared :: rest := by
      unfold Strategy.defaults
      split <;> exact ⟨_, rfl⟩
    have hdeclared := Workspace.firstOf_declared hs.workspace
      (TypeSystem.declaredMethods?_of_first hmethods hfirst) rest
    rw [← hrest, ← hstrategies] at hdeclared
    obtain ⟨id, hfound, hgroup⟩ := find_of_findsMember hdeclared
    exact ⟨k, owner, id, howner, hne,
      fun i hi => TypeSystem.declaredAt?_eq_none_iff.1 (hfirst i hi), hfound, hgroup⟩
  · have hmissing : e.types.declaredMethods? receiver.ty member = none :=
      TypeSystem.declaredMethods?_of_forall fun k =>
        TypeSystem.declaredAt?_eq_none_iff.2 (hnone k)
    have hskip := fun rest => Workspace.firstOf_of_none hs.workspace hmissing rest
    split
    · rename_i henabled
      rw [Strategy.defaults, if_pos henabled] at hstrategies
      split
      · rename_i methods hlookup
        have hextension := Workspace.firstOf_extension_of_ok hs.workspace hlookup []
        refine find_of_findsMember ?_
        rw [hstrategies]
        exact hextension.of_eq (hskip [.extension])
      · rename_i error hlookup
        show answer (Session.find receiver member) s = _
        rw [answer_find, hstrategies, answer_congr (hskip [.extension])]
        exact Workspace.firstOf_extension_of_error hs.workspace hlookup
    · rename_i hdisabled
      rw [Strategy.defaults, if_neg hdisabled] at hstrategies
      show answer (Session.find receiver member) s = _
      rw [answer_find, hstrategies, answer_congr (hskip [])]
      rfl

/-- Two types that are each other's base.  A static method and an extension of the same name do not
stand in the way of the instance method on the base type, and a name that neither type declares goes
to the extension or fails. -/
theorem find_precedence_cyclicChain :
    let a : Ty := .con ⟨"Demo", "A"⟩
    let b : Ty := .con ⟨"Demo", "B"⟩
    let defined := [
      { name := ⟨"Demo", "A"⟩, base := some b },
      { name := ⟨"Demo", "B"⟩, base := some a }].foldl TypeSystem.define {}
    let tools : Ty := .con ⟨"Demo", "Tools"⟩
    let extension (name : String) : Signature := {
      name, formals := [⟨"self", a⟩], isStatic := true, isExtension := true }
    let static := (defined.declare a { name := "Ping", isStatic := true }).2
    let ping := static.declare b { name := "Ping" }
    let shadowed := (ping.2.declare tools (extension "Ping")).2
    let tag := shadowed.declare tools (extension "Tag")
    let types := tag.2
    let receiver : ForeignObject := ⟨a, 3⟩
    let e : Engine := { types }
    let s := follow ⟨({} : SessionPlan).build types, e⟩ [.load "Demo"]
    let groupOf (member : String) (id : ProxyId) : MethodGroup :=
      ((after (Session.find receiver member) s).engine.proxy id).group
    types.ancestor? a 2 = some a ∧
      (∃ id, answer (Session.find receiver "Ping") s = .ok ⟨.declared, id, receiver⟩ ∧
        groupOf "Ping" id = { name := "Ping", methods := [ping.1] }) ∧
      (∃ id, answer (Session.find receiver "Tag") s = .ok ⟨.extension, id, receiver⟩ ∧
        groupOf "Tag" id = { name := "Tag", methods := [tag.1] }) ∧
      answer (Session.find receiver "Missing") s = .error (.noMember a "Missing") := by
  intro a b defined tools extension static ping shadowed tag types receiver e s groupOf
  have hengine : e.forget = e := by
    rw [Engine.forget, Array.map_empty]
  have hevents : ∀ event ∈ [Event.load "Demo"], event.changesTypes = false :=
    List.forall_mem_singleton.2 rfl
  have hbase : e.types.ancestor? a 1 = some b := by
    simp only [e, types, tag, shadowed, ping, static, extension, tools, defined, b, a]
    rfl
  have hcycle : e.types.ancestor? a 2 = some a := by
    simp only [e, types, tag, shadowed, ping, static, extension, tools, defined, b, a]
    rfl
  have hownA : e.types.instanceMethods a "Ping" = [] := by
    simp only [e, types, tag, shadowed, ping, static, extension, tools, defined, b, a]
    rfl
  have hownB : e.types.instanceMethods b "Ping" = [ping.1] := by
    simp only [e, types, tag, shadowed, ping, static, extension, tools, defined, b, a]
    rfl
  have hnone : e.types.declaredMethods? a "Tag" = none ∧
      e.types.declaredMethods? a "Missing" = none := by
    simp only [e, types, tag, shadowed, ping, static, extension, tools, defined, b, a,
      TypeSystem.declaredMethods?, TypeSystem.baseChain_eq_within]
    exact ⟨rfl, rfl⟩
  have hlookup : answer (s.session.catalog.index.resolveOnce e.types a "Tag")
      s.session.catalog.memo = .ok [tag.1] := by
    simp only [s, e, types, tag, shadowed, ping, static, extension, tools, defined, b, a,
      ExtensionIndex.resolveOnce, ExtensionIndex.resolve, ExtensionIndex.find?,
      TypeSystem.lineage_eq_within]
    rfl
  have hnoLookup : answer (s.session.catalog.index.resolveOnce e.types a "Missing")
      s.session.catalog.memo = .error (.noExtension a "Missing") := by
    simp only [s, e, types, tag, shadowed, ping, static, extension, tools, defined, b, a,
      ExtensionIndex.resolveOnce, ExtensionIndex.resolve, ExtensionIndex.find?,
      TypeSystem.lineage_eq_within]
    rfl
  have hundeclared : ∀ member, e.types.declaredMethods? a member = none → ∀ k owner,
      e.types.ancestor? a k = some owner → e.types.instanceMethods owner member = [] :=
    fun member hmember k => TypeSystem.declaredAt?_eq_none_iff.1
      (TypeSystem.declaredMethods?_eq_none_iff.1 hmember k)
  obtain ⟨hping, -, -⟩ := find_precedence {} types e hengine [.load "Demo"] hevents receiver "Ping"
  obtain ⟨-, htag, -⟩ := find_precedence {} types e hengine [.load "Demo"] hevents receiver "Tag"
  obtain ⟨-, hmissing, -⟩ :=
    find_precedence {} types e hengine [.load "Demo"] hevents receiver "Missing"
  obtain ⟨k, owner, id, howner, hne, hfirst, hfound, hgroup⟩ :=
    hping ⟨1, b, hbase, by rw [hownB]; exact List.cons_ne_nil _ _⟩
  have hk : k = 1 := by
    rcases Nat.lt_trichotomy k 1 with hlt | heq | hgt
    · obtain rfl : k = 0 := by omega
      cases howner
      exact absurd hownA hne
    · exact heq
    · have hnil := hfirst 1 hgt b hbase
      rw [hownB] at hnil
      cases hnil
  subst hk
  obtain rfl : owner = b := Option.some.inj (howner.symm.trans hbase)
  rw [hownB] at hgroup
  have htag := htag (hundeclared "Tag" hnone.1)
  have hmissing := hmissing (hundeclared "Missing" hnone.2)
  rw [if_pos rfl] at htag hmissing
  refine ⟨hcycle, ⟨id, hfound, hgroup⟩, ?_, ?_⟩
  · split at htag
    · rename_i methods hmethods
      cases hmethods.symm.trans hlookup
      exact htag
    · rename_i error herror
      cases herror.symm.trans hlookup
  · split at hmissing
    · rename_i methods hmethods
      cases hmethods.symm.trans hnoLookup
    · exact hmissing

end SessionState

end LateBinding
