import LateBinding.Proofs.Session.Workspace

/-!
# What member lookup finds

From a sound workspace every built-in strategy finds what the tables say (`Workspace.found?`), in a
proxy that is new up to its caches; so does a list of such strategies
(`Workspace.yields_firstOf`).
-/

namespace LateBinding

/-- A member with its proxy in place of the identifier, the caches left out. -/
structure Member.View where
  kind : MemberKind
  receiver : ForeignObject
  proxy : Proxy

/-- A member as it is seen in an engine. -/
def Member.view (e : Engine) (m : Member) : Member.View :=
  ⟨m.kind, m.receiver, (e.proxy m.proxy).forget⟩

/-- The built-in strategy that finds members of a kind. -/
def MemberKind.strategy : MemberKind → Strategy
  | .declared => .declared
  | .extension => .extension

namespace Workspace

/-- The methods of a kind that the tables have for a member. -/
def methods? (w : Workspace) (receiver : ForeignObject) (member : String) :
    MemberKind → Option (List Method)
  | .declared => w.engine.types.declaredMethods? receiver.ty member
  | .extension => receiver.ty.name?.bind (w.catalog.index.find? w.engine.types · member)

/-- The member of a kind that is found, as it is seen. -/
def found? (w : Workspace) (receiver : ForeignObject) (member : String) (kind : MemberKind) :
    Option Member.View :=
  (w.methods? receiver member kind).map fun methods =>
    ⟨kind, receiver, w.catalog.newProxy { name := member, methods }⟩

/-- The first member that is found by kinds in order, or the failure. -/
def foundFirst (w : Workspace) (receiver : ForeignObject) (member : String)
    (kinds : List MemberKind) : Except ResolutionError Member.View :=
  match kinds.findSome? (w.found? receiver member) with
  | some found => .ok found
  | none => .error (.noMember receiver.ty member)

variable {w w' : Workspace} {receiver : ForeignObject} {member : String}

theorem Extends.found? (h : w.Extends w') (kind : MemberKind) :
    w'.found? receiver member kind = w.found? receiver member kind := by
  have hmethods : w'.methods? receiver member kind = w.methods? receiver member kind := by
    cases kind with
    | declared => exact TypeSystem.declaredMethods?_congr h.engine.tables _ _
    | extension =>
      simp only [methods?, h.index, ExtensionIndex.find?_congr h.engine.tables]
  simp only [Workspace.found?, hmethods, h.newProxy]

theorem Extends.foundFirst (h : w.Extends w') (kinds : List MemberKind) :
    w'.foundFirst receiver member kinds = w.foundFirst receiver member kinds := by
  have hfound : w'.found? receiver member = w.found? receiver member := funext h.found?
  rw [Workspace.foundFirst, hfound, Workspace.foundFirst]

/-! ## Interned proxies -/

theorem after_proxyFor (key : ProxyKey) (g : MethodGroup) (w : Workspace) :
    after (proxyFor key g : EStateM ResolutionError Workspace ProxyId) w =
      internedPart.put (after (OnceMap.demandApart key
        (Engine.add (w.catalog.newProxy g) : EStateM ResolutionError Engine ProxyId))
          (w.catalog.interned, w.engine)) w := by
  rw [proxyFor, after_bind, answer_get, after_get]
  exact after_run internedPart _ w

theorem answer_proxyFor (key : ProxyKey) (g : MethodGroup) (w : Workspace) :
    answer (proxyFor key g : EStateM ResolutionError Workspace ProxyId) w =
      answer (OnceMap.demandApart key
        (Engine.add (w.catalog.newProxy g) : EStateM ResolutionError Engine ProxyId))
          (w.catalog.interned, w.engine) := by
  rw [proxyFor, answer_bind, answer_get, after_get]
  exact answer_run internedPart _ w

/-- The proxy of a key is over its group, whether it was made now or before. -/
theorem proxyFor_spec (hw : w.Sound) {key : ProxyKey} {g : MethodGroup}
    (hg : key.group? w.catalog.index w.engine.types = some g) :
    Grows w (proxyFor key g) ∧
      ∃ id, answer (proxyFor key g : EStateM ResolutionError Workspace ProxyId) w = .ok id ∧
        ((after (proxyFor key g : EStateM ResolutionError Workspace ProxyId) w).engine.proxy
          id).forget = w.catalog.newProxy g := by
  cases hkey : w.catalog.interned.get? key with
  | some id =>
    obtain ⟨-, g', hg', hproxy⟩ := hw.interned.holds key id hkey
    rw [hg] at hg'
    cases hg'
    have hafter : after (proxyFor key g : EStateM ResolutionError Workspace ProxyId) w = w := by
      rw [after_proxyFor, OnceMap.demandApart, OnceMap.after_demand_of_get? hkey]
      rfl
    have hanswer :
        answer (proxyFor key g : EStateM ResolutionError Workspace ProxyId) w = .ok id := by
      rw [answer_proxyFor, OnceMap.demandApart, OnceMap.answer_demand_of_get? hkey]
    exact ⟨⟨by rwa [hafter], by rw [hafter]; exact .refl w⟩, id, hanswer, by rw [hafter, hproxy]⟩
  | none =>
    let proxy := w.catalog.newProxy g
    let e := after (Engine.add proxy : EStateM ResolutionError Engine ProxyId) w.engine
    let demand :=
      OnceMap.demandApart key (Engine.add proxy : EStateM ResolutionError Engine ProxyId)
    have hgrows : w.engine.Extends e := Engine.extends_add proxy w.engine
    have hsound : e.Sound := hw.engine.add (Proxy.sound_forget _ proxy)
    have hsize : w.engine.proxies.size < e.proxies.size :=
      Engine.size_lt_after_add proxy w.engine
    have hnew : e.proxy ⟨w.engine.proxies.size⟩ = proxy := by
      rw [Engine.proxy_after_add, if_pos rfl]
    have hengine : (after demand (w.catalog.interned, w.engine)).2 = e := by
      rw [OnceMap.after_demandApart_snd, hkey]
    have hw' := hw.of_engine hsound hgrows
    have hinterned := hw'.interned.after_demandApart (τ := Engine)
      (fun k k' id hk hid => by rwa [← ProxyKey.group?_of_beq hk]) key
      (Engine.add proxy : EStateM ResolutionError Engine ProxyId) w.engine (fun id hid => by
        rw [Engine.answer_add] at hid
        cases hid
        refine ⟨hsize, g, ?_, ?_⟩
        · rw [ProxyKey.group?_congr hgrows.tables, hg]
        · rw [hnew]
          rfl)
    have hafter : after (proxyFor key g : EStateM ResolutionError Workspace ProxyId) w =
        { catalog := { w.catalog with
            interned := (after demand (w.catalog.interned, w.engine)).1 }
          engine := e } := by
      rw [after_proxyFor, ← hengine]
      rfl
    have hanswer : answer (proxyFor key g : EStateM ResolutionError Workspace ProxyId) w =
        .ok ⟨w.engine.proxies.size⟩ := by
      rw [answer_proxyFor, OnceMap.answer_demandApart, hkey]
      rfl
    refine ⟨⟨?_, ?_⟩, _, hanswer, ?_⟩
    · rw [hafter]
      exact ⟨hsound, hw'.memo, hinterned⟩
    · rw [hafter]
      exact ⟨rfl, rfl, rfl, hgrows⟩
    · rw [hafter, hnew]
      rfl

/-! ## The built-in strategies -/

/-- A member made for a key is seen with the group of the key. -/
theorem yields_proxyFor (hw : w.Sound) {key : ProxyKey} {g : MethodGroup}
    (hg : key.group? w.catalog.index w.engine.types = some g) (kind : MemberKind)
    (receiver : ForeignObject) {view : Engine → β → γ} (next : Member → β)
    (found : Member.View → γ) (hview : ∀ e m, view e (next m) = found (m.view e)) :
    Yields w (proxyFor key g >>= fun id => pure (next ⟨kind, id, receiver⟩)) view
      (.ok (found ⟨kind, receiver, w.catalog.newProxy g⟩)) := by
  obtain ⟨hgrows, id, hanswer, hproxy⟩ := proxyFor_spec hw hg
  refine hgrows.bind_of_ok hanswer ?_
  rw [← hproxy]
  have hpure : Yields _ (pure (next ⟨kind, id, receiver⟩)) view _ := yields_pure hgrows.sound _
  rwa [hview] at hpure

theorem yields_declared (hw : w.Sound) (receiver : ForeignObject) (member : String) :
    Yields w (Strategy.declared.find receiver member) (fun e => Option.map (Member.view e))
      (.ok (w.found? receiver member .declared)) := by
  refine (grows_get hw).bind_of_ok (answer_get w) ?_
  rw [after_get, found?, methods?]
  cases hmethods : w.engine.types.declaredMethods? receiver.ty member with
  | none => exact yields_pure hw none
  | some methods =>
    have hg : (ProxyKey.declared receiver.ty member).group? w.catalog.index w.engine.types =
        some { name := member, methods } := by
      rw [ProxyKey.group?, ProxyKey.methods?, hmethods]
      rfl
    exact yields_proxyFor hw hg .declared receiver some some fun _ _ => rfl

theorem grows_resolveOnce (hw : w.Sound) (ty : Ty) (member : String) :
    Grows w (memoPart.run (w.catalog.index.resolveOnce w.engine.types ty member)) := by
  refine ⟨?_, ?_⟩
  · rw [after_run]
    exact ⟨hw.engine, hw.memo.after_resolveOnce ty member, hw.interned⟩
  · rw [after_run]
    exact ⟨rfl, rfl, rfl, .refl _⟩

/-- The extension member of a receiver, or the failure. -/
def foundExtension (w : Workspace) (receiver : ForeignObject) (member : String) :
    Except ResolutionError Member.View :=
  match w.found? receiver member .extension with
  | some found => .ok found
  | none => .error (.noExtension receiver.ty member)

theorem yields_findExtension (hw : w.Sound) (receiver : ForeignObject) (member : String) :
    Yields w (findExtension receiver member) Member.view (w.foundExtension receiver member) := by
  unfold findExtension foundExtension found? methods?
  cases hn : receiver.ty.name? with
  | none => exact ⟨⟨hw, .refl w⟩, rfl⟩
  | some n =>
    refine (grows_get hw).bind_of_ok (answer_get w) ?_
    rw [after_get]
    have hgrows := grows_resolveOnce hw receiver.ty member
    have hanswer : answer
        (memoPart.run (w.catalog.index.resolveOnce w.engine.types receiver.ty member)) w =
          w.catalog.index.resolve w.engine.types receiver.ty member := by
      rw [answer_run]
      exact hw.memo.answer_resolveOnce receiver.ty member
    rw [ExtensionIndex.resolve, hn, Option.bind_some] at hanswer
    rw [Option.bind_some]
    cases hfind : w.catalog.index.find? w.engine.types n member with
    | none =>
      rw [hfind] at hanswer
      exact hgrows.bind_of_error hanswer
    | some methods =>
      rw [hfind] at hanswer
      refine hgrows.bind_of_ok hanswer ?_
      have hsound := hgrows.sound
      rw [after_run] at hsound ⊢
      have hg : (ProxyKey.extension n member).group? w.catalog.index w.engine.types =
          some { name := member, methods } := by
        rw [ProxyKey.group?, ProxyKey.methods?, hfind]
        rfl
      exact yields_proxyFor hsound hg .extension receiver id id fun _ _ => rfl

theorem after_extension_find (receiver : ForeignObject) (member : String) (w : Workspace) :
    after (Strategy.extension.find receiver member) w =
      after (findExtension receiver member) w := by
  simp only [after, Strategy.extension]
  cases findExtension receiver member w with
  | ok m w' => rfl
  | error e w' => cases e <;> rfl

theorem answer_extension_find (receiver : ForeignObject) (member : String) (w : Workspace) :
    answer (Strategy.extension.find receiver member) w =
      match answer (findExtension receiver member) w with
      | .ok m => .ok (some m)
      | .error (.noExtension _ _) => .ok none
      | .error e => .error e := by
  simp only [answer, Strategy.extension]
  cases findExtension receiver member w with
  | ok m w' => rfl
  | error e w' => cases e <;> rfl

theorem yields_extension (hw : w.Sound) (receiver : ForeignObject) (member : String) :
    Yields w (Strategy.extension.find receiver member) (fun e => Option.map (Member.view e))
      (.ok (w.found? receiver member .extension)) := by
  have hfind := yields_findExtension hw receiver member
  refine ⟨⟨?_, ?_⟩, ?_⟩
  · rw [after_extension_find]
    exact hfind.sound
  · rw [after_extension_find]
    exact hfind.grows
  · rw [after_extension_find, answer_extension_find]
    have hanswer := hfind.answer
    unfold foundExtension at hanswer
    cases hresult : answer (findExtension receiver member) w with
    | ok m =>
      rw [hresult] at hanswer
      cases hfound : w.found? receiver member .extension with
      | none => rw [hfound] at hanswer; cases hanswer
      | some found => rw [hfound] at hanswer; cases hanswer; rfl
    | error e =>
      rw [hresult] at hanswer
      cases hfound : w.found? receiver member .extension with
      | none => rw [hfound] at hanswer; cases hanswer; rfl
      | some found => rw [hfound] at hanswer; cases hanswer

theorem yields_strategy (hw : w.Sound) (receiver : ForeignObject) (member : String)
    (kind : MemberKind) :
    Yields w (kind.strategy.find receiver member) (fun e => Option.map (Member.view e))
      (.ok (w.found? receiver member kind)) := by
  cases kind with
  | declared => exact yields_declared hw receiver member
  | extension => exact yields_extension hw receiver member

/-- Built-in strategies in order find the first member that the tables have for one of them. -/
theorem yields_firstOf (hw : w.Sound) (receiver : ForeignObject) (member : String)
    (kinds : List MemberKind) :
    Yields w (Strategy.firstOf (kinds.map MemberKind.strategy) receiver member) Member.view
      (w.foundFirst receiver member kinds) := by
  induction kinds generalizing w with
  | nil => exact ⟨⟨hw, .refl w⟩, rfl⟩
  | cons kind kinds ih =>
    have hfind := yields_strategy hw receiver member kind
    have hanswer := hfind.answer
    rw [List.map_cons, Strategy.firstOf]
    cases hresult : answer (kind.strategy.find receiver member) w with
    | error e =>
      rw [hresult] at hanswer
      cases hanswer
    | ok result =>
      rw [hresult] at hanswer
      have hfound : w.found? receiver member kind = result.map (Member.view _) :=
        (Except.ok.inj hanswer).symm
      refine hfind.toGrows.bind_of_ok hresult ?_
      rw [foundFirst, List.findSome?_cons, hfound]
      cases result with
      | some m => exact yields_pure hfind.sound m
      | none =>
        have hrest := ih hfind.sound
        rwa [hfind.grows.foundFirst] at hrest

end Workspace

end LateBinding
