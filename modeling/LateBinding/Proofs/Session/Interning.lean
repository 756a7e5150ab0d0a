import LateBinding.Proofs.Session.Retention

/-!
# Interned proxies

A session keeps a memo of extension lookups and a table of proxies, each with keys of its own.
`Workspace.InStep` says how the two agree: an interned proxy is over the methods that its key has
stood for, and for an extension member these are the remembered ones.  The built-in strategies keep
a workspace in step and retain what it has, and a member that they find has the proxy that is
interned for its key (`Workspace.seeks_firstOf`).  The extension index takes no part in this, and
type tables may change in between.
-/

namespace LateBinding

/-- The key that a member of a kind is interned by, if the receiver's type has a definition. -/
def MemberKind.key? (receiver : ForeignObject) (member : String) : MemberKind → Option ProxyKey
  | .declared => some (.declared receiver.ty member)
  | .extension => receiver.ty.name?.map (.extension · member)

/-- Extension lookups never find an empty list. -/
theorem ExtensionIndex.ne_nil_of_resolve {ix : ExtensionIndex} {ts : TypeSystem} {ty : Ty}
    {member : String} {methods : List Method} (h : ix.resolve ts ty member = .ok methods) :
    methods ≠ [] := by
  have hlookup : ∀ n, ix.lookup? n member = some methods → methods ≠ [] := by
    intro n hn
    unfold lookup? ExtensionTable.lookup? at hn
    split at hn
    · cases hn
    · rename_i hne
      cases hn
      exact hne
  unfold resolve at h
  split at h
  · rename_i found hfound
    cases h
    obtain ⟨n, -, hfind⟩ := Option.bind_eq_some_iff.1 hfound
    rcases Option.or_eq_some_iff.1 hfind with hlineage | ⟨-, hobject⟩
    · obtain ⟨k, -, hk⟩ := List.exists_of_findSome?_eq_some hlineage
      exact hlookup k hk
    · obtain ⟨k, -, hk⟩ := Option.bind_eq_some_iff.1 hobject
      exact hlookup k hk
  · cases h

/-! ## What a key has stood for -/

/-- A property of the type tables that a session has gone through. -/
abbrev TableProperty := OrderedMap TypeName TypeEntry → Prop

namespace ProxyKey

/-- The key has stood for the methods: on tables with the property `T`, or as a lookup that the memo
holds. -/
def StoodFor (T : TableProperty) (memo : ExtensionMemo) (methods : List Method) : ProxyKey → Prop
  | declared ty member =>
    ∃ ts : TypeSystem, T ts.types ∧ ts.declaredMethods? ty member = some methods
  | extension n member => memo.get? (n, member) = some methods

variable {T : TableProperty} {memo memo' : ExtensionMemo} {methods : List Method} {key k : ProxyKey}

theorem StoodFor.mono (h : key.StoodFor T memo methods)
    (hmemo : ∀ key methods, memo.get? key = some methods → memo'.get? key = some methods) :
    key.StoodFor T memo' methods := by
  cases key with
  | declared ty member => exact h
  | extension n member => exact hmemo (n, member) methods h

theorem StoodFor.of_beq (h : key.StoodFor T memo methods) (hk : key == k) :
    k.StoodFor T memo methods := by
  cases key with
  | declared ty member =>
    cases k with
    | declared ty' member' =>
      obtain ⟨hty, rfl⟩ := same_declared.1 hk
      obtain ⟨ts, hts, hmethods⟩ := h
      exact ⟨ts, hts, by rw [← TypeSystem.declaredMethods?_of_beq hty, hmethods]⟩
    | extension n member' => cases hk
  | extension n member =>
    cases k with
    | declared ty member' => cases hk
    | extension n' member' =>
      obtain ⟨rfl, rfl⟩ := same_extension.1 hk
      exact h

theorem member_of_beq (hk : key == k) : key.member = k.member := by
  cases key with
  | declared ty member =>
    cases k with
    | declared ty' member' => exact (same_declared.1 hk).2
    | extension n member' => cases hk
  | extension n member =>
    cases k with
    | declared ty member' => cases hk
    | extension n' member' => exact (same_extension.1 hk).2

end ProxyKey

namespace Workspace

/-! ## Agreement of memo and proxies -/

/-- What the identifier of a key refers to: a proxy that exists, over methods that the key has
stood for, unbound and with the name of the member. -/
def Refers (T : TableProperty) (memo : ExtensionMemo) (e : Engine) (key : ProxyKey)
    (id : ProxyId) : Prop :=
  id.index < e.proxies.size ∧
    ∃ methods, (e.proxy id).group = { name := key.member, methods } ∧ key.StoodFor T memo methods

/-- All proxies are well-formed, the tables have the property `T`, no remembered lookup is empty,
and interned proxies are over what their keys have stood for. -/
structure InStep (T : TableProperty) (w : Workspace) : Prop where
  engine : w.engine.WellFormed
  tables : T w.engine.types.types
  memo : w.catalog.memo.Holds fun _ methods => methods ≠ []
  interned : w.catalog.interned.Holds (Refers T w.catalog.memo w.engine)

/-- The later workspace has the lookups, the interned proxies and the proxies of the earlier one. -/
structure Retains (w w' : Workspace) : Prop where
  engine : w.engine.Retains w'.engine
  memo : ∀ key methods,
    w.catalog.memo.get? key = some methods → w'.catalog.memo.get? key = some methods
  interned : ∀ key id,
    w.catalog.interned.get? key = some id → w'.catalog.interned.get? key = some id

theorem Retains.refl (w : Workspace) : w.Retains w := ⟨.refl _, fun _ _ h => h, fun _ _ h => h⟩

theorem Retains.trans {w w' w'' : Workspace} (h : w.Retains w') (h' : w'.Retains w'') :
    w.Retains w'' where
  engine := h.engine.trans h'.engine
  memo key methods hget := h'.memo key methods (h.memo key methods hget)
  interned key id hget := h'.interned key id (h.interned key id hget)

/-- The later workspace is in step and retains what the earlier one has. -/
structure Continues (T : TableProperty) (w w' : Workspace) : Prop where
  inStep : w'.InStep T
  retains : w.Retains w'

variable {T : TableProperty} {w w' w'' : Workspace}

theorem Continues.refl (h : w.InStep T) : w.Continues T w := ⟨h, .refl w⟩

theorem Continues.trans (h : w.Continues T w') (h' : w'.Continues T w'') : w.Continues T w'' :=
  ⟨h'.inStep, h.retains.trans h'.retains⟩

theorem Refers.mono {memo memo' : ExtensionMemo} {e e' : Engine} {key : ProxyKey} {id : ProxyId}
    (h : Refers T memo e key id)
    (hmemo : ∀ key methods, memo.get? key = some methods → memo'.get? key = some methods)
    (he : e.Retains e') : Refers T memo' e' key id := by
  obtain ⟨hlt, methods, hgroup, hstood⟩ := h
  have hsame := Proxy.group_eq_of_forget (he.proxy id hlt).forget
  exact ⟨Nat.lt_of_lt_of_le hlt he.size, methods, hsame.trans hgroup, hstood.mono hmemo⟩

theorem Refers.of_beq {memo : ExtensionMemo} {e : Engine} {key k : ProxyKey} {id : ProxyId}
    (h : Refers T memo e key id) (hk : key == k) : Refers T memo e k id := by
  obtain ⟨hlt, methods, hgroup, hstood⟩ := h
  exact ⟨hlt, methods, by rw [hgroup, ProxyKey.member_of_beq hk], hstood.of_beq hk⟩

theorem InStep.continues_engine (h : w.InStep T) {e : Engine} (he : w.engine.Continues e) :
    w.Continues T { w with engine := e } where
  inStep := {
    engine := he.wellFormed
    tables := by
      rw [he.tables]
      exact h.tables
    memo := h.memo
    interned := h.interned.mono fun _ _ href => href.mono (fun _ _ hget => hget) he.toRetains }
  retains := ⟨he.toRetains, fun _ _ hget => hget, fun _ _ hget => hget⟩

theorem InStep.continues_memo (h : w.InStep T) {memo : ExtensionMemo}
    (hmemo : memo.Holds fun _ methods => methods ≠ [])
    (hretained : ∀ key methods,
      w.catalog.memo.get? key = some methods → memo.get? key = some methods) :
    w.Continues T { w with catalog := { w.catalog with memo } } where
  inStep := {
    engine := h.engine
    tables := h.tables
    memo := hmemo
    interned := h.interned.mono fun _ _ href => href.mono hretained (.refl _) }
  retains := ⟨.refl _, hretained, fun _ _ hget => hget⟩

theorem inStep_forget (w : Workspace) (h : T w.engine.types.types) : w.forget.InStep T where
  engine := w.engine.wellFormed_forget
  tables := h
  memo := OnceMap.holds_empty _
  interned := OnceMap.holds_empty _

/-! ## Actions on a workspace in step -/

theorem continues_onEngine (h : w.InStep T) {act : EStateM ResolutionError Engine α}
    (hact : w.engine.Continues (after act w.engine)) :
    w.Continues T (after (enginePart.run act) w) := by
  rw [after_run]
  exact h.continues_engine hact

/-- An extension lookup, with any index and on any tables, leaves a memo that holds what it
answers. -/
theorem continues_resolveOnce (h : w.InStep T) (ix : ExtensionIndex) (ts : TypeSystem) (ty : Ty)
    (member : String) :
    w.Continues T (after (memoPart.run (ix.resolveOnce ts ty member)) w) := by
  rw [after_run]
  cases hn : ty.name? with
  | none =>
    show w.Continues T (memoPart.put (after (ix.resolveOnce ts ty member) w.catalog.memo) w)
    rw [ExtensionIndex.after_resolveOnce_of_none hn]
    exact .refl h
  | some n =>
    refine h.continues_memo ?_ fun key methods hget => ?_
    · show (after (ix.resolveOnce ts ty member) w.catalog.memo).Holds _
      rw [ExtensionIndex.after_resolveOnce_eq_demanded hn]
      refine h.memo.after_demandApart (fun _ _ _ _ hne => hne) _ _ _ fun methods hok => ?_
      rw [answer_liftExcept] at hok
      exact ExtensionIndex.ne_nil_of_resolve hok
    · show (after (ix.resolveOnce ts ty member) w.catalog.memo).get? key = some methods
      rw [ExtensionIndex.after_resolveOnce_eq_demanded hn]
      exact OnceMap.get?_after_demandApart_of_get? h.memo.wellFormed hget _ _ _

/-- A new proxy is what its identifier refers to. -/
theorem refers_add (e : Engine) {memo : ExtensionMemo} {key : ProxyKey} {methods : List Method}
    (hstood : key.StoodFor T memo methods) {p : Proxy}
    (hp : p.group = { name := key.member, methods }) :
    Refers T memo (after (Engine.add p : EStateM ResolutionError Engine ProxyId) e) key
      ⟨e.proxies.size⟩ := by
  refine ⟨Engine.size_lt_after_add p e, methods, ?_, hstood⟩
  rw [Engine.proxy_after_add, if_pos rfl, hp]

/-- An action that continues a workspace, answers `a` and leaves a proxy interned for a key. -/
structure Locates (T : TableProperty) (w : Workspace) (act : EStateM ResolutionError Workspace α)
    (a : α) (key : ProxyKey) (id : ProxyId) : Prop where
  continues : w.Continues T (after act w)
  answer : answer act w = .ok a
  interned : (after act w).catalog.interned.get? key = some id

/-- A key that is interned already gives its proxy, and nothing changes. -/
theorem locates_proxyFor_of_some (h : w.InStep T) {key : ProxyKey} {id : ProxyId}
    (hkey : w.catalog.interned.get? key = some id) (g : MethodGroup) :
    Locates T w (proxyFor key g) id key id := by
  have hafter : after (proxyFor key g : EStateM ResolutionError Workspace ProxyId) w = w := by
    rw [after_proxyFor, OnceMap.demandApart, OnceMap.after_demand_of_get? hkey]
    rfl
  refine ⟨?_, ?_, ?_⟩
  · rw [hafter]
    exact .refl h
  · rw [answer_proxyFor, OnceMap.demandApart, OnceMap.answer_demand_of_get? hkey]
  · rw [hafter]
    exact hkey

/-- A key that is not interned yet gets a new proxy over the methods that it stands for. -/
theorem locates_proxyFor_of_none (h : w.InStep T) {key : ProxyKey} {methods : List Method}
    (hstood : key.StoodFor T w.catalog.memo methods)
    (hkey : w.catalog.interned.get? key = none) :
    Locates T w (proxyFor key { name := key.member, methods }) ⟨w.engine.proxies.size⟩ key
      ⟨w.engine.proxies.size⟩ := by
  let proxy := w.catalog.newProxy { name := key.member, methods }
  let add : EStateM ResolutionError Engine ProxyId := Engine.add proxy
  let t := after (OnceMap.demandApart key add) (w.catalog.interned, w.engine)
  have hafter : after (proxyFor key { name := key.member, methods } :
      EStateM ResolutionError Workspace ProxyId) w =
        { catalog := { w.catalog with interned := t.1 }, engine := t.2 } := after_proxyFor key _ w
  have hengine : t.2 = after add w.engine := by
    show (after (OnceMap.demandApart key add) (w.catalog.interned, w.engine)).2 = _
    rw [OnceMap.after_demandApart_snd, hkey]
  have hdemand : answer (OnceMap.demandApart key add) (w.catalog.interned, w.engine) =
      .ok ⟨w.engine.proxies.size⟩ := by
    rw [OnceMap.answer_demandApart, hkey]
    rfl
  have hgrows : w.engine.Continues t.2 := by
    rw [hengine]
    exact Engine.continues_add h.engine (Proxy.wellFormed_forget proxy)
  have hlater := h.continues_engine hgrows
  refine ⟨?_, ?_, ?_⟩
  · rw [hafter]
    refine ⟨⟨hlater.inStep.engine, hlater.inStep.tables, h.memo, ?_⟩, hlater.retains.engine,
      hlater.retains.memo, fun k id hget =>
        OnceMap.get?_after_demandApart_of_get? h.interned.wellFormed hget key add w.engine⟩
    refine hlater.inStep.interned.after_demandApart (fun k k' id hk href => href.of_beq hk) key
      add w.engine fun id hid => ?_
    rw [Engine.answer_add] at hid
    cases hid
    rw [hengine]
    exact refers_add w.engine hstood rfl
  · rw [answer_proxyFor]
    exact hdemand
  · rw [hafter]
    exact OnceMap.get?_after_demandApart_of_answer h.interned.wellFormed hdemand

theorem locates_proxyFor (h : w.InStep T) {key : ProxyKey} {methods : List Method}
    (hstood : key.StoodFor T w.catalog.memo methods) :
    ∃ id, Locates T w (proxyFor key { name := key.member, methods }) id key id := by
  cases hkey : w.catalog.interned.get? key with
  | some id => exact ⟨id, locates_proxyFor_of_some h hkey _⟩
  | none => exact ⟨_, locates_proxyFor_of_none h hstood hkey⟩

variable {act : EStateM ResolutionError Workspace α} {a : α} {key : ProxyKey} {id : ProxyId}

/-- An action that comes down to another one, performed later. -/
theorem Locates.of_eq {act' : EStateM ResolutionError Workspace α} (h : Locates T w' act' a key id)
    (hcontinues : w.Continues T w') (hact : act w = act' w') : Locates T w act a key id where
  continues := by
    rw [after_congr hact]
    exact hcontinues.trans h.continues
  answer := by
    rw [answer_congr hact]
    exact h.answer
  interned := by
    rw [after_congr hact]
    exact h.interned

theorem Locates.map (h : Locates T w act a key id) (next : α → β) :
    Locates T w (act >>= fun a => pure (next a)) (next a) key id where
  continues := by
    rw [after_bind_pure]
    exact h.continues
  answer := by
    rw [answer_bind_pure, h.answer]
    rfl
  interned := by
    rw [after_bind_pure]
    exact h.interned

variable {receiver : ForeignObject} {member : String}

/-! ## The built-in strategies -/

theorem declared_find_of_none
    (hm : w.engine.types.declaredMethods? receiver.ty member = none) :
    Strategy.declared.find receiver member w = .ok none w := by
  show (get >>= _ : EStateM ResolutionError Workspace _) w = _
  rw [bind_of_ok (answer_get w), after_get, hm]
  rfl

theorem declared_find_of_some (h : w.InStep T) {methods : List Method}
    (hm : w.engine.types.declaredMethods? receiver.ty member = some methods) :
    ∃ id, Locates T w (Strategy.declared.find receiver member)
      (some ⟨.declared, id, receiver⟩) (.declared receiver.ty member) id := by
  have hstood : (ProxyKey.declared receiver.ty member).StoodFor T w.catalog.memo methods :=
    ⟨w.engine.types, h.tables, hm⟩
  obtain ⟨id, hid⟩ := locates_proxyFor h hstood
  have hlocates := hid.map fun id => some (⟨.declared, id, receiver⟩ : Member)
  refine ⟨id, hlocates.of_eq (.refl h) ?_⟩
  show (get >>= _ : EStateM ResolutionError Workspace _) w = _
  rw [bind_of_ok (answer_get w), after_get, hm]
  rfl

/-- An extension lookup that fails fails for want of an extension. -/
theorem findExtension_of_error (h : w.InStep T) {e : ResolutionError}
    (he : answer (w.catalog.index.resolveOnce w.engine.types receiver.ty member) w.catalog.memo =
      .error e) :
    w.Continues T (after (findExtension receiver member) w) ∧
      answer (findExtension receiver member) w = .error (.noExtension receiver.ty member) := by
  unfold findExtension
  cases hn : receiver.ty.name? with
  | none => exact ⟨.refl h, rfl⟩
  | some n =>
    have hnoExtension : e = .noExtension receiver.ty member := by
      rw [ExtensionIndex.answer_resolveOnce hn] at he
      split at he
      · cases he
      · unfold ExtensionIndex.resolve at he
        split at he
        · cases he
        · cases he
          rfl
    subst hnoExtension
    have hrun : answer
        (memoPart.run (w.catalog.index.resolveOnce w.engine.types receiver.ty member)) w =
          .error (.noExtension receiver.ty member) := by
      rw [answer_run]
      exact he
    have hlater := continues_resolveOnce h w.catalog.index w.engine.types receiver.ty member
    simp only
    rw [after_congr (bind_of_ok (answer_get w)), answer_congr (bind_of_ok (answer_get w)), after_get,
      after_bind_of_error hrun, answer_bind_of_error hrun]
    exact ⟨hlater, rfl⟩

/-- An extension lookup that succeeds is remembered, and interned for its definition. -/
theorem findExtension_of_ok (h : w.InStep T) {methods : List Method}
    (hm : answer (w.catalog.index.resolveOnce w.engine.types receiver.ty member) w.catalog.memo =
      .ok methods) :
    ∃ n id, receiver.ty.name? = some n ∧
      Locates T w (findExtension receiver member) ⟨.extension, id, receiver⟩ (.extension n member)
        id ∧
      (after (findExtension receiver member) w).catalog.memo.get? (n, member) = some methods := by
  cases hn : receiver.ty.name? with
  | none =>
    rw [ExtensionIndex.answer_resolveOnce_of_none hn, ExtensionIndex.resolve, hn] at hm
    cases hm
  | some n =>
    let lookup := memoPart.run (w.catalog.index.resolveOnce w.engine.types receiver.ty member)
    have hrun : answer lookup w = .ok methods := (answer_run _ _ _).trans hm
    have hlater : w.Continues T (after lookup w) :=
      continues_resolveOnce h w.catalog.index w.engine.types receiver.ty member
    have hget : (after lookup w).catalog.memo.get? (n, member) = some methods := by
      rw [after_run]
      show (after (w.catalog.index.resolveOnce w.engine.types receiver.ty member)
        w.catalog.memo).get? (n, member) = some methods
      rw [ExtensionIndex.get?_after_resolveOnce hn h.memo.wellFormed, if_pos rfl, hm]
      rfl
    have hstood : (ProxyKey.extension n member).StoodFor T (after lookup w).catalog.memo methods :=
      hget
    obtain ⟨id, hid⟩ := locates_proxyFor hlater.inStep hstood
    have hfind : findExtension receiver member w =
        (proxyFor (.extension n member) { name := member, methods } >>= fun id =>
          pure (⟨.extension, id, receiver⟩ : Member)) (after lookup w) := by
      unfold findExtension
      simp only [hn]
      rw [bind_of_ok (answer_get w), after_get, bind_of_ok hrun]
    have hlocates := hid.map fun id => (⟨.extension, id, receiver⟩ : Member)
    refine ⟨n, id, rfl, hlocates.of_eq hlater hfind, ?_⟩
    rw [after_congr hfind]
    exact hlocates.continues.retains.memo _ _ hget

/-- An action that continues a workspace, and whose success is a member of the receiver with the
proxy that is interned for its key. -/
structure Seeks (T : TableProperty) (w : Workspace) (receiver : ForeignObject) (member : String)
    (act : EStateM ResolutionError Workspace α) (found? : α → Option Member) : Prop where
  continues : w.Continues T (after act w)
  located : ∀ a m, LateBinding.answer act w = .ok a → found? a = some m →
    m.receiver = receiver ∧ ∃ key, m.kind.key? receiver member = some key ∧
      (after act w).catalog.interned.get? key = some m.proxy

theorem Locates.seeks {m : Member} (h : Locates T w act a key id) {found? : α → Option Member}
    (hfound : found? a = some m) (hreceiver : m.receiver = receiver)
    (hkey : m.kind.key? receiver member = some key) (hid : m.proxy = id) :
    Seeks T w receiver member act found? where
  continues := h.continues
  located a' m' ha' hm' := by
    rw [h.answer] at ha'
    cases ha'
    rw [hfound] at hm'
    cases hm'
    exact ⟨hreceiver, key, hkey, by rw [h.interned, hid]⟩

theorem seeks_declared (h : w.InStep T) (receiver : ForeignObject) (member : String) :
    Seeks T w receiver member (Strategy.declared.find receiver member) fun found => found := by
  cases hm : w.engine.types.declaredMethods? receiver.ty member with
  | none =>
    have hfind := declared_find_of_none hm
    refine ⟨?_, fun a m ha hfound => ?_⟩
    · rw [after, hfind]
      exact .refl h
    · rw [answer, hfind] at ha
      cases ha
      cases hfound
  | some methods =>
    obtain ⟨id, hid⟩ := declared_find_of_some h hm
    exact hid.seeks rfl rfl rfl rfl

theorem seeks_findExtension (h : w.InStep T) (receiver : ForeignObject) (member : String) :
    Seeks T w receiver member (findExtension receiver member) some := by
  cases hlookup : answer (w.catalog.index.resolveOnce w.engine.types receiver.ty member)
      w.catalog.memo with
  | error e =>
    obtain ⟨hcontinues, hanswer⟩ := findExtension_of_error h hlookup
    refine ⟨hcontinues, fun a m ha => ?_⟩
    rw [hanswer] at ha
    cases ha
  | ok methods =>
    obtain ⟨n, id, hn, hid, -⟩ := findExtension_of_ok h hlookup
    refine hid.seeks rfl rfl ?_ rfl
    rw [MemberKind.key?, hn, Option.map_some]

theorem seeks_extension (h : w.InStep T) (receiver : ForeignObject) (member : String) :
    Seeks T w receiver member (Strategy.extension.find receiver member) fun found => found := by
  have hfind := seeks_findExtension h receiver member
  refine ⟨?_, fun a m ha hfound => ?_⟩
  · rw [after_extension_find]
    exact hfind.continues
  · subst hfound
    rw [answer_extension_find] at ha
    rw [after_extension_find]
    refine hfind.located m m ?_ rfl
    cases hanswer : answer (findExtension receiver member) w with
    | ok m' =>
      rw [hanswer] at ha
      cases ha
      rfl
    | error e =>
      rw [hanswer] at ha
      cases e <;> cases ha

theorem seeks_strategy (h : w.InStep T) (receiver : ForeignObject) (member : String)
    (kind : MemberKind) :
    Seeks T w receiver member (kind.strategy.find receiver member) fun found => found := by
  cases kind with
  | declared => exact seeks_declared h receiver member
  | extension => exact seeks_extension h receiver member

theorem seeks_firstOf (h : w.InStep T) (receiver : ForeignObject) (member : String)
    (kinds : List MemberKind) :
    Seeks T w receiver member
      (Strategy.firstOf (kinds.map MemberKind.strategy) receiver member) some := by
  induction kinds generalizing w with
  | nil =>
    refine ⟨.refl h, fun a m ha => ?_⟩
    cases ha
  | cons kind kinds ih =>
    have hfind := seeks_strategy h receiver member kind
    rw [List.map_cons, Strategy.firstOf]
    cases hresult : answer (kind.strategy.find receiver member) w with
    | error e =>
      refine ⟨?_, fun a m ha => ?_⟩
      · rw [after_bind_of_error hresult]
        exact hfind.continues
      · rw [answer_bind_of_error hresult] at ha
        cases ha
    | ok result =>
      cases result with
      | some found =>
        refine ⟨?_, fun a m ha hm => ?_⟩
        · rw [after_bind_of_ok hresult]
          exact hfind.continues
        · rw [answer_bind_of_ok hresult] at ha
          rw [after_bind_of_ok hresult]
          cases ha
          cases hm
          exact hfind.located _ _ hresult rfl
      | none =>
        have hrest := ih hfind.continues.inStep
        refine ⟨?_, fun a m ha hm => ?_⟩
        · rw [after_bind_of_ok hresult]
          exact hfind.continues.trans hrest.continues
        · rw [answer_bind_of_ok hresult] at ha
          rw [after_bind_of_ok hresult]
          exact hrest.located a m ha hm

end Workspace

end LateBinding
