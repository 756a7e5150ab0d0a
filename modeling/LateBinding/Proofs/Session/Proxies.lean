import LateBinding.Member
import LateBinding.Proofs.Resolution.Keys
import LateBinding.Proofs.Resolution.Proxy

/-!
# Proxies apart from their caches

A proxy is sound if both caches hold what the pipeline answers.  On sound proxies every operation is
determined by the type tables and by the proxy without its caches (`Proxy.Determined`), and it
leaves a sound proxy that differs in the caches only.  Engines inherit both from their proxies.
-/

namespace LateBinding

namespace Proxy

/-- The proxy with empty caches. -/
def forget (p : Proxy) : Proxy := { p with callCache := .empty, typeCache := .empty }

/-- The caches hold what the pipeline answers on the given tables. -/
structure Sound (ts : TypeSystem) (p : Proxy) : Prop where
  calls : p.callCache.Holds fun argTypes o => ts.argumentOutcome p.group p.policy argTypes = .ok o
  instantiations : p.typeCache.Holds fun typeArgs o =>
    ts.typeArgumentOutcome p.group p.policy typeArgs = .ok o

theorem sound_forget (ts : TypeSystem) (p : Proxy) : p.forget.Sound ts :=
  ⟨OnceMap.holds_empty _, OnceMap.holds_empty _⟩

@[simp] theorem forGroup_forget (p : Proxy) (g : MethodGroup) :
    p.forget.forGroup g = p.forGroup g := rfl

theorem Sound.congr {ts ts' : TypeSystem} {p : Proxy} (h : p.Sound ts)
    (htables : ts'.types = ts.types) : p.Sound ts' where
  calls := h.calls.mono fun argTypes o ho => by
    rw [TypeSystem.argumentOutcome_congr htables, ho]
  instantiations := h.instantiations.mono fun typeArgs o ho => by
    rw [TypeSystem.typeArgumentOutcome_congr htables, ho]

/-- An action on a proxy that answers `f` of the tables and the proxy, whatever the caches hold,
and changes nothing but caches and notices. -/
structure Determined (act : EStateM ResolutionError (Proxy × Journal) α)
    (f : TypeSystem → Proxy → Except ResolutionError α) : Prop where
  answer : ∀ p j, p.Sound j.types → answer act (p, j) = f j.types p
  sound : ∀ p j, p.Sound j.types → (after act (p, j)).1.Sound (after act (p, j)).2.types
  forget : ∀ p j, (after act (p, j)).1.forget = p.forget
  tables : ∀ p j, (after act (p, j)).2.types.types = j.types.types

theorem Determined.map {act : EStateM ResolutionError (Proxy × Journal) α}
    {f : TypeSystem → Proxy → Except ResolutionError α} (h : Determined act f) (next : α → β) :
    Determined (act >>= fun a => pure (next a)) fun ts p => (f ts p).map next where
  answer p j hp := by rw [answer_bind_pure, h.answer p j hp]
  sound p j hp := by
    rw [after_bind_pure]
    exact h.sound p j hp
  forget p j := by
    rw [after_bind_pure]
    exact h.forget p j
  tables p j := by
    rw [after_bind_pure]
    exact h.tables p j

/-! ## Calls -/

/-- The target of a call with arguments of the given types. -/
def callTarget (p : Proxy) (argTypes : List Ty) (receiver : Option ForeignObject)
    (ts : TypeSystem) : Except ResolutionError Target :=
  (ts.argumentOutcome p.group p.policy argTypes).map (p.target receiver)

theorem after_resolveTypes (p : Proxy) (j : Journal) (receiver : Option ForeignObject)
    (argTypes : List Ty) :
    after (resolveTypes argTypes receiver) (p, j) =
      let t := after (OnceMap.demandApart argTypes
        (Journal.resolveArguments p.group p.policy argTypes)) (p.callCache, j)
      ({ p with callCache := t.1 }, t.2) := by
  rw [resolveTypes, after_bind]
  show after (callPart.run _ >>= fun outcome => pure (p.target receiver outcome)) (p, j) = _
  rw [after_bind_pure, after_run]
  rfl

theorem determined_resolveTypes (argTypes : List Ty) (receiver : Option ForeignObject) :
    Determined (resolveTypes argTypes receiver) fun ts p => p.callTarget argTypes receiver ts := by
  have htables : ∀ (p : Proxy) (j : Journal),
      (after (resolveTypes argTypes receiver) (p, j)).2.types.types = j.types.types := by
    intro p j
    rw [after_resolveTypes]
    exact OnceMap.keeps_demandApart (Journal.keeps_resolveArguments p.group p.policy argTypes) _
  refine ⟨fun p j hp => ?_, fun p j hp => ?_, fun p j => ?_, htables⟩
  · exact answer_resolveTypes hp.calls argTypes receiver
  · refine Sound.congr ?_ (htables p j)
    rw [after_resolveTypes]
    refine ⟨?_, hp.instantiations⟩
    refine hp.calls.after_demandApart (fun _ _ _ => TypeSystem.argumentOutcome_of_beq) _ _ _ ?_
    intro o ho
    rwa [Journal.answer_resolveArguments] at ho
  · rw [after_resolveTypes]
    rfl

theorem resolve_apply (args : List Value) (receiver : Option ForeignObject) (p : Proxy)
    (j : Journal) :
    resolve args receiver (p, j) = resolveTypes (args.map p.typing.typeOf) receiver (p, j) := rfl

theorem determined_resolve (args : List Value) (receiver : Option ForeignObject) :
    Determined (resolve args receiver) fun ts p =>
      p.callTarget (args.map p.typing.typeOf) receiver ts where
  answer p j hp := by
    rw [answer_congr (resolve_apply args receiver p j)]
    exact (determined_resolveTypes _ receiver).answer p j hp
  sound p j hp := by
    rw [after_congr (resolve_apply args receiver p j)]
    exact (determined_resolveTypes _ receiver).sound p j hp
  forget p j := by
    rw [after_congr (resolve_apply args receiver p j)]
    exact (determined_resolveTypes _ receiver).forget p j
  tables p j := by
    rw [after_congr (resolve_apply args receiver p j)]
    exact (determined_resolveTypes _ receiver).tables p j

theorem determined_call (args : List Value) (receiver : Option ForeignObject) :
    Determined (call args receiver) fun ts p =>
      (p.callTarget (args.map p.typing.typeOf) receiver ts).map fun target =>
        { target, args : Call } :=
  (determined_resolve args receiver).map fun target => { target, args : Call }

/-! ## Instantiations -/

/-- The target of an instantiation with the given type arguments. -/
def typeTarget (p : Proxy) (typeArgs : List Ty) (receiver : Option ForeignObject)
    (ts : TypeSystem) : Except ResolutionError Target :=
  (ts.typeArgumentOutcome p.group p.policy typeArgs).map (p.target receiver)

theorem after_instantiate (p : Proxy) (j : Journal) (receiver : Option ForeignObject)
    (typeArgs : List Ty) :
    after (instantiate typeArgs receiver) (p, j) =
      let t := after (OnceMap.demandApart typeArgs
        (Journal.resolveTypeArguments p.group p.policy typeArgs)) (p.typeCache, j)
      ({ p with typeCache := t.1 }, t.2) := by
  rw [instantiate, after_bind]
  show after (typePart.run _ >>= fun outcome => pure (p.target receiver outcome)) (p, j) = _
  rw [after_bind_pure, after_run]
  rfl

theorem determined_instantiate (typeArgs : List Ty) (receiver : Option ForeignObject) :
    Determined (instantiate typeArgs receiver) fun ts p => p.typeTarget typeArgs receiver ts := by
  have htables : ∀ (p : Proxy) (j : Journal),
      (after (instantiate typeArgs receiver) (p, j)).2.types.types = j.types.types := by
    intro p j
    rw [after_instantiate]
    exact OnceMap.keeps_demandApart (Journal.keeps_resolveTypeArguments p.group p.policy typeArgs) _
  refine ⟨fun p j hp => ?_, fun p j hp => ?_, fun p j => ?_, htables⟩
  · exact answer_instantiate hp.instantiations typeArgs receiver
  · refine Sound.congr ?_ (htables p j)
    rw [after_instantiate]
    refine ⟨hp.calls, ?_⟩
    refine hp.instantiations.after_demandApart
      (fun _ _ _ => TypeSystem.typeArgumentOutcome_of_beq) _ _ _ ?_
    intro o ho
    rwa [Journal.answer_resolveTypeArguments] at ho
  · rw [after_instantiate]
    rfl

end Proxy

/-! ## Engines -/

namespace Engine

/-- The engine with empty caches in all proxies. -/
def forget (e : Engine) : Engine := { e with proxies := e.proxies.map Proxy.forget }

/-- All proxies are sound. -/
def Sound (e : Engine) : Prop := ∀ id, (e.proxy id).Sound e.types

/-- The later engine has the proxies of the earlier one, up to caches, and the same tables. -/
structure Extends (e e' : Engine) : Prop where
  tables : e'.types.types = e.types.types
  size : e.proxies.size ≤ e'.proxies.size
  proxy : ∀ id, id.index < e.proxies.size → (e'.proxy id).forget = (e.proxy id).forget

theorem Extends.refl (e : Engine) : e.Extends e := ⟨rfl, Nat.le_refl _, fun _ _ => rfl⟩

theorem Extends.trans {e e' e'' : Engine} (h : e.Extends e') (h' : e'.Extends e'') :
    e.Extends e'' where
  tables := h'.tables.trans h.tables
  size := Nat.le_trans h.size h'.size
  proxy id hid := (h'.proxy id (Nat.lt_of_lt_of_le hid h.size)).trans (h.proxy id hid)

theorem proxy_forget (e : Engine) (id : ProxyId) : e.forget.proxy id = (e.proxy id).forget := by
  unfold proxy forget
  rw [Array.getElem?_map]
  cases e.proxies[id.index]? <;> rfl

theorem sound_forget (e : Engine) : e.forget.Sound := by
  intro id
  rw [proxy_forget]
  exact Proxy.sound_forget _ _

/-! ### A new proxy -/

theorem answer_add (p : Proxy) (e : Engine) :
    answer (add p : EStateM ε Engine ProxyId) e = .ok ⟨e.proxies.size⟩ := rfl

theorem proxy_after_add (p : Proxy) (e : Engine) (id : ProxyId) :
    (after (add p : EStateM ε Engine ProxyId) e).proxy id =
      if id.index = e.proxies.size then p else e.proxy id := by
  show (e.proxies.push p)[id.index]?.getD default = _
  rw [Array.getElem?_push]
  split <;> rfl

theorem size_lt_after_add (p : Proxy) (e : Engine) :
    e.proxies.size < (after (add p : EStateM ε Engine ProxyId) e).proxies.size := by
  show e.proxies.size < (e.proxies.push p).size
  rw [Array.size_push]
  exact Nat.lt_succ_self _

theorem extends_add (p : Proxy) (e : Engine) :
    e.Extends (after (add p : EStateM ε Engine ProxyId) e) where
  tables := rfl
  size := Nat.le_of_lt (size_lt_after_add p e)
  proxy id hid := by rw [proxy_after_add, if_neg (by omega)]

theorem Sound.add {e : Engine} (h : e.Sound) {p : Proxy} (hp : p.Sound e.types) :
    (after (add p : EStateM ε Engine ProxyId) e).Sound := by
  intro id
  rw [proxy_after_add]
  split
  · exact hp
  · exact h id

/-! ### An action on one proxy -/

theorem proxy_put (e : Engine) (t : Proxy × Journal) (id k : ProxyId) :
    ((proxyPart id).put t e).proxy k =
      if k = id ∧ id.index < e.proxies.size then t.1 else e.proxy k := by
  show (e.proxies.setIfInBounds id.index t.1)[k.index]?.getD default = _
  rw [Array.getElem?_setIfInBounds]
  by_cases hk : k = id
  · subst hk
    by_cases hlt : k.index < e.proxies.size
    · rw [if_pos rfl, if_pos hlt, if_pos ⟨rfl, hlt⟩]
      rfl
    · rw [if_pos rfl, if_neg hlt, if_neg fun h => hlt h.2]
      unfold proxy
      rw [Array.getElem?_eq_none (by omega)]
  · have hne : id.index ≠ k.index := fun h => hk (by cases k; cases id; cases h; rfl)
    rw [if_neg hne, if_neg fun h => hk h.1]
    rfl

theorem size_after_onProxy (act : EStateM ResolutionError (Proxy × Journal) α) (id : ProxyId)
    (e : Engine) : (after ((proxyPart id).run act) e).proxies.size = e.proxies.size := by
  rw [after_run]
  exact Array.size_setIfInBounds

variable {act : EStateM ResolutionError (Proxy × Journal) α}
  {f : TypeSystem → Proxy → Except ResolutionError α}

theorem answer_onProxy (h : Proxy.Determined act f) {e : Engine} (he : e.Sound) (id : ProxyId) :
    answer ((proxyPart id).run act) e = f e.types (e.proxy id) := by
  rw [answer_run]
  exact h.answer (e.proxy id) e.toJournal (he id)

theorem forget_proxy_after_onProxy (h : Proxy.Determined act f) (e : Engine) (id k : ProxyId) :
    ((after ((proxyPart id).run act) e).proxy k).forget = (e.proxy k).forget := by
  rw [after_run, proxy_put]
  split
  · rename_i hk
    rw [hk.1]
    exact h.forget (e.proxy id) e.toJournal
  · rfl

theorem extends_onProxy (h : Proxy.Determined act f) (e : Engine) (id : ProxyId) :
    e.Extends (after ((proxyPart id).run act) e) where
  tables := by
    rw [after_run]
    exact h.tables (e.proxy id) e.toJournal
  size := Nat.le_of_eq (size_after_onProxy act id e).symm
  proxy k _ := forget_proxy_after_onProxy h e id k

theorem Sound.onProxy (h : Proxy.Determined act f) {e : Engine} (he : e.Sound) (id : ProxyId) :
    (after ((proxyPart id).run act) e).Sound := by
  intro k
  rw [after_run, proxy_put]
  split
  · exact h.sound (e.proxy id) e.toJournal (he id)
  · exact (he k).congr (h.tables (e.proxy id) e.toJournal)

end Engine

end LateBinding
