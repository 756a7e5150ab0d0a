import LateBinding.Proofs.Resolution.Balance
import LateBinding.Proofs.Session.Requests

/-!
# What proxies retain

Whatever is asked of a proxy, it stays the same proxy and loses nothing that it remembers
(`Proxy.Retains`); so does every proxy of an engine (`Engine.Continues`).  Neither needs the type
tables to stay as they are.
-/

namespace LateBinding

namespace Proxy

/-- The later proxy is the earlier one with perhaps more in its caches. -/
structure Retains (p p' : Proxy) : Prop where
  forget : p'.forget = p.forget
  cached : ∀ measure key o,
    (p.cache measure).get? key = some o → (p'.cache measure).get? key = some o

theorem Retains.refl (p : Proxy) : p.Retains p := ⟨rfl, fun _ _ _ h => h⟩

theorem Retains.trans {p p' p'' : Proxy} (h : p.Retains p') (h' : p'.Retains p'') :
    p.Retains p'' where
  forget := h'.forget.trans h.forget
  cached measure key o hget := h'.cached measure key o (h.cached measure key o hget)

/-- An action on a proxy that leaves it well-formed, with all that it remembers, and does not touch
the type tables. -/
structure Accumulates (act : EStateM ResolutionError (Proxy × Journal) α) : Prop where
  wellFormed : ∀ s : Proxy × Journal, s.1.WellFormed → (after act s).1.WellFormed
  retains : ∀ s : Proxy × Journal, s.1.WellFormed → s.1.Retains (after act s).1
  tables : ∀ s, (after act s).2.types.types = s.2.types.types

theorem keeps_tables_pipeline (p : Proxy) (key : List Ty) (measure : Measure) :
    Keeps (·.types.types) (p.pipeline key measure) := by
  cases measure with
  | arguments => exact Journal.keeps_resolveArguments p.group p.policy key
  | typeArguments => exact Journal.keeps_resolveTypeArguments p.group p.policy key

theorem accumulates_perform (op : Operation) : Accumulates op.perform where
  wellFormed _ h := h.perform op
  retains s h := ⟨forget_after_perform op s, fun _ _ _ hget => h.get?_perform op hget⟩
  tables s := by
    rw [after_perform s.1 s.2 op]
    exact OnceMap.keeps_demandApart (s.1.keeps_tables_pipeline _ op.measure) _

theorem Accumulates.map {act : EStateM ResolutionError (Proxy × Journal) α} (h : Accumulates act)
    (next : α → β) : Accumulates (act >>= fun a => pure (next a)) where
  wellFormed s hs := by
    rw [after_bind_pure]
    exact h.wellFormed s hs
  retains s hs := by
    rw [after_bind_pure]
    exact h.retains s hs
  tables s := by
    rw [after_bind_pure]
    exact h.tables s

theorem accumulates_call (args : List Value) (receiver : Option ForeignObject) :
    Accumulates (call args receiver) :=
  (accumulates_perform (.resolve args receiver)).map fun target => { target, args : Call }

end Proxy

namespace Engine

/-- All proxies are well-formed. -/
def WellFormed (e : Engine) : Prop := ∀ id, (e.proxy id).WellFormed

/-- The later engine has the proxies of the earlier one with all that they remember. -/
structure Retains (e e' : Engine) : Prop where
  size : e.proxies.size ≤ e'.proxies.size
  proxy : ∀ id, id.index < e.proxies.size → (e.proxy id).Retains (e'.proxy id)

theorem Retains.refl (e : Engine) : e.Retains e := ⟨Nat.le_refl _, fun _ _ => .refl _⟩

theorem Retains.trans {e e' e'' : Engine} (h : e.Retains e') (h' : e'.Retains e'') :
    e.Retains e'' where
  size := Nat.le_trans h.size h'.size
  proxy id hid := (h.proxy id hid).trans (h'.proxy id (Nat.lt_of_lt_of_le hid h.size))

/-- The later engine is well-formed, retains the proxies of the earlier one and has its tables. -/
structure Continues (e e' : Engine) : Prop extends Retains e e' where
  wellFormed : e'.WellFormed
  tables : e'.types.types = e.types.types

theorem Continues.refl {e : Engine} (he : e.WellFormed) : e.Continues e := ⟨.refl e, he, rfl⟩

theorem Continues.trans {e e' e'' : Engine} (h : e.Continues e') (h' : e'.Continues e'') :
    e.Continues e'' :=
  ⟨h.toRetains.trans h'.toRetains, h'.wellFormed, h'.tables.trans h.tables⟩

theorem wellFormed_forget (e : Engine) : e.forget.WellFormed := by
  intro id
  rw [proxy_forget]
  exact Proxy.wellFormed_forget _

variable {e : Engine}

theorem continues_onProxy (he : e.WellFormed)
    {act : EStateM ResolutionError (Proxy × Journal) α} (h : Proxy.Accumulates act)
    (id : ProxyId) : e.Continues (after ((proxyPart id).run act) e) := by
  have hsize := size_after_onProxy act id e
  rw [after_run] at hsize ⊢
  refine ⟨⟨Nat.le_of_eq hsize.symm, fun k hk => ?_⟩, fun k => ?_, ?_⟩
  · rw [proxy_put]
    split
    · rename_i hid
      rw [hid.1]
      exact h.retains (e.proxy id, e.toJournal) (he id)
    · exact .refl _
  · rw [proxy_put]
    split
    · exact h.wellFormed (e.proxy id, e.toJournal) (he id)
    · exact he k
  · exact h.tables (e.proxy id, e.toJournal)

theorem continues_add (he : e.WellFormed) {p : Proxy} (hp : p.WellFormed) :
    e.Continues (after (add p : EStateM ResolutionError Engine ProxyId) e) where
  size := (extends_add (ε := ResolutionError) p e).size
  proxy id hid := by
    rw [proxy_after_add, if_neg (by omega)]
    exact .refl _
  wellFormed id := by
    rw [proxy_after_add]
    split
    · exact hp
    · exact he id
  tables := rfl

theorem continues_instantiateMember (he : e.WellFormed) (m : Member) (typeArgs : List Ty) :
    e.Continues (after (m.instantiate typeArgs) e) := by
  have hproxy := continues_onProxy he (Proxy.accumulates_perform (.instantiate typeArgs none))
    m.proxy
  refine rel_after_bind (r := Continues) Continues.trans hproxy fun target _ => ?_
  refine rel_after_bind (r := Continues) Continues.trans (.refl hproxy.wellFormed) fun e' _ => ?_
  rw [after_bind_pure]
  exact continues_add hproxy.wellFormed
    (Proxy.wellFormed_forget ((e'.proxy m.proxy).forGroup target.toGroup))

theorem continues_overload (he : e.WellFormed) (id : ProxyId) (index : Nat) :
    e.Continues (after (overload id index) e) := by
  refine rel_after_bind (r := Continues) Continues.trans (.refl he) fun e' _ => ?_
  rw [after_get]
  refine rel_after_bind (r := Continues) Continues.trans ?_ fun p hp => ?_
  · rw [after_liftExcept]
    exact .refl he
  · rw [after_liftExcept]
    rw [answer_liftExcept, Proxy.overload] at hp
    split at hp
    · cases hp
      exact continues_add he (Proxy.wellFormed_forget ((e'.proxy id).forGroup _))
    · cases hp

end Engine

end LateBinding
