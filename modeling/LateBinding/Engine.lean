import LateBinding.Proxy

/-!
# Engines

An `Engine` is a journal together with every proxy made so far.  A proxy is shared by way of its
`ProxyId`: all holders of an identifier see the same caches.  Proxies are added (`Engine.add`) and
never taken away.
-/

namespace LateBinding

/-- The identity of a proxy in an engine. -/
structure ProxyId where
  index : Nat
deriving DecidableEq, Repr, Inhabited

/-- A journal and the proxies made so far. -/
structure Engine extends Journal where
  proxies : Array Proxy := #[]
deriving Inhabited

namespace Engine

/-- The proxy of an identifier; one that was never given out stands for a proxy without methods. -/
def proxy (e : Engine) (id : ProxyId) : Proxy := e.proxies[id.index]?.getD default

/-- Adds a proxy and gives it an identifier of its own. -/
def add (p : Proxy) : EStateM ε Engine ProxyId := fun e =>
  .ok ⟨e.proxies.size⟩ { e with proxies := e.proxies.push p }

/-- One proxy of an engine, beside the journal. -/
def proxyPart (id : ProxyId) : Part Engine (Proxy × Journal) where
  get e := (e.proxy id, e.toJournal)
  put t e := { toJournal := t.2, proxies := e.proxies.setIfInBounds id.index t.1 }

/-- The journal of an engine. -/
def journalPart : Part Engine Journal := ⟨Engine.toJournal, fun j e => { e with toJournal := j }⟩

end Engine

end LateBinding
