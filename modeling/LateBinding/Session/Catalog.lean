import LateBinding.Extension.Lookup
import LateBinding.Member
import LateBinding.Settings.Basic

/-!
# Catalogs

A `Catalog` is what a session remembers: its settings, the extension index, the extension lookups
that succeeded, and the proxies made for members (`interned`), one for each `ProxyKey`.  Member
lookup runs on a `Workspace`, a catalog beside an engine.
-/

namespace LateBinding

/-- What a member's proxy is shared by: the receiver's whole type for declared members, its
definition for extension members. -/
inductive ProxyKey where
  | declared (ty : Ty) (member : String)
  | extension (name : TypeName) (member : String)
deriving Repr, Inhabited

/-- Equality of keys, with types compared up to the constraints of placeholders. -/
def ProxyKey.same : ProxyKey → ProxyKey → Bool
  | declared t m, declared u n => t == u && m == n
  | extension t m, extension u n => t == u && m == n
  | _, _ => false

instance : BEq ProxyKey := ⟨ProxyKey.same⟩

namespace ProxyKey

theorem same_declared {t u : Ty} {m n : String} :
    same (declared t m) (declared u n) = true ↔ (t == u) = true ∧ m = n := by simp [same]

theorem same_extension {t u : TypeName} {m n : String} :
    same (extension t m) (extension u n) = true ↔ t = u ∧ m = n := by simp [same]

theorem same_symm {a b : ProxyKey} (h : same a b = true) : same b a = true := by
  cases a <;> cases b
  · obtain ⟨ht, hm⟩ := same_declared.1 h
    exact same_declared.2 ⟨BEq.symm ht, hm.symm⟩
  · exact h
  · exact h
  · obtain ⟨ht, hm⟩ := same_extension.1 h
    exact same_extension.2 ⟨ht.symm, hm.symm⟩

theorem same_trans {a b c : ProxyKey} (hab : same a b = true) (hbc : same b c = true) :
    same a c = true := by
  cases a with
  | declared t m =>
    cases b with
    | declared u n =>
      cases c with
      | declared v l =>
        obtain ⟨ht, hm⟩ := same_declared.1 hab
        obtain ⟨hu, hn⟩ := same_declared.1 hbc
        exact same_declared.2 ⟨BEq.trans ht hu, hm.trans hn⟩
      | extension v l => exact hbc
    | extension u n => cases hab
  | extension t m =>
    cases b with
    | declared u n => cases hab
    | extension u n =>
      cases c with
      | declared v l => exact hbc
      | extension v l =>
        obtain ⟨ht, hm⟩ := same_extension.1 hab
        obtain ⟨hu, hn⟩ := same_extension.1 hbc
        exact same_extension.2 ⟨ht.trans hu, hm.trans hn⟩

end ProxyKey

instance : EquivBEq ProxyKey where
  rfl {a} := by cases a <;> simp [BEq.beq, ProxyKey.same, Ty.same_refl]
  symm := ProxyKey.same_symm
  trans := ProxyKey.same_trans

/-- The memory of a session. -/
structure Catalog where
  settings : Settings
  typing : ValueTyping
  index : ExtensionIndex
  memo : ExtensionMemo := .empty
  interned : OnceMap ProxyKey ProxyId := .empty
deriving Inhabited

/-- A catalog beside an engine. -/
structure Workspace where
  catalog : Catalog
  engine : Engine
deriving Inhabited

namespace Catalog

/-- The catalog for some settings, with nothing scanned or found yet. -/
def ofSettings (settings : Settings) : Catalog :=
  let typing := ValueTyping.ofNames settings.typeNames
  { settings, typing, index := { object := typing.object } }

/-- A new proxy over a group, with the typing and the policy of the catalog. -/
def newProxy (c : Catalog) (g : MethodGroup) : Proxy := .new g c.typing c.settings.policy

/-- Scans a namespace for extension methods, unless extensions are disabled; the number found. -/
def load (c : Catalog) (ts : TypeSystem) (ns : String) : Nat × Catalog :=
  if c.settings.extensionsEnabled then
    let (count, index) := c.index.scan ts ns
    (count, { c with index })
  else
    (0, c)

end Catalog

namespace Workspace

/-- The engine of a workspace. -/
def enginePart : Part Workspace Engine := ⟨engine, fun e w => { w with engine := e }⟩

/-- The remembered lookups of a workspace. -/
def memoPart : Part Workspace ExtensionMemo where
  get w := w.catalog.memo
  put m w := { w with catalog := { w.catalog with memo := m } }

/-- The interned proxies of a workspace, beside its engine. -/
def internedPart : Part Workspace (OnceMap ProxyKey ProxyId × Engine) where
  get w := (w.catalog.interned, w.engine)
  put t w := { catalog := { w.catalog with interned := t.1 }, engine := t.2 }

/-- A proxy of its own over a group. -/
def newProxy (g : MethodGroup) : EStateM ε Workspace ProxyId := do
  enginePart.run (Engine.add ((← get).catalog.newProxy g))

/-- The proxy of a key.  It is made over `g` when the key comes up first. -/
def proxyFor (key : ProxyKey) (g : MethodGroup) : EStateM ε Workspace ProxyId := do
  let proxy := (← get).catalog.newProxy g
  internedPart.run (OnceMap.demandApart key (Engine.add proxy))

end Workspace

end LateBinding
