import LateBinding.Session.Basic
import LateBinding.Proofs.Extension.Recursion
import LateBinding.Proofs.Session.Proxies

/-!
# Workspaces apart from their memory

A workspace is sound if its proxies are, its memo holds lookups as the extension index answers them,
and every interned proxy is over the group that its key stands for.  An action grows a workspace
(`Workspace.Grows`) if it leaves a sound one with the same tables and, up to caches, the same
proxies and perhaps more.
-/

namespace LateBinding

/-! ## Tables that the lookups read -/

section Tables

variable {ts ts' : TypeSystem}

theorem ExtensionIndex.find?_congr (h : ts'.types = ts.types) (ix : ExtensionIndex) (n : TypeName)
    (member : String) : ix.find? ts' n member = ix.find? ts n member := by
  obtain ⟨types, issued, substitutions⟩ := ts
  obtain ⟨types', issued', substitutions'⟩ := ts'
  cases h
  rfl

theorem TypeSystem.declaredMethods?_congr (h : ts'.types = ts.types) (ty : Ty) (member : String) :
    ts'.declaredMethods? ty member = ts.declaredMethods? ty member := by
  obtain ⟨types, issued, substitutions⟩ := ts
  obtain ⟨types', issued', substitutions'⟩ := ts'
  cases h
  rfl

theorem TypeSystem.declaredMethods?_of_beq {t u : Ty} (h : t == u) (member : String) :
    ts.declaredMethods? t member = ts.declaredMethods? u member := by
  rw [declaredMethods?, Ty.name?_congr h, declaredMethods?]

end Tables

namespace ProxyKey

/-- The member name of a key. -/
def member : ProxyKey → String
  | declared _ member => member
  | extension _ member => member

/-- The methods that a key stands for. -/
def methods? (ix : ExtensionIndex) (ts : TypeSystem) : ProxyKey → Option (List Method)
  | declared ty member => ts.declaredMethods? ty member
  | extension n member => ix.find? ts n member

/-- The group that a key stands for. -/
def group? (ix : ExtensionIndex) (ts : TypeSystem) (key : ProxyKey) : Option MethodGroup :=
  (key.methods? ix ts).map fun methods => { name := key.member, methods }

theorem group?_congr {ts ts' : TypeSystem} (h : ts'.types = ts.types) (ix : ExtensionIndex)
    (key : ProxyKey) : key.group? ix ts' = key.group? ix ts := by
  unfold group?
  cases key with
  | declared ty member => rw [methods?, TypeSystem.declaredMethods?_congr h, methods?]
  | extension n member => rw [methods?, ExtensionIndex.find?_congr h, methods?]

/-- A key of a declared member stands for its group by the definition of the type alone. -/
theorem group?_of_beq {key k : ProxyKey} (h : key == k) (ix : ExtensionIndex) (ts : TypeSystem) :
    key.group? ix ts = k.group? ix ts := by
  cases key with
  | declared ty m =>
    cases k with
    | declared ty' m' =>
      obtain ⟨hty, rfl⟩ := same_declared.1 h
      rw [group?, methods?, TypeSystem.declaredMethods?_of_beq hty]
      rfl
    | extension n m' => cases h
  | extension n m =>
    cases k with
    | declared ty m' => cases h
    | extension n' m' =>
      obtain ⟨rfl, rfl⟩ := same_extension.1 h
      rfl

end ProxyKey

/-! ## Extension lookups from memory -/

namespace ExtensionIndex

variable {ix : ExtensionIndex} {ts : TypeSystem} {memo : ExtensionMemo}

/-- The memo holds what the index answers. -/
abbrev Remembers (ix : ExtensionIndex) (ts : TypeSystem) (memo : ExtensionMemo) : Prop :=
  memo.Holds fun key methods => ix.find? ts key.1 key.2 = some methods

theorem Remembers.answer_resolveOnce (h : Remembers ix ts memo) (ty : Ty) (member : String) :
    answer (ix.resolveOnce ts ty member) memo = ix.resolve ts ty member := by
  cases hn : ty.name? with
  | none => exact answer_resolveOnce_of_none hn memo
  | some n =>
    rw [ExtensionIndex.answer_resolveOnce hn]
    cases hm : memo.get? (n, member) with
    | none => rfl
    | some methods =>
      have hfind := h.holds (n, member) methods hm
      simp only [resolve, hn, Option.bind_some, hfind]

theorem Remembers.after_resolveOnce (h : Remembers ix ts memo) (ty : Ty) (member : String) :
    Remembers ix ts (after (ix.resolveOnce ts ty member) memo) := by
  cases hn : ty.name? with
  | none => rwa [after_resolveOnce_of_none hn]
  | some n =>
    rw [after_resolveOnce_eq_demanded hn]
    refine OnceMap.Holds.after_demandApart h (fun k k' methods hk hm => ?_) _ _ _ ?_
    · rwa [← eq_of_beq hk]
    · intro methods hm
      rw [answer_liftExcept] at hm
      unfold resolve at hm
      rw [hn, Option.bind_some] at hm
      cases hfind : ix.find? ts n member with
      | none => rw [hfind] at hm; cases hm
      | some methods' => rw [hfind] at hm; cases hm; rfl

end ExtensionIndex

namespace Workspace

/-- The workspace with nothing remembered. -/
def forget (w : Workspace) : Workspace where
  catalog := { w.catalog with memo := .empty, interned := .empty }
  engine := w.engine.forget

/-- Everything that is remembered is true of the tables. -/
structure Sound (w : Workspace) : Prop where
  engine : w.engine.Sound
  memo : w.catalog.index.Remembers w.engine.types w.catalog.memo
  interned : w.catalog.interned.Holds fun key id =>
    id.index < w.engine.proxies.size ∧ ∃ g, key.group? w.catalog.index w.engine.types = some g ∧
      (w.engine.proxy id).forget = w.catalog.newProxy g

/-- The later workspace has the same tables and settings, and the proxies of the earlier one. -/
structure Extends (w w' : Workspace) : Prop where
  settings : w'.catalog.settings = w.catalog.settings
  typing : w'.catalog.typing = w.catalog.typing
  index : w'.catalog.index = w.catalog.index
  engine : w.engine.Extends w'.engine

theorem Extends.refl (w : Workspace) : w.Extends w := ⟨rfl, rfl, rfl, .refl _⟩

theorem Extends.trans {w w' w'' : Workspace} (h : w.Extends w') (h' : w'.Extends w'') :
    w.Extends w'' where
  settings := h'.settings.trans h.settings
  typing := h'.typing.trans h.typing
  index := h'.index.trans h.index
  engine := h.engine.trans h'.engine

theorem Extends.newProxy {w w' : Workspace} (h : w.Extends w') (g : MethodGroup) :
    w'.catalog.newProxy g = w.catalog.newProxy g := by
  rw [Catalog.newProxy, Catalog.newProxy, h.typing, h.settings]

theorem sound_forget (w : Workspace) : w.forget.Sound where
  engine := w.engine.sound_forget
  memo := OnceMap.holds_empty _
  interned := OnceMap.holds_empty _

/-- What is interned stays true in a later engine. -/
theorem Sound.of_engine {w : Workspace} (h : w.Sound) {e : Engine} (he : e.Sound)
    (hgrows : w.engine.Extends e) : ({ w with engine := e } : Workspace).Sound where
  engine := he
  memo := h.memo.mono fun key methods hm => by
    rw [ExtensionIndex.find?_congr hgrows.tables, hm]
  interned := h.interned.mono fun key id hid => by
    obtain ⟨hlt, g, hg, hproxy⟩ := hid
    refine ⟨Nat.lt_of_lt_of_le hlt hgrows.size, g, ?_, ?_⟩
    · rw [ProxyKey.group?_congr hgrows.tables, hg]
    · rw [hgrows.proxy id hlt, hproxy]

/-! ## Actions from a sound workspace -/

/-- The action leaves a sound workspace that extends the one it starts from. -/
structure Grows (w : Workspace) (act : EStateM ResolutionError Workspace α) : Prop where
  sound : (after act w).Sound
  grows : w.Extends (after act w)

/-- An action that grows the workspace and answers `r`, seen by `view` in the engine afterwards. -/
structure Yields (w : Workspace) (act : EStateM ResolutionError Workspace α)
    (view : Engine → α → β) (r : Except ResolutionError β) : Prop extends Grows w act where
  answer : (answer act w).map (view (after act w).engine) = r

variable {w : Workspace} {act : EStateM ResolutionError Workspace α}
  {next : α → EStateM ResolutionError Workspace β} {view : Engine → β → γ}

theorem Grows.bind_of_ok {a : α} {r : Except ResolutionError γ} (h : Grows w act)
    (ha : LateBinding.answer act w = .ok a) (hnext : Yields (after act w) (next a) view r) :
    Yields w (act >>= next) view r where
  sound := by
    rw [after_bind_of_ok ha]
    exact hnext.sound
  grows := by
    rw [after_bind_of_ok ha]
    exact h.grows.trans hnext.grows
  answer := by
    rw [answer_bind_of_ok ha, after_bind_of_ok ha]
    exact hnext.answer

theorem Grows.bind_of_error {e : ResolutionError} (h : Grows w act)
    (he : LateBinding.answer act w = .error e) : Yields w (act >>= next) view (.error e) where
  sound := by
    rw [after_bind_of_error he]
    exact h.sound
  grows := by
    rw [after_bind_of_error he]
    exact h.grows
  answer := by
    rw [answer_bind_of_error he]
    rfl

theorem yields_pure (hw : w.Sound) (b : β) :
    Yields w (pure b) view (.ok (view w.engine b)) :=
  ⟨⟨hw, .refl w⟩, rfl⟩

theorem grows_get (hw : w.Sound) :
    Grows w (get : EStateM ResolutionError Workspace Workspace) := ⟨hw, .refl w⟩

end Workspace

end LateBinding
