import LateBinding.Proofs.Extension.Completeness

/-!
# Universal extensions come last

Where types listed as interfaces have no base type, depth-first order leaves the chain of base types
for interfaces only, and comes back for the next base type.  A universal object type that has no
parents and is no interface can then stand at the end of that order only
(`TypeSystem.notMem_dropLast_lineage`).  So its candidates are looked up after those of all other
types above the receiver, and never shadow them (`ExtensionIndex.universal_never_shadows`).
-/

namespace LateBinding

/-! ## Depth-first order along a spine -/

section Spine

variable {α : Type u} {o n : α}

theorem notMem_dropLast_cons {l : List α} (hl : o ∉ l.dropLast) (ho : n = o → l = []) :
    o ∉ (n :: l).dropLast := by
  cases l with
  | nil => exact List.not_mem_nil
  | cons a l =>
    rw [List.dropLast_cons_cons, List.mem_cons, not_or]
    exact ⟨fun h => absurd (ho h.symm) (List.cons_ne_nil a l), hl⟩

/-- A search that tries `o` last and then once more comes to the same as one that leaves `o` out at
first. -/
theorem findSome?_or_of_notMem_dropLast [DecidableEq α] {l : List α} {f : α → Option β}
    (h : o ∉ l.dropLast) :
    (l.findSome? f).or (f o) = ((l.filter (· ≠ o)).findSome? f).or (f o) := by
  rcases List.eq_nil_or_concat l with rfl | ⟨init, last, rfl⟩
  · rfl
  · rw [List.concat_eq_append] at h ⊢
    rw [List.dropLast_concat] at h
    have hinit : init.filter (· ≠ o) = init := by
      rw [List.filter_eq_self]
      exact fun a ha => decide_eq_true fun hao => h (hao ▸ ha)
    rw [List.filter_append, hinit, List.findSome?_append]
    by_cases hlast : last = o
    · rw [hlast, List.filter_singleton, Option.or_assoc]
      simp
    · simp [hlast]

variable [DecidableEq α] {next : α → List α}

/-- Suppose that side nodes lead to side nodes only, and that of the successors of any node all but
perhaps the last one are side nodes.  Then a node without successors that is no side node stands at
the end of the preorder, if at all. -/
theorem notMem_dropLast_preorder (side : α → Prop) (hside : ∀ a, side a → ∀ b ∈ next a, side b)
    (hspine : ∀ a, ∀ b ∈ (next a).dropLast, side b) (ho : ¬ side o) (hstop : next o = [])
    {unvisited pending : List α} (hpending : ∀ a ∈ pending.dropLast, side a) :
    o ∉ (preorder next unvisited pending).dropLast := by
  fun_induction preorder next unvisited pending with
  | case1 => exact List.not_mem_nil
  | case2 unvisited n rest hmem ih =>
    cases rest with
    | nil =>
      rw [List.append_nil] at ih ⊢
      refine notMem_dropLast_cons (ih (hspine n)) fun hn => ?_
      rw [hn, hstop, preorder_nil]
    | cons c rest =>
      rw [List.dropLast_cons_cons] at hpending
      obtain ⟨hn, hrest⟩ := List.forall_mem_cons.1 hpending
      refine notMem_dropLast_cons (ih ?_) fun hno => absurd (hno ▸ hn) ho
      rw [List.dropLast_append_of_ne_nil (List.cons_ne_nil c rest)]
      exact List.forall_mem_append.2 ⟨hside n hn, hrest⟩
  | case3 unvisited n rest _ ih =>
    cases rest with
    | nil => exact ih (List.forall_mem_nil side)
    | cons c rest => exact ih (List.forall_mem_cons.1 hpending).2

end Spine

/-! ## Type systems with a root -/

namespace TypeSystem

variable {ts : TypeSystem}

/-- Types that some type lists as interfaces have no base type. -/
def InterfacesLackBase (ts : TypeSystem) : Prop := ∀ t, ∀ i ∈ ts.interfaces t, ts.base? i = none

/-- A type without interfaces and base type whose definition no type lists as an interface. -/
structure IsRoot (ts : TypeSystem) (o : Ty) : Prop where
  interfaces : ts.interfaces o = []
  base : ts.base? o = none
  unlisted : ∀ t, ∀ i ∈ ts.interfaces t, ∀ n, i.name? = some n → o.name? ≠ some n

/-- What holds of the interfaces of every definition holds of those of every type. -/
theorem forall_mem_interfaces {P : Ty → Prop}
    (h : ∀ e ∈ ts.types.entries, ∀ i ∈ e.2.definition.interfaces, P i) (t : Ty) :
    ∀ i ∈ ts.interfaces t, P i := by
  intro i hi
  unfold interfaces at hi
  cases hentry : ts.entry? t with
  | none =>
    rw [hentry] at hi
    cases hi
  | some e =>
    rw [hentry] at hi
    obtain ⟨n, -, hfind⟩ := Option.bind_eq_some_iff.1 hentry
    obtain ⟨⟨k, _⟩, hk, -, rfl⟩ := OrderedMap.exists_mem_of_find? hfind
    exact h _ hk i hi

/-- The name of a type that some type lists as an interface. -/
def Listed (ts : TypeSystem) (n : TypeName) : Prop := ∃ t, ∃ i ∈ ts.interfaces t, i.name? = some n

/-- All parents are listed as interfaces, except perhaps for the last one. -/
theorem listed_of_mem_dropLast (n : TypeName) :
    ∀ b ∈ (ts.parentNames n).dropLast, ts.Listed b := by
  intro b hb
  have hinterfaces : ∀ c ∈ (ts.interfaces (.con n)).filterMap Ty.name?, ts.Listed c := by
    intro c hc
    obtain ⟨i, hi, hic⟩ := List.mem_filterMap.1 hc
    exact ⟨_, i, hi, hic⟩
  have hnames : (ts.parents (.con n)).filterMap Ty.name? = ts.parentNames n := filterMap_parents rfl
  rw [← hnames, parents, List.filterMap_append] at hb
  cases hbase : ts.base? (.con n) with
  | none =>
    rw [hbase, Option.toList_none, List.filterMap_nil, List.append_nil] at hb
    exact hinterfaces b (List.mem_of_mem_dropLast hb)
  | some u =>
    rw [hbase, Option.toList_some] at hb
    cases hu : u.name? with
    | none =>
      rw [List.filterMap_cons_none hu, List.filterMap_nil, List.append_nil] at hb
      exact hinterfaces b (List.mem_of_mem_dropLast hb)
    | some c =>
      rw [List.filterMap_cons_some hu, List.filterMap_nil, List.dropLast_concat] at hb
      exact hinterfaces b hb

/-- Where interfaces have no base type, all that they lead to are interfaces. -/
theorem Listed.parent (hlack : ts.InterfacesLackBase) {n b : TypeName} (hn : ts.Listed n)
    (hb : b ∈ ts.parentNames n) : ts.Listed b := by
  obtain ⟨t, i, hi, hin⟩ := hn
  obtain ⟨u, hu, hub⟩ := (mem_parentNames_iff hin).1 hb
  rw [parents, hlack t i hi, Option.toList_none, List.append_nil] at hu
  exact ⟨i, u, hu, hub⟩

/-- A root stands at the end of every lineage, if it is in there at all. -/
theorem notMem_dropLast_lineage (hlack : ts.InterfacesLackBase) {root : Ty} (hroot : ts.IsRoot root)
    {o : TypeName} (ho : root.name? = some o) (n : TypeName) : o ∉ (ts.lineage n).dropLast := by
  refine notMem_dropLast_preorder ts.Listed (fun a ha b hb => ha.parent hlack hb)
    listed_of_mem_dropLast ?_ ?_ (List.forall_mem_nil ts.Listed)
  · rintro ⟨t, i, hi, hio⟩
    exact hroot.unlisted t i hi o hio ho
  · rw [← filterMap_parents ho, parents, hroot.interfaces, hroot.base]
    rfl

end TypeSystem

/-! ## Lookup -/

namespace ExtensionIndex

variable {ix : ExtensionIndex} {ts : TypeSystem}

/-- The definitions reached from `n` other than that of the universal object type. -/
def specifics (ix : ExtensionIndex) (ts : TypeSystem) (n : TypeName) : List TypeName :=
  (ts.lineage n).filter fun k => ix.object.name? ≠ some k

theorem mem_specifics_iff {ty : Ty} {n k : TypeName} (hn : ty.name? = some n) :
    k ∈ ix.specifics ts n ↔ ix.object.name? ≠ some k ∧ ∃ path, ts.PathUp ty k path := by
  rw [specifics, List.mem_filter, decide_eq_true_iff, ← TypeSystem.implements_iff_mem_lineage hn,
    TypeSystem.implements_iff_exists_pathUp, and_comm]

/-- The candidates of the first definition other than that of the object type to have any. -/
def specific? (ix : ExtensionIndex) (ts : TypeSystem) (n : TypeName) (member : String) :
    Option (List Method) :=
  (ix.specifics ts n).findSome? (ix.lookup? · member)

theorem find?_eq_specific_or_universal (hlack : ts.InterfacesLackBase) (hroot : ts.IsRoot ix.object)
    (n : TypeName) (member : String) :
    ix.find? ts n member = (ix.specific? ts n member).or (ix.universal? member) := by
  unfold find? specific? specifics universal?
  cases ho : ix.object.name? with
  | none => simp
  | some o =>
    rw [Option.bind_some,
      findSome?_or_of_notMem_dropLast (TypeSystem.notMem_dropLast_lineage hlack hroot ho n)]
    simp only [ne_eq, Option.some.injEq, eq_comm]

theorem answer_resolveOnce_of_root (hlack : ts.InterfacesLackBase) (hroot : ts.IsRoot ix.object)
    {ty : Ty} {n : TypeName} (hn : ty.name? = some n) (member : String) :
    answer (ix.resolveOnce ts ty member) .empty =
      lookupAnswer ty member ((ix.specific? ts n member).or (ix.universal? member)) := by
  rw [answer_resolveOnce_empty, resolve, hn, Option.bind_some,
    find?_eq_specific_or_universal hlack hroot]
  rfl

/-- Lookup with nothing remembered, in a hierarchy where interfaces have no base type and the
universal object type is a root, cycles or not.  If any other definition above the receiver type has
candidates, then the answer is the candidates of such a definition.  These may happen to be the same
methods as those for the object type, but what is registered for the object type makes no difference
to the answer.  The candidates for the object type are looked up only if no other definition has
any. -/
theorem universal_never_shadows (ix : ExtensionIndex) (ts : TypeSystem) (ty : Ty) (member : String)
    (hty : ty.name?.isSome) (hlack : ts.InterfacesLackBase) (hroot : ts.IsRoot ix.object) :
    let outcome := answer (ix.resolveOnce ts ty member) .empty
    let other k := ix.object.name? ≠ some k ∧ ∃ path, ts.PathUp ty k path
    ((∃ k, other k ∧ (ix.lookup? k member).isSome) →
        (∃ k methods, other k ∧ ix.lookup? k member = some methods ∧ outcome = .ok methods) ∧
        ∀ ix' : ExtensionIndex, ix'.object = ix.object →
          (∀ k, ix.object.name? ≠ some k → ix'.lookup? k member = ix.lookup? k member) →
          answer (ix'.resolveOnce ts ty member) .empty = outcome) ∧
      ((∀ k, other k → ix.lookup? k member = none) →
        outcome = lookupAnswer ty member (ix.universal? member)) := by
  intro outcome other
  obtain ⟨n, hn⟩ := Option.isSome_iff_exists.1 hty
  have hother : ∀ k, k ∈ ix.specifics ts n ↔ other k := fun k => mem_specifics_iff hn
  have houtcome : outcome = _ := answer_resolveOnce_of_root hlack hroot hn member
  constructor
  · rintro ⟨k, hk, hlookup⟩
    have hsome : (ix.specific? ts n member).isSome :=
      List.findSome?_isSome_iff.2 ⟨k, (hother k).2 hk, hlookup⟩
    obtain ⟨methods, hmethods⟩ := Option.isSome_iff_exists.1 hsome
    rw [hmethods, Option.some_or] at houtcome
    refine ⟨?_, fun ix' hobject hsame => ?_⟩
    · obtain ⟨j, hj, hfound⟩ := List.exists_of_findSome?_eq_some hmethods
      exact ⟨j, methods, (hother j).1 hj, hfound, houtcome⟩
    · have hspecifics : ix'.specifics ts n = ix.specifics ts n := by
        rw [specifics, hobject, specifics]
      have hspecific : ix'.specific? ts n member = some methods := by
        rw [← hmethods, specific?, hspecifics, specific?, ← List.head?_filterMap,
          ← List.head?_filterMap]
        exact congrArg _ (List.filterMap_congr fun j hj => hsame j ((hother j).1 hj).1)
      rw [answer_resolveOnce_of_root hlack (hobject ▸ hroot) hn, hspecific, houtcome]
      rfl
  · intro hnone
    have hspecific : ix.specific? ts n member = none :=
      List.findSome?_eq_none_iff.2 fun k hk => hnone k ((hother k).1 hk)
    rw [houtcome, hspecific, Option.none_or]

/-- Two interfaces that lead to each other, above the base type of the receiver type.  One of them
and the object type have candidates for the same member. -/
theorem universal_never_shadows_cycle :
    let derived : Ty := .con ⟨"Demo", "Derived"⟩
    let first : TypeName := ⟨"Demo", "IFirst"⟩
    let second : TypeName := ⟨"Demo", "ISecond"⟩
    let greet : Method := { name := "Greet" }
    let print : Method := { name := "Print" }
    let ts := [
      { name := ⟨"Demo", "Derived"⟩, base := some (.con ⟨"Demo", "Base"⟩) },
      { name := ⟨"Demo", "Base"⟩, interfaces := [.con first], base := some .object },
      { name := first, interfaces := [.con second] },
      { name := second, interfaces := [.con first] }].foldl TypeSystem.define {}
    let ix := ((({ object := .object } : ExtensionIndex).register ⟨"System", "Object"⟩ "Greet"
      print).register ⟨"System", "Object"⟩ "Print" print).register second "Greet" greet
    derived.name?.isSome ∧ ts.InterfacesLackBase ∧ ts.IsRoot ix.object ∧
      (∃ k methods, (ix.object.name? ≠ some k ∧ ∃ path, ts.PathUp derived k path) ∧
        ix.lookup? k "Greet" = some methods ∧
        answer (ix.resolveOnce ts derived "Greet") .empty = .ok methods) ∧
      answer (ix.resolveOnce ts derived "Print") .empty = .ok [print] := by
  intro derived first second greet print ts ix
  have hlack : ts.InterfacesLackBase :=
    TypeSystem.forall_mem_interfaces (P := fun i => ts.base? i = none) (by decide)
  have hroot : ts.IsRoot ix.object := ⟨rfl, rfl, TypeSystem.forall_mem_interfaces (by decide)⟩
  have hpath : ts.PathUp derived second
      [derived, .con ⟨"Demo", "Base"⟩, .con first, .con second] := by
    refine ⟨rfl, ?_, by decide, rfl⟩
    have hsteps : ts.StepUp derived (.con ⟨"Demo", "Base"⟩) ∧
        ts.StepUp (.con ⟨"Demo", "Base"⟩) (.con first) ∧ ts.StepUp (.con first) (.con second) :=
      ⟨.inr rfl, .inl List.mem_cons_self, .inl List.mem_cons_self⟩
    simpa using hsteps
  have hlineage : ts.lineage ⟨"Demo", "Derived"⟩ =
      [⟨"Demo", "Derived"⟩, ⟨"Demo", "Base"⟩, first, second, ⟨"System", "Object"⟩] := by
    simp only [ts, first, second, TypeSystem.lineage_eq_within]
    rfl
  obtain ⟨hshow, -⟩ := universal_never_shadows ix ts derived "Greet" rfl hlack hroot
  obtain ⟨-, hprint⟩ := universal_never_shadows ix ts derived "Print" rfl hlack hroot
  refine ⟨rfl, hlack, hroot, (hshow ⟨second, ⟨by decide, _, hpath⟩, rfl⟩).1, hprint ?_⟩
  rintro k ⟨hk, hreached⟩
  rw [← TypeSystem.implements_iff_exists_pathUp, TypeSystem.implements_iff_mem_lineage rfl,
    hlineage] at hreached
  revert hk
  revert k
  decide

end ExtensionIndex

end LateBinding
