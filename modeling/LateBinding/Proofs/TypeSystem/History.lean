import Mathlib.Data.List.Induction
import LateBinding.Proofs.OrderedMap
import LateBinding.TypeSystem.Basic

/-!
# Type systems and their history

A type system comes about by a list of `TypeSystem.Change`s.  `TypeSystem.definitions` says which
definitions these make, in order, without looking at any table.  Both tables follow it
(`TypeSystem.Recorded`): a name stands for its latest definition, and a namespace lists its names in
the order of first definitions.  The two tables therefore agree with each other
(`TypeSystem.TablesAgree`), so that no listed name is without a type.  Every method that is held has
a handle of its own (`TypeSystem.Issued`).  `TypeSystem.run_consistent` says all this of every list
of changes.
-/

namespace LateBinding

/-- Only an element that did not occur before is added to the first occurrences. -/
theorem eraseDups_concat [DecidableEq α] (as : List α) (a : α) :
    (as ++ [a]).eraseDups = if a ∈ as then as.eraseDups else as.eraseDups ++ [a] := by
  rw [List.eraseDups_append]
  by_cases h : a ∈ as <;> simp [List.removeAll, List.eraseDups_cons, h]

theorem nodup_eraseDups [DecidableEq α] (as : List α) : as.eraseDups.Nodup := by
  induction as using List.reverseRecOn with
  | nil => exact List.nodup_nil
  | append_singleton as a ih =>
    rw [eraseDups_concat]
    split
    · exact ih
    · rename_i ha
      rw [(List.perm_append_singleton a _).nodup_iff]
      exact List.nodup_cons.2 ⟨fun hmem => ha (List.mem_eraseDups.1 hmem), ih⟩

namespace TypeSystem

/-! ## Changes and the definitions they make -/

/-- One change of a type system: a definition by its clauses, or a method on an owner. -/
inductive Change where
  | define (qualified : String) (clauses : List Definition.Clause)
  | declare (owner : Ty) (s : Signature)

/-- Whether a change declares a method. -/
def Change.isDeclare : Change → Bool
  | define _ _ => false
  | declare _ _ => true

/-- A type system after one more change. -/
def apply (ts : TypeSystem) : Change → TypeSystem
  | .define qualified clauses => ts.define (.ofClauses qualified clauses)
  | .declare owner s => (ts.declare owner s).2

/-- The type system that changes lead to, one after the other. -/
def run (changes : List Change) : TypeSystem := changes.foldl apply {}

/-- The definitions made so far with those of one more change.  A method of an owner whose name has
no definition makes one, for the name that the owner's dotted spelling reads as. -/
def record (defs : List Definition) : Change → List Definition
  | .define qualified clauses => defs ++ [.ofClauses qualified clauses]
  | .declare owner _ =>
    if ownerName owner ∈ defs.map (·.name) then defs
    else defs ++ [.plain (ownerName owner).display]

/-- All definitions that changes make, oldest first. -/
def definitions (changes : List Change) : List Definition := changes.foldl record []

/-- The latest definition of a name. -/
def latest? (defs : List Definition) (n : TypeName) : Option Definition :=
  defs.findRev? (·.name == n)

/-- The methods of each definition. -/
def methodLists (ts : TypeSystem) : List (List Method) := ts.types.values.map (·.methods)

/-- All methods of all definitions. -/
def held (ts : TypeSystem) : List Method := ts.methodLists.flatten

theorem run_concat (changes : List Change) (c : Change) :
    run (changes ++ [c]) = (run changes).apply c := by
  rw [run, List.foldl_append]
  rfl

theorem definitions_concat (changes : List Change) (c : Change) :
    definitions (changes ++ [c]) = record (definitions changes) c := by
  rw [definitions, List.foldl_append]
  rfl

theorem latest?_concat (defs : List Definition) (d : Definition) (n : TypeName) :
    latest? (defs ++ [d]) n = if d.name == n then some d else latest? defs n := by
  simp only [latest?, List.findRev?_eq_find?_reverse, List.reverse_append, List.reverse_singleton,
    List.singleton_append, List.find?_cons]
  cases d.name == n <;> rfl

theorem isSome_latest? (defs : List Definition) (n : TypeName) :
    (latest? defs n).isSome ↔ n ∈ defs.map (·.name) := by
  rw [latest?, List.findRev?_eq_find?_reverse]
  simp [List.find?_isSome]

/-! ## The tables follow the definitions -/

variable {ts : TypeSystem} {defs : List Definition}

/-- Every name has its latest definition in the table of types, and every namespace lists its names
in the order in which they came first. -/
structure Recorded (defs : List Definition) (ts : TypeSystem) : Prop where
  definition : ∀ n, (ts.types.find? n).map (·.definition) = latest? defs n
  listed : ∀ ns, ts.listed ns = (defs.map (·.name)).eraseDups.filter (·.ns = ns)

theorem recorded_empty : Recorded [] {} := ⟨fun _ => rfl, fun _ => rfl⟩

theorem Recorded.contains_iff (h : Recorded defs ts) (n : TypeName) :
    ts.types.contains n ↔ n ∈ defs.map (·.name) := by
  rw [← isSome_latest?, ← h.definition, Option.isSome_map]
  rfl

theorem definition_define (ts : TypeSystem) (d : Definition) (n : TypeName) :
    ((ts.define d).types.find? n).map (·.definition) =
      if d.name == n then some d else (ts.types.find? n).map (·.definition) := by
  simp only [define, OrderedMap.find?_alter]
  cases d.name == n <;> rfl

theorem listed_define_of_contains {d : Definition} (h : ts.types.contains d.name) (ns : String) :
    (ts.define d).listed ns = ts.listed ns := by
  simp only [listed, define, h, if_true]

/-- A new name goes to the end of its own namespace. -/
theorem listed_define_of_missing {d : Definition} (h : ¬ ts.types.contains d.name) (ns : String) :
    (ts.define d).listed ns = ts.listed ns ++ [d.name].filter (·.ns = ns) := by
  simp only [listed, define, h, Bool.false_eq_true, if_false, OrderedMap.find?_alter, beq_iff_eq]
  split
  · rename_i hns
    simp [hns]
  · rename_i hns
    simp [hns]

/-- Methods may join an entry without any effect on the definitions. -/
theorem definition_declare (ts : TypeSystem) (owner : Ty) (s : Signature) (n : TypeName) :
    ((ts.declare owner s).2.types.find? n).map (·.definition) =
      ((ts.ensure (ownerName owner)).types.find? n).map (·.definition) := by
  simp only [declare, OrderedMap.find?_modify]
  split
  · rename_i hn
    rw [eq_of_beq hn, Option.map_map]
    rfl
  · rfl

theorem Recorded.define (h : Recorded defs ts) (d : Definition) :
    Recorded (defs ++ [d]) (ts.define d) where
  definition n := by rw [latest?_concat, ← h.definition, definition_define]
  listed ns := by
    rw [List.map_append, List.map_singleton, eraseDups_concat]
    by_cases hdefined : ts.types.contains d.name
    · rw [listed_define_of_contains hdefined, h.listed, if_pos ((h.contains_iff _).1 hdefined)]
    · rw [listed_define_of_missing hdefined, h.listed, if_neg (mt (h.contains_iff _).2 hdefined),
        List.filter_append]

theorem Recorded.declare (h : Recorded defs ts) (owner : Ty) (s : Signature) :
    Recorded (record defs (.declare owner s)) (ts.declare owner s).2 := by
  have hensure : Recorded (record defs (.declare owner s)) (ts.ensure (ownerName owner)) := by
    unfold record ensure
    simp only [h.contains_iff]
    split
    · exact h
    · exact h.define _
  exact ⟨fun n => by rw [← hensure.definition, definition_declare], hensure.listed⟩

theorem recorded_run (changes : List Change) : Recorded (definitions changes) (run changes) := by
  induction changes using List.reverseRecOn with
  | nil => exact recorded_empty
  | append_singleton changes c ih =>
    rw [definitions_concat, run_concat]
    cases c with
    | define qualified clauses => exact ih.define _
    | declare owner s => exact ih.declare owner s

/-- A name stands for a definition of this name. -/
theorem Recorded.name_eq (h : Recorded defs ts) {n : TypeName} {e : TypeEntry}
    (he : ts.types.find? n = some e) : e.definition.name = n := by
  have hlatest : latest? defs n = some e.definition := by rw [← h.definition, he, Option.map_some]
  rw [latest?, List.findRev?_eq_find?_reverse] at hlatest
  simpa using List.find?_some hlatest

/-- The table of types and the listings of the namespaces agree: a namespace lists exactly the
defined names that lie in it, each once. -/
structure TablesAgree (ts : TypeSystem) : Prop where
  nodup : ∀ ns, (ts.listed ns).Nodup
  mem_listed_iff : ∀ ns n, n ∈ ts.listed ns ↔ ts.types.contains n ∧ n.ns = ns

theorem Recorded.tablesAgree (h : Recorded defs ts) : ts.TablesAgree where
  nodup ns := by
    rw [h.listed]
    exact (nodup_eraseDups _).filter _
  mem_listed_iff ns n := by
    rw [h.listed, List.mem_filter, List.mem_eraseDups, ← h.contains_iff, decide_eq_true_iff]

/-- Where the tables agree, no listed name is passed over. -/
theorem TablesAgree.inNamespace (h : ts.TablesAgree) (ns : String) :
    (ts.inNamespace ns).map some =
      (ts.listed ns).map fun n => (ts.types.find? n).map (·.definition.self) := by
  rw [TypeSystem.inNamespace, List.map_filterMap, ← List.filterMap_eq_map]
  refine List.filterMap_congr fun n hn => ?_
  obtain ⟨e, he⟩ := Option.isSome_iff_exists.1 ((h.mem_listed_iff ns n).1 hn).1
  simp only [Function.comp_apply, he, Option.map_some]

theorem Recorded.inNamespace (h : Recorded defs ts) (ns : String) :
    (ts.inNamespace ns).map some =
      ((defs.map (·.name)).eraseDups.filter (·.ns = ns)).map fun n =>
        (latest? defs n).map Definition.self := by
  rw [h.tablesAgree.inNamespace, h.listed]
  simp only [← h.definition, Option.map_map, Function.comp_def]

theorem Recorded.interfaces (h : Recorded defs ts) {ty : Ty} {n : TypeName}
    (hn : ty.name? = some n) :
    ts.interfaces ty = ((latest? defs n).map (·.interfaces)).getD [] := by
  rw [← h.definition, Option.map_map, TypeSystem.interfaces, entry?, hn]
  rfl

theorem Recorded.base? (h : Recorded defs ts) {ty : Ty} {n : TypeName}
    (hn : ty.name? = some n) : ts.base? ty = (latest? defs n).bind (·.base) := by
  rw [← h.definition, Option.bind_map, TypeSystem.base?, entry?, hn]
  rfl

/-! ## Methods and their handles -/

theorem methods_define (ts : TypeSystem) (d : Definition) (ty : Ty) :
    (ts.define d).methods ty = ts.methods ty := by
  unfold methods entry?
  cases ty.name? with
  | none => rfl
  | some n =>
    simp only [define, Option.bind_some, OrderedMap.find?_alter]
    split
    · rename_i hn
      rw [← eq_of_beq hn]
      cases ts.types.find? d.name <;> rfl
    · rfl

theorem methods_ensure (ts : TypeSystem) (n : TypeName) (ty : Ty) :
    (ts.ensure n).methods ty = ts.methods ty := by
  unfold ensure
  split
  · rfl
  · exact methods_define ts _ ty

theorem methods_prefix_declare (ts : TypeSystem) (owner : Ty) (s : Signature) (ty : Ty) :
    ts.methods ty <+: (ts.declare owner s).2.methods ty := by
  rw [← methods_ensure ts (ownerName owner) ty]
  unfold methods entry?
  cases ty.name? with
  | none => exact List.prefix_rfl
  | some n =>
    simp only [declare, Option.bind_some, OrderedMap.find?_modify]
    split
    · rename_i hn
      rw [eq_of_beq hn]
      cases (ts.ensure n).types.find? n with
      | none => exact List.prefix_rfl
      | some e => exact List.prefix_append _ _
    · exact List.prefix_rfl

/-- No change takes a method away. -/
theorem methods_prefix_foldl (ts : TypeSystem) (changes : List Change) (ty : Ty) :
    ts.methods ty <+: (changes.foldl apply ts).methods ty := by
  induction changes generalizing ts with
  | nil => exact List.prefix_rfl
  | cons c cs ih =>
    refine List.IsPrefix.trans ?_ (ih (ts.apply c))
    cases c with
    | define qualified clauses => simp only [apply, methods_define, List.prefix_rfl]
    | declare owner s => exact methods_prefix_declare ts owner s ty

theorem methods_mem_methodLists (ts : TypeSystem) (ty : Ty) :
    ts.methods ty ∈ ts.methodLists ∨ ts.methods ty = [] := by
  unfold methods entry? methodLists
  cases hfind : ty.name?.bind ts.types.find? with
  | none => exact .inr rfl
  | some e =>
    obtain ⟨n, -, hn⟩ := Option.bind_eq_some_iff.1 hfind
    obtain ⟨e', he', -, rfl⟩ := OrderedMap.exists_mem_of_find? hn
    exact .inl (List.mem_map_of_mem (List.mem_map_of_mem he'))

theorem methodLists_define (ts : TypeSystem) (d : Definition) :
    (ts.define d).methodLists =
      ts.methodLists ++ if ts.types.contains d.name then [] else [[]] := by
  unfold methodLists OrderedMap.contains define OrderedMap.values
  rcases OrderedMap.entries_alter ts.types d.name fun old =>
      ({ definition := d, methods := (old.map (·.methods)).getD [] } : TypeEntry) with
    ⟨hnone, hes⟩ | ⟨before, k, e, after, -, hfind, hes, halter⟩
  · simp [hnone, hes]
  · simp [hfind, hes, halter]

theorem held_define (ts : TypeSystem) (d : Definition) : (ts.define d).held = ts.held := by
  rw [held, methodLists_define]
  split <;> simp [held]

theorem held_ensure (ts : TypeSystem) (n : TypeName) : (ts.ensure n).held = ts.held := by
  unfold ensure
  split
  · rfl
  · exact held_define ts _

theorem mem_held_of_mem_methods {ty : Ty} {m : Method} (hm : m ∈ ts.methods ty) : m ∈ ts.held := by
  rcases ts.methods_mem_methodLists ty with hlist | hnil
  · exact List.mem_flatten_of_mem hlist hm
  · rw [hnil] at hm
    cases hm

/-- A declared method goes to the end of one list, or nowhere. -/
theorem methodLists_declare (ts : TypeSystem) (owner : Ty) (s : Signature) :
    (ts.declare owner s).2.methodLists = (ts.ensure (ownerName owner)).methodLists ∨
      ∃ before ms after, (ts.ensure (ownerName owner)).methodLists = before ++ ms :: after ∧
        (ts.declare owner s).2.methodLists = before ++ (ms ++ [ts.newMethod owner s]) :: after := by
  unfold methodLists declare
  rcases OrderedMap.values_modify (ts.ensure (ownerName owner)).types (ownerName owner)
      (fun e => { e with methods := e.methods ++ [ts.newMethod owner s] }) with
    hsame | ⟨before, e, after, hvalues, hmodify⟩
  · exact .inl (congrArg _ hsame)
  · refine .inr ⟨before.map (·.methods), e.methods, after.map (·.methods), ?_, ?_⟩
    · simp [hvalues]
    · simp [hmodify]

theorem mem_held_declare {owner : Ty} {s : Signature} {m : Method}
    (hm : m ∈ (ts.declare owner s).2.held) : m ∈ ts.held ∨ m = ts.newMethod owner s := by
  rw [← held_ensure ts (ownerName owner)]
  unfold held at hm ⊢
  rcases methodLists_declare ts owner s with hsame | ⟨before, ms, after, hlists, hdeclare⟩
  · rw [hsame] at hm
    exact .inl hm
  · rw [hdeclare] at hm
    rw [hlists]
    simp only [List.flatten_append, List.flatten_cons, List.mem_append, List.mem_singleton] at hm ⊢
    tauto

/-- As long as handles last, the next one is the next number. -/
theorem toNat_issued_add_one {count : Nat} (hissued : ts.issued.toNat = count)
    (hcount : count + 1 < UInt64.size) : (ts.issued + 1).toNat = count + 1 := by
  rw [UInt64.toNat_add, hissued]
  exact Nat.mod_eq_of_lt hcount

/-- So many handles have been issued.  They went to different methods, in rising order on each
type. -/
structure Issued (count : Nat) (ts : TypeSystem) : Prop where
  issued : ts.issued.toNat = count
  bounded : ∀ m ∈ ts.held, m.handle.toNat ≤ count
  distinct : ts.held.Pairwise (·.handle ≠ ·.handle)
  rising : ∀ ms ∈ ts.methodLists, ms.Pairwise (·.handle < ·.handle)

theorem issued_empty : Issued 0 {} where
  issued := rfl
  bounded := List.forall_mem_nil _
  distinct := .nil
  rising := List.forall_mem_nil _

variable {count : Nat}

theorem Issued.define (h : Issued count ts) (d : Definition) : Issued count (ts.define d) := by
  refine ⟨h.issued, by rw [held_define]; exact h.bounded, by rw [held_define]; exact h.distinct, ?_⟩
  rw [methodLists_define]
  intro ms hms
  rcases List.mem_append.1 hms with hms | hms
  · exact h.rising ms hms
  · split at hms
    · cases hms
    · rw [List.mem_singleton.1 hms]
      exact .nil

theorem Issued.ensure (h : Issued count ts) (n : TypeName) : Issued count (ts.ensure n) := by
  unfold TypeSystem.ensure
  split
  · exact h
  · exact h.define _

/-- A handle may be issued for a method that no type holds. -/
theorem Issued.of_same (h : Issued count ts) {ts' : TypeSystem}
    (hissued : ts'.issued.toNat = count + 1) (hlists : ts'.methodLists = ts.methodLists) :
    Issued (count + 1) ts' where
  issued := hissued
  bounded m hm := by
    rw [held, hlists] at hm
    exact Nat.le_succ_of_le (h.bounded m hm)
  distinct := by
    rw [held, hlists]
    exact h.distinct
  rising := by
    rw [hlists]
    exact h.rising

/-- A method with the next handle goes to the end of one list. -/
theorem Issued.of_append (h : Issued count ts) {ts' : TypeSystem} {m : Method}
    {before after : List (List Method)} {ms : List Method}
    (hissued : ts'.issued.toNat = count + 1) (hm : m.handle.toNat = count + 1)
    (hlists : ts.methodLists = before ++ ms :: after)
    (hlists' : ts'.methodLists = before ++ (ms ++ [m]) :: after) : Issued (count + 1) ts' := by
  have hheld : ts'.held.Perm (m :: ts.held) := by
    have hmiddle : (before.flatten ++ ms ++ m :: after.flatten).Perm
        (m :: (before.flatten ++ ms ++ after.flatten)) := List.perm_middle
    simpa [held, hlists, hlists'] using hmiddle
  have hbelow : ∀ m' ∈ ts.held, m'.handle < m.handle := by
    intro m' hm'
    have := h.bounded m' hm'
    rw [UInt64.lt_iff_toNat_lt]
    omega
  refine ⟨hissued, fun m' hm' => ?_, ?_, ?_⟩
  · rcases List.mem_cons.1 (hheld.mem_iff.1 hm') with rfl | hm'
    · exact Nat.le_of_eq hm
    · exact Nat.le_succ_of_le (h.bounded m' hm')
  · rw [hheld.pairwise_iff Ne.symm, List.pairwise_cons]
    exact ⟨fun m' hm' => (UInt64.ne_of_lt (hbelow m' hm')).symm, h.distinct⟩
  · have hrising := h.rising
    rw [hlists, List.forall_mem_append, List.forall_mem_cons] at hrising
    obtain ⟨hbefore, hms, hafter⟩ := hrising
    rw [hlists', List.forall_mem_append, List.forall_mem_cons]
    refine ⟨hbefore, List.pairwise_append.2 ⟨hms, List.pairwise_singleton _ _, ?_⟩, hafter⟩
    intro a ha b hb
    rw [List.mem_singleton.1 hb]
    apply hbelow
    simp [held, hlists, ha]

theorem Issued.declare (h : Issued count ts) (hcount : count + 1 < UInt64.size) (owner : Ty)
    (s : Signature) : Issued (count + 1) (ts.declare owner s).2 := by
  have hensure := h.ensure (ownerName owner)
  have hnext := toNat_issued_add_one h.issued hcount
  rcases methodLists_declare ts owner s with hsame | ⟨before, ms, after, hlists, hdeclare⟩
  · exact hensure.of_same hnext hsame
  · exact hensure.of_append hnext hnext hlists hdeclare

theorem issued_run (changes : List Change)
    (hcount : changes.countP Change.isDeclare < UInt64.size) :
    Issued (changes.countP Change.isDeclare) (run changes) := by
  induction changes using List.reverseRecOn with
  | nil => exact issued_empty
  | append_singleton changes c ih =>
    rw [List.countP_append] at hcount ⊢
    rw [run_concat]
    have hbefore := ih (by omega)
    cases c with
    | define qualified clauses => exact hbefore.define _
    | declare owner s => exact hbefore.declare hcount owner s

/-! ## Consistency -/

/-- Whatever is defined and declared, in which order and how often, the two tables agree with each
other and with the history.  A namespace lists each of its defined names once and nothing else, in
the order of first definitions, and shows it by the self type of the latest one; that type leads
back to the entry it is listed for.  A type has the interfaces and the base type of its latest
definition, while the methods of every type stay as they are under a definition and only ever get
longer.  As long as handles last, no two methods share one, and they rise along the methods of each
type. -/
theorem run_consistent (changes : List Change)
    (hcount : changes.countP Change.isDeclare < UInt64.size) :
    let ts := run changes
    let defs := definitions changes
    ts.TablesAgree ∧
      (∀ ns, ts.listed ns = (defs.map (·.name)).eraseDups.filter (·.ns = ns)) ∧
      (∀ ns, (ts.inNamespace ns).map some =
        ((defs.map (·.name)).eraseDups.filter (·.ns = ns)).map fun n =>
          (latest? defs n).map Definition.self) ∧
      (∀ n e, ts.types.find? n = some e →
        e.definition.name = n ∧ e.definition.self.name? = some n) ∧
      (∀ ty n, ty.name? = some n →
        ts.interfaces ty = ((latest? defs n).map (·.interfaces)).getD [] ∧
          ts.base? ty = (latest? defs n).bind (·.base)) ∧
      (∀ qualified clauses ty,
        (ts.apply (.define qualified clauses)).methods ty = ts.methods ty) ∧
      (∀ more ty, ts.methods ty <+: (run (changes ++ more)).methods ty) ∧
      ts.held.Pairwise (·.handle ≠ ·.handle) ∧
      ∀ ty, (ts.methods ty).Pairwise (·.handle < ·.handle) := by
  intro ts defs
  have hrecorded : Recorded defs ts := recorded_run changes
  have hissued : Issued _ ts := issued_run changes hcount
  refine ⟨hrecorded.tablesAgree, hrecorded.listed, hrecorded.inNamespace, fun n e he => ?_,
    fun ty n hn => ?_, fun qualified clauses ty => ?_, fun more ty => ?_, hissued.distinct,
    fun ty => ?_⟩
  · have hname := hrecorded.name_eq he
    exact ⟨hname, by rw [Definition.name?_self, hname]⟩
  · exact ⟨hrecorded.interfaces hn, hrecorded.base? hn⟩
  · exact methods_define ts _ ty
  · rw [run, List.foldl_append]
    exact methods_prefix_foldl ts more ty
  · rcases ts.methods_mem_methodLists ty with hmem | hnil
    · exact hissued.rising _ hmem
    · rw [hnil]
      exact .nil

/-- A method makes a class before its definition comes, which then makes the class generic. -/
theorem run_consistent_shape :
    let shape : Ty := .app ⟨"Demo", "Shape"⟩ [.param ⟨"T", 0, .type⟩ []]
    let changes : List Change := [
      .define "Demo.Base" [],
      .declare (.con ⟨"Demo", "Shape"⟩) { name := "Draw" },
      .declare (.con ⟨"Demo", "Base"⟩) { name := "Close" },
      .define "Demo.Shape" [.generic ["T"], .base (.con ⟨"Demo", "Base"⟩)],
      .declare shape { name := "Area" }]
    let ts := run changes
    changes.countP Change.isDeclare < UInt64.size ∧
      ts.TablesAgree ∧ ts.listed "Demo" = [⟨"Demo", "Base"⟩, ⟨"Demo", "Shape"⟩] ∧
      (ts.inNamespace "Demo").map some = [some (.con ⟨"Demo", "Base"⟩), some shape] ∧
      ts.base? shape = some (.con ⟨"Demo", "Base"⟩) ∧
      (ts.methods shape).map (·.name) = ["Draw", "Area"] ∧
      (ts.methods shape).Pairwise (·.handle < ·.handle) ∧
      ts.held.Pairwise (·.handle ≠ ·.handle) := by
  intro shape changes ts
  have hcount : changes.countP Change.isDeclare < UInt64.size := by decide
  obtain ⟨hagree, hlisted, hshown, -, hparents, -, -, hdistinct, hrising⟩ :=
    run_consistent changes hcount
  exact ⟨hcount, hagree, hlisted "Demo", hshown "Demo", (hparents shape _ rfl).2, rfl,
    hrising shape, hdistinct⟩

end TypeSystem

end LateBinding
