import Mathlib.Data.List.Induction
import LateBinding.Extension.Index
import LateBinding.Proofs.Extension.Table

/-!
# The extension index as a log

An `ExtensionIndex` is changed by registration, by scanning and by merging, and each change adds
`Registration`s to what was there (`ExtensionIndex.History.added`).  A `History` only keeps them in
a row, and the index says no more and no less than its history: lookup, listing and the count of a
scan can be read off it (`ExtensionIndex.run_refines_log`).
-/

namespace LateBinding

/-- The extension methods that the types of a namespace declare, each under its own name. -/
def TypeSystem.extensionsIn (ts : TypeSystem) (object : Ty) (ns : String) : List Registration :=
  (ts.inNamespace ns).flatMap fun ty => (ts.methods ty).filterMap fun m =>
    (m.extendedName? object).map (⟨·, m.name, m⟩)

theorem TypeSystem.map_extensionsOf (ts : TypeSystem) (object : Ty) (ns : String) :
    ((ts.extensionsOf (ts.inNamespace ns) object).map fun (n, m) => ⟨n, m.name, m⟩) =
      ts.extensionsIn object ns := by
  simp only [extensionsOf, extensionsIn, List.filterMap_flatMap, List.map_flatMap,
    List.map_filterMap, Option.map_map]
  rfl

namespace ExtensionIndex

/-- One change of an index.  The rows of a merged table may come in any order. -/
inductive Change where
  | register (n : TypeName) (member : String) (m : Method)
  | scan (ts : TypeSystem) (ns : String)
  | merge (t : ExtensionTable) (distinct : t.Distinct) (order : List ExtensionRow)
    (filed : order.Perm t.filed)

/-- The namespace that a change asks to be scanned. -/
def Change.namespace? : Change → Option String
  | scan _ ns => some ns
  | register _ _ _ | merge _ _ _ _ => none

/-- An index after one more change. -/
def apply (ix : ExtensionIndex) : Change → ExtensionIndex
  | .register n member m => ix.register n member m
  | .scan ts ns => (ix.scan ts ns).2
  | .merge t _ _ _ => ix.merge t

/-- The index that changes lead to, one after the other. -/
def run (object : Ty) (changes : List Change) : ExtensionIndex := changes.foldl apply { object }

/-- All registrations so far, oldest first, and the namespaces that were to be scanned. -/
structure History where
  log : List Registration := []
  scanned : List String := []

namespace History

/-- The registrations that one more change adds. -/
def added (object : Ty) (h : History) : Change → List Registration
  | .register n member m => [⟨n, member, m⟩]
  | .scan ts ns => if ns ∈ h.scanned then [] else ts.extensionsIn object ns
  | .merge _ _ order _ => order.flatMap ExtensionRow.registrations

/-- A history with one more change. -/
def record (object : Ty) (h : History) (c : Change) : History where
  log := h.log ++ h.added object c
  scanned := h.scanned ++ c.namespace?.toList

/-- The history of changes. -/
def of (object : Ty) (changes : List Change) : History := changes.foldl (record object) {}

theorem of_concat (object : Ty) (changes : List Change) (c : Change) :
    of object (changes ++ [c]) = record object (of object changes) c := by
  rw [of, List.foldl_append]
  rfl

theorem log_prefix_foldl (object : Ty) (h : History) (changes : List Change) :
    h.log <+: (changes.foldl (record object) h).log := by
  induction changes generalizing h with
  | nil => exact List.prefix_rfl
  | cons c cs ih => exact (List.prefix_append _ _).trans (ih (h.record object c))

end History

variable {object : Ty} {h : History} {ix : ExtensionIndex}

/-- An index holds exactly what its history says. -/
structure Reflects (object : Ty) (h : History) (ix : ExtensionIndex) : Prop where
  object_eq : ix.object = object
  distinct : ix.table.Distinct
  candidates : ∀ n member, ix.table.candidates n member = methodsFor h.log n member
  scanned : ∀ ns, ns ∈ ix.scanned ↔ ns ∈ h.scanned

theorem reflects_empty (object : Ty) : Reflects object {} { object } where
  object_eq := rfl
  distinct := ExtensionTable.distinct_empty
  candidates _ _ := rfl
  scanned _ := Iff.rfl

theorem Reflects.register (hix : Reflects object h ix) (n : TypeName) (member : String)
    (m : Method) :
    Reflects object (h.record object (.register n member m)) (ix.register n member m) where
  object_eq := hix.object_eq
  distinct := hix.distinct.append n member [m]
  candidates n' member' := by
    rw [History.record, methodsFor_append, ← hix.candidates]
    exact (ExtensionTable.candidates_append _ n member [m] n' member').trans
      (by rw [History.added, methodsFor_cons, methodsFor_nil, List.append_nil])
  scanned ns := by
    rw [History.record, Change.namespace?, Option.toList_none, List.append_nil]
    exact hix.scanned ns

theorem Reflects.merge (hix : Reflects object h ix) {t : ExtensionTable} (ht : t.Distinct)
    {order : List ExtensionRow} (horder : order.Perm t.filed) :
    Reflects object (h.record object (.merge t ht order horder)) (ix.merge t) where
  object_eq := hix.object_eq
  distinct := hix.distinct.merge t
  candidates n member := by
    have hrows := ExtensionTable.methodsFor_filed ht horder n member
    have hfiled := ExtensionTable.methodsFor_filed ht (List.Perm.refl _) n member
    rw [History.record, methodsFor_append, ← hix.candidates, History.added, hrows, ← hfiled]
    exact ExtensionTable.candidates_merge ix.table t n member
  scanned ns := by
    rw [History.record, Change.namespace?, Option.toList_none, List.append_nil]
    exact hix.scanned ns

/-- The table of what a scan finds has no rows but those of the namespace. -/
theorem candidates_ofFound_extensionsOf (ts : TypeSystem) (object : Ty) (ns : String)
    (n : TypeName) (member : String) :
    (ExtensionTable.ofFound (ts.extensionsOf (ts.inNamespace ns) object)).candidates n member =
      methodsFor (ts.extensionsIn object ns) n member := by
  rw [ExtensionTable.candidates_ofFound, TypeSystem.map_extensionsOf]

theorem Reflects.scan (hix : Reflects object h ix) (ts : TypeSystem) (ns : String) :
    Reflects object (h.record object (.scan ts ns)) (ix.scan ts ns).2 := by
  have hscanned : ∀ ns', ns' ∈ (h.record object (.scan ts ns)).scanned ↔
      ns' ∈ h.scanned ∨ ns' = ns := fun ns' => by
    simp [History.record, Change.namespace?]
  unfold ExtensionIndex.scan
  by_cases hns : ns ∈ h.scanned
  · rw [if_pos ((hix.scanned ns).2 hns)]
    refine ⟨hix.object_eq, hix.distinct, fun n member => ?_, fun ns' => ?_⟩
    · rw [History.record, History.added, if_pos hns, List.append_nil]
      exact hix.candidates n member
    · rw [hscanned, hix.scanned]
      constructor
      · exact .inl
      · rintro (h | rfl)
        · exact h
        · exact hns
  · rw [if_neg fun hmem => hns ((hix.scanned ns).1 hmem)]
    refine ⟨hix.object_eq, hix.distinct.merge _, fun n member => ?_, fun ns' => ?_⟩
    · dsimp only
      rw [ExtensionTable.candidates_merge,
        ExtensionTable.methodsFor_filed (ExtensionTable.distinct_ofFound _) (List.Perm.refl _),
        candidates_ofFound_extensionsOf, hix.candidates, hix.object_eq, History.record,
        methodsFor_append, History.added, if_neg hns]
    · rw [hscanned, ← hix.scanned, List.mem_append, List.mem_singleton]

theorem reflects_run (object : Ty) (changes : List Change) :
    Reflects object (History.of object changes) (run object changes) := by
  induction changes using List.reverseRecOn with
  | nil => exact reflects_empty object
  | append_singleton changes c ih =>
    rw [History.of_concat, run, List.foldl_append]
    cases c with
    | register n member m => exact ih.register n member m
    | scan ts ns => exact ih.scan ts ns
    | merge t ht order horder => exact ih.merge ht horder

/-- A scan counts the registrations that it adds. -/
theorem Reflects.scan_fst (hix : Reflects object h ix) (ts : TypeSystem) (ns : String) :
    (ix.scan ts ns).1 = (h.added object (.scan ts ns)).length := by
  rw [History.added, ExtensionIndex.scan]
  by_cases hns : ns ∈ h.scanned
  · rw [if_pos ((hix.scanned ns).2 hns), if_pos hns]
    rfl
  · rw [if_neg fun hmem => hns ((hix.scanned ns).1 hmem), if_neg hns,
      ← TypeSystem.map_extensionsOf, List.length_map, hix.object_eq]

theorem Reflects.lookup? (hix : Reflects object h ix) (n : TypeName) (member : String) :
    ix.lookup? n member =
      if methodsFor h.log n member = [] then none else some (methodsFor h.log n member) := by
  rw [← hix.candidates, ExtensionIndex.lookup?, ExtensionTable.lookup?]
  cases ix.table.candidates n member <;> rfl

theorem Reflects.getD_lookup? (hix : Reflects object h ix) (n : TypeName) (member : String) :
    (ix.lookup? n member).getD [] = methodsFor h.log n member := by
  rw [hix.lookup?]
  split
  · rename_i hnil
    rw [hnil]
    rfl
  · rfl

theorem Reflects.mem_rows (hix : Reflects object h ix) (row : ExtensionRow) :
    (row ∈ ix.table.rows ∧ row.methods ≠ []) ↔
      row.methods = methodsFor h.log row.extended row.member ∧ row.methods ≠ [] := by
  rw [← hix.candidates, (ExtensionTable.rows_perm ix.table).mem_iff]
  refine and_congr_left fun hne => ⟨ExtensionTable.methods_of_mem_filed hix.distinct, fun heq => ?_⟩
  rw [heq] at hne
  have hmem := ExtensionTable.mem_filed_of_candidates_ne_nil hix.distinct hne
  rwa [← heq] at hmem

/-- Whatever is registered, scanned and merged, and in which order, an index is its log.  A lookup
gives all that was registered for the member, in order.  The rows with candidates are the members of
the log with their methods, in strictly rising order of namespace, type name and member.  A scan
returns the number of registrations it adds to the log, and candidates only ever get more, behind
those that are there. -/
theorem run_refines_log (object : Ty) (changes : List Change) :
    let ix := run object changes
    let history := History.of object changes
    (∀ n member, ix.lookup? n member =
        if methodsFor history.log n member = [] then none
        else some (methodsFor history.log n member)) ∧
      (ix.table.rows.filter fun row => row.methods ≠ []).Pairwise (·.compareKeys · = .lt) ∧
      (∀ row, row ∈ ix.table.rows.filter (fun row => row.methods ≠ []) ↔
        row.methods = methodsFor history.log row.extended row.member ∧ row.methods ≠ []) ∧
      (∀ ts ns, (ix.scan ts ns).1 = (history.added object (.scan ts ns)).length) ∧
      ∀ more n member, (ix.lookup? n member).getD [] <+:
        ((run object (changes ++ more)).lookup? n member).getD [] := by
  intro ix history
  have hix : Reflects object history ix := reflects_run object changes
  refine ⟨hix.lookup?, ?_, fun row => ?_, hix.scan_fst, fun more n member => ?_⟩
  · exact (ExtensionTable.rows_before hix.distinct).filter _
  · simpa only [List.mem_filter, decide_eq_true_eq] using hix.mem_rows row
  · rw [hix.getD_lookup?, (reflects_run object (changes ++ more)).getD_lookup?]
    obtain ⟨rest, hrest⟩ := History.log_prefix_foldl object history more
    rw [History.of, List.foldl_append, ← History.of, ← hrest, methodsFor_append]
    exact List.prefix_append _ _

end ExtensionIndex

end LateBinding
