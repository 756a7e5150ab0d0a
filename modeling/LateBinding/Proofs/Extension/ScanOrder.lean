import LateBinding.Proofs.Extension.Log
import LateBinding.Proofs.Extension.Recursion
import LateBinding.Proofs.TypeSystem.History

/-!
# Scans in any order

An index that is only filled by scans knows what its namespaces declare, and the order of the scans
shows in the order of candidates alone.  Two such indexes over the same namespaces list the same
rows, and lookups end alike on both, up to a permutation of what they find
(`ExtensionIndex.scanAll_order`).
-/

namespace LateBinding

/-! ## Searches that agree up to a relation -/

section Search

variable {r : β → γ → Prop}

theorem rel_or {a a' : Option β} {b b' : Option γ} (h : Option.Rel r a b)
    (h' : Option.Rel r a' b') : Option.Rel r (a.or a') (b.or b') := by
  cases h with
  | some hab => exact .some hab
  | none => exact h'

theorem rel_bind {f : α → Option β} {g : α → Option γ} (h : ∀ a, Option.Rel r (f a) (g a))
    (a : Option α) : Option.Rel r (a.bind f) (a.bind g) := by
  cases a with
  | none => exact .none
  | some a => exact h a

/-- Two searches through the same list end at the same place, if what they ask of each element is
answered alike. -/
theorem rel_findSome? {f : α → Option β} {g : α → Option γ} (h : ∀ a, Option.Rel r (f a) (g a))
    (as : List α) : Option.Rel r (as.findSome? f) (as.findSome? g) := by
  induction as with
  | nil => exact .none
  | cons a as ih =>
    rw [List.findSome?_cons, List.findSome?_cons]
    have ha := h a
    cases hf : f a with
    | some b =>
      cases hg : g a with
      | some c =>
        rw [hf, hg] at ha
        exact ha
      | none => rw [hf, hg] at ha; cases ha
    | none =>
      cases hg : g a with
      | some c => rw [hf, hg] at ha; cases ha
      | none => exact ih

end Search

/-! ## Registrations in another order -/

theorem methodsFor_perm {log log' : List Registration} (h : log.Perm log') (n : TypeName)
    (member : String) : (methodsFor log n member).Perm (methodsFor log' n member) :=
  (h.filter _).map _

/-! ## Rows up to the order of candidates -/

namespace ExtensionRow

/-- The same member of the same definition, with the same candidates in any order. -/
structure SameUpToOrder (r r' : ExtensionRow) : Prop where
  extended : r.extended = r'.extended
  member : r.member = r'.member
  methods : r.methods.Perm r'.methods

/-- The row with its candidates left out. -/
def bare (r : ExtensionRow) : ExtensionRow := { r with methods := [] }

theorem bare_eq_bare_iff {r r' : ExtensionRow} :
    r.bare = r'.bare ↔ r.extended = r'.extended ∧ r.member = r'.member := by
  simp [bare]

theorem ne_of_compareKeys_eq_lt {a b : ExtensionRow} (h : a.compareKeys b = .lt) : a ≠ b := by
  rintro rfl
  have hself : a.compareKeys a = .eq := Std.ReflCmp.compare_self
  rw [hself] at h
  cases h

theorem not_compareKeys_eq_lt_swap {a b : ExtensionRow} (h : a.compareKeys b = .lt) :
    b.compareKeys a ≠ .lt := by
  have hswap : b.compareKeys a = (a.compareKeys b).swap := Std.OrientedCmp.eq_swap
  rw [hswap, h]
  decide

end ExtensionRow

namespace ExtensionTable

variable {t u : ExtensionTable}

theorem bare_rows_before (ht : t.Distinct) :
    (t.rows.map ExtensionRow.bare).Pairwise (·.compareKeys · = .lt) :=
  List.pairwise_map.2 (rows_before ht)

theorem mem_bare_rows (ht : t.Distinct) (hfilled : t.Filled) (b : ExtensionRow) :
    b ∈ t.rows.map ExtensionRow.bare ↔ b.methods = [] ∧ t.candidates b.extended b.member ≠ [] := by
  rw [List.mem_map]
  constructor
  · rintro ⟨r, hr, rfl⟩
    have hcandidates := methods_of_mem_filed ht ((rows_perm t).mem_iff.1 hr)
    have hne := hfilled.methods_ne_nil hr
    rw [hcandidates] at hne
    exact ⟨rfl, hne⟩
  · rintro ⟨hb, hne⟩
    refine ⟨_, (rows_perm t).mem_iff.2 (mem_filed_of_candidates_ne_nil ht hne), ?_⟩
    cases b
    cases hb
    rfl

/-- The rows of two tables go together one by one, if the tables have the same candidates up to
order. -/
theorem rows_sameUpToOrder (ht : t.Distinct) (hu : u.Distinct) (htf : t.Filled) (huf : u.Filled)
    (h : ∀ n member, (t.candidates n member).Perm (u.candidates n member)) :
    List.Forall₂ ExtensionRow.SameUpToOrder t.rows u.rows := by
  have hmem : ∀ b, b ∈ t.rows.map ExtensionRow.bare ↔ b ∈ u.rows.map ExtensionRow.bare := by
    intro b
    have hperm := h b.extended b.member
    have hnil : t.candidates b.extended b.member = [] ↔ u.candidates b.extended b.member = [] := by
      rw [← List.length_eq_zero_iff, hperm.length_eq, List.length_eq_zero_iff]
    rw [mem_bare_rows ht htf, mem_bare_rows hu huf, Ne, Ne, hnil]
  have hperm : (t.rows.map ExtensionRow.bare).Perm (u.rows.map ExtensionRow.bare) :=
    (List.perm_ext_iff_of_nodup ((bare_rows_before ht).imp ExtensionRow.ne_of_compareKeys_eq_lt)
      ((bare_rows_before hu).imp ExtensionRow.ne_of_compareKeys_eq_lt)).2 hmem
  have hbare : t.rows.map ExtensionRow.bare = u.rows.map ExtensionRow.bare :=
    hperm.eq_of_pairwise
      (fun a b _ _ hab hba => absurd hba (ExtensionRow.not_compareKeys_eq_lt_swap hab))
      (bare_rows_before ht) (bare_rows_before hu)
  have hrows : List.Forall₂ (fun r r' : ExtensionRow => r.bare = r'.bare) t.rows u.rows := by
    rwa [← List.forall₂_map_right_iff, ← List.forall₂_map_left_iff (R := Eq),
      List.forall₂_eq_eq_eq]
  obtain ⟨hlength, hzip⟩ := List.forall₂_iff_zip.1 hrows
  refine List.forall₂_iff_zip.2 ⟨hlength, fun {r r'} hrr' => ?_⟩
  obtain ⟨hextended, hmember⟩ := ExtensionRow.bare_eq_bare_iff.1 (hzip hrr')
  obtain ⟨hr, hr'⟩ := List.of_mem_zip hrr'
  refine ⟨hextended, hmember, ?_⟩
  rw [methods_of_mem_filed ht ((rows_perm t).mem_iff.1 hr),
    methods_of_mem_filed hu ((rows_perm u).mem_iff.1 hr'), hextended, hmember]
  exact h _ _

end ExtensionTable

namespace ExtensionIndex

/-! ## Lookups on indexes with the same candidates -/

section Lookup

variable {ix ix' : ExtensionIndex}

theorem rel_lookup? {n : TypeName} {member : String}
    (h : (ix.table.candidates n member).Perm (ix'.table.candidates n member)) :
    Option.Rel List.Perm (ix.lookup? n member) (ix'.lookup? n member) := by
  unfold lookup? ExtensionTable.lookup?
  cases hc : ix.table.candidates n member with
  | nil =>
    rw [hc] at h
    rw [h.nil_eq.symm]
    exact .none
  | cons m ms =>
    cases hc' : ix'.table.candidates n member with
    | nil =>
      rw [hc, hc'] at h
      exact absurd h.eq_nil (List.cons_ne_nil m ms)
    | cons m' ms' =>
      rw [hc, hc'] at h
      exact .some h

theorem toOption_resolve (ix : ExtensionIndex) (ts : TypeSystem) (ty : Ty) (member : String) :
    (ix.resolve ts ty member).toOption = ty.name?.bind (ix.find? ts · member) := by
  unfold resolve
  cases ty.name?.bind (ix.find? ts · member) <;> rfl

/-- The search stops at the same definition on both indexes. -/
theorem rel_resolve (hobject : ix.object = ix'.object)
    (h : ∀ n member, (ix.table.candidates n member).Perm (ix'.table.candidates n member))
    (ts : TypeSystem) (ty : Ty) (member : String) :
    Option.Rel List.Perm (ix.resolve ts ty member).toOption
      (ix'.resolve ts ty member).toOption := by
  have hlookup : ∀ n, Option.Rel List.Perm (ix.lookup? n member) (ix'.lookup? n member) :=
    fun n => rel_lookup? (h n member)
  rw [toOption_resolve, toOption_resolve]
  refine rel_bind (fun n => ?_) _
  unfold find?
  rw [hobject]
  exact rel_or (rel_findSome? hlookup _) (rel_bind hlookup _)

end Lookup

/-! ## Scanning namespaces one after the other -/

/-- The index after scans of some namespaces in order, all in one type system. -/
def scanAll (object : Ty) (ts : TypeSystem) (namespaces : List String) : ExtensionIndex :=
  namespaces.foldl (fun ix ns => (ix.scan ts ns).2) { object }

variable {object : Ty} {ts : TypeSystem} {namespaces namespaces' : List String}

/-- What scans leave in the log: the extensions of every namespace, at its first scan. -/
theorem of_scans (object : Ty) (ts : TypeSystem) (namespaces : List String) :
    History.of object (namespaces.map (.scan ts)) =
      ⟨namespaces.eraseDups.flatMap (ts.extensionsIn object), namespaces⟩ := by
  induction namespaces using List.reverseRecOn with
  | nil => rfl
  | append_singleton nss ns ih =>
    rw [List.map_append, List.map_singleton, History.of_concat, ih, History.record, History.added,
      eraseDups_concat]
    by_cases h : ns ∈ nss
    · rw [if_pos h, if_pos h, List.append_nil]
      rfl
    · rw [if_neg h, if_neg h, List.flatMap_append, List.flatMap_singleton]
      rfl

theorem reflects_scanAll (object : Ty) (ts : TypeSystem) (namespaces : List String) :
    Reflects object ⟨namespaces.eraseDups.flatMap (ts.extensionsIn object), namespaces⟩
      (scanAll object ts namespaces) := by
  have hrun : scanAll object ts namespaces = run object (namespaces.map (.scan ts)) := by
    rw [run, List.foldl_map]
    rfl
  rw [hrun, ← of_scans]
  exact reflects_run object _

theorem filled_scanAll (object : Ty) (ts : TypeSystem) (namespaces : List String) :
    (scanAll object ts namespaces).table.Filled := by
  refine List.foldlRecOn (motive := fun ix : ExtensionIndex => ix.table.Filled) namespaces _
    ExtensionTable.filled_empty fun ix hix ns _ => ?_
  unfold scan
  split
  · exact hix
  · exact hix.merge (ExtensionTable.filled_ofFound _)

theorem nodup_scanned_scanAll (object : Ty) (ts : TypeSystem) (namespaces : List String) :
    (scanAll object ts namespaces).scanned.Nodup := by
  refine List.foldlRecOn (motive := fun ix : ExtensionIndex => ix.scanned.Nodup) namespaces _
    List.nodup_nil fun ix hix ns _ => ?_
  unfold scan
  split
  · exact hix
  · rename_i hns
    rw [(List.perm_append_singleton ns _).nodup_iff]
    exact List.nodup_cons.2 ⟨hns, hix⟩

/-- Sorted listings of the same strings are equal. -/
theorem namespaces_eq {ix ix' : ExtensionIndex} (h : ix.scanned.Perm ix'.scanned) :
    ix.namespaces = ix'.namespaces := by
  have hle : ∀ nss : List String,
      (nss.mergeSort fun a b => (compare a b).isLE).Pairwise fun a b => (compare a b).isLE :=
    List.pairwise_mergeSort (fun _ _ _ => Std.TransCmp.isLE_trans) fun a b => by
      have hswap : compare b a = (compare a b).swap := Std.OrientedCmp.eq_swap
      rw [hswap]
      cases compare a b <;> rfl
  have hperm : ix.namespaces.Perm ix'.namespaces :=
    (List.mergeSort_perm _ _).trans (h.trans (List.mergeSort_perm _ _).symm)
  refine hperm.eq_of_pairwise (fun a b _ _ hab hba => ?_) (hle _) (hle _)
  exact Std.LawfulEqOrd.eq_of_compare (Std.OrientedCmp.isLE_antisymm hab hba)

/-- Two lists of the same namespaces, with repeats or without, and one type system.  Scanned in
either order from the start, they fill two indexes with the same rows, whose candidates differ in
order at most, and with the same listing of namespaces.  The first scan of a namespace counts the
same whatever was scanned before it.  A lookup with nothing remembered succeeds on one index exactly
if it does on the other, and finds the same methods up to order. -/
theorem scanAll_order (object : Ty) (ts : TypeSystem) (namespaces namespaces' : List String)
    (h : ∀ ns, ns ∈ namespaces ↔ ns ∈ namespaces') :
    let ix := scanAll object ts namespaces
    let ix' := scanAll object ts namespaces'
    List.Forall₂ ExtensionRow.SameUpToOrder ix.table.rows ix'.table.rows ∧
      ix.namespaces = ix'.namespaces ∧
      (∀ ns before before', ns ∉ before → ns ∉ before' →
        ((scanAll object ts before).scan ts ns).1 = ((scanAll object ts before').scan ts ns).1) ∧
      ∀ ty member, Option.Rel List.Perm
        (answer (ix.resolveOnce ts ty member) .empty).toOption
        (answer (ix'.resolveOnce ts ty member) .empty).toOption := by
  intro ix ix'
  have hix := reflects_scanAll object ts namespaces
  have hix' := reflects_scanAll object ts namespaces'
  have hlog : (namespaces.eraseDups.flatMap (ts.extensionsIn object)).Perm
      (namespaces'.eraseDups.flatMap (ts.extensionsIn object)) := by
    refine List.Perm.flatMap_right _ ?_
    refine (List.perm_ext_iff_of_nodup (nodup_eraseDups _) (nodup_eraseDups _)).2 fun ns => ?_
    rw [List.mem_eraseDups, List.mem_eraseDups, h]
  have hcandidates : ∀ n member,
      (ix.table.candidates n member).Perm (ix'.table.candidates n member) := by
    intro n member
    rw [hix.candidates, hix'.candidates]
    exact methodsFor_perm hlog n member
  have hscanned : ix.scanned.Perm ix'.scanned := by
    refine (List.perm_ext_iff_of_nodup (nodup_scanned_scanAll object ts _)
      (nodup_scanned_scanAll object ts _)).2 fun ns => ?_
    rw [hix.scanned, hix'.scanned, h]
  have hcount : ∀ ns before, ns ∉ before →
      ((scanAll object ts before).scan ts ns).1 = (ts.extensionsIn object ns).length := by
    intro ns before hns
    rw [(reflects_scanAll object ts before).scan_fst, History.added, if_neg hns]
  refine ⟨?_, namespaces_eq hscanned, fun ns before before' hns hns' => ?_, fun ty member => ?_⟩
  · exact ExtensionTable.rows_sameUpToOrder hix.distinct hix'.distinct (filled_scanAll object ts _)
      (filled_scanAll object ts _) hcandidates
  · rw [hcount ns before hns, hcount ns before' hns']
  · rw [answer_resolveOnce_empty, answer_resolveOnce_empty]
    exact rel_resolve (hix.object_eq.trans hix'.object_eq.symm) hcandidates ts ty member

/-- Two namespaces with an extension of the same name on the same type, one of them scanned twice.
The candidates stand in the order of the scans. -/
theorem scanAll_order_repeated :
    let list : Ty := .con ⟨"Demo", "List"⟩
    let each : Signature := {
      name := "Each", formals := [⟨"self", list⟩], isStatic := true, isExtension := true }
    let first := ({} : TypeSystem).declare (.con ⟨"Near", "Lists"⟩) each
    let second := first.2.declare (.con ⟨"Far", "Lists"⟩) each
    let ix := scanAll .object second.2 ["Near", "Far", "Near"]
    let ix' := scanAll .object second.2 ["Far", "Near"]
    (∀ ns, ns ∈ ["Near", "Far", "Near"] ↔ ns ∈ ["Far", "Near"]) ∧
      ix.lookup? ⟨"Demo", "List"⟩ "Each" = some [first.1, second.1] ∧
      ix'.lookup? ⟨"Demo", "List"⟩ "Each" = some [second.1, first.1] ∧
      List.Forall₂ ExtensionRow.SameUpToOrder ix.table.rows ix'.table.rows ∧
      ix.namespaces = ix'.namespaces ∧
      Option.Rel List.Perm (answer (ix.resolveOnce second.2 list "Each") .empty).toOption
        (answer (ix'.resolveOnce second.2 list "Each") .empty).toOption := by
  intro list each first second ix ix'
  have hsame : ∀ ns, ns ∈ ["Near", "Far", "Near"] ↔ ns ∈ ["Far", "Near"] := by
    intro ns
    simp only [List.mem_cons, List.not_mem_nil, or_false]
    exact ⟨fun h => h.elim .inr fun h => h.elim .inl .inr, fun h => h.elim (.inr ∘ .inl) .inl⟩
  have hlookup : ix.lookup? ⟨"Demo", "List"⟩ "Each" = some [first.1, second.1] := by
    simp only [ix, second, first, each, list]
    rfl
  have hlookup' : ix'.lookup? ⟨"Demo", "List"⟩ "Each" = some [second.1, first.1] := by
    simp only [ix', second, first, each, list]
    rfl
  obtain ⟨hrows, hnamespaces, -, hresolve⟩ :=
    scanAll_order .object second.2 ["Near", "Far", "Near"] ["Far", "Near"] hsame
  exact ⟨hsame, hlookup, hlookup', hrows, hnamespaces, hresolve list "Each"⟩

end ExtensionIndex

end LateBinding
