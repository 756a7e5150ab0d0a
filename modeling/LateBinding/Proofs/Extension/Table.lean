import Mathlib.Data.List.Basic
import LateBinding.Extension.Table
import LateBinding.Proofs.OrderedMap

/-!
# Extension tables as lists of registrations

A table files candidates under a definition and a member, which forgets everything about their order
but the order within one list.  What is left is described by registrations in a row: `append` adds
some to the end (`ExtensionTable.candidates_append`), and `merge` adds those of another table, where
it does not matter in which order its rows come (`ExtensionTable.methodsFor_filed`).  The rows of a
table are listed in the order of their keys, each once (`ExtensionTable.rows_before`).  No operation
but merging makes lists without candidates (`ExtensionTable.Filled`).
-/

namespace LateBinding

/-- An extension method with the definition and the member that it is filed under. -/
structure Registration where
  extended : TypeName
  member : String
  method : Method
deriving Repr

/-- The methods registered for a member of a definition, oldest first. -/
def methodsFor (log : List Registration) (n : TypeName) (member : String) : List Method :=
  (log.filter fun r => r.extended = n ∧ r.member = member).map (·.method)

/-- The registrations that a row stands for. -/
def ExtensionRow.registrations (r : ExtensionRow) : List Registration :=
  r.methods.map (⟨r.extended, r.member, ·⟩)

@[simp] theorem methodsFor_nil (n : TypeName) (member : String) : methodsFor [] n member = [] := rfl

@[simp] theorem methodsFor_append (log more : List Registration) (n : TypeName) (member : String) :
    methodsFor (log ++ more) n member = methodsFor log n member ++ methodsFor more n member := by
  simp [methodsFor]

theorem methodsFor_cons (r : Registration) (log : List Registration) (n : TypeName)
    (member : String) :
    methodsFor (r :: log) n member =
      (if r.extended = n ∧ r.member = member then [r.method] else []) ++
        methodsFor log n member := by
  by_cases h : r.extended = n ∧ r.member = member <;> simp [methodsFor, h]

theorem methodsFor_registrations (r : ExtensionRow) (n : TypeName) (member : String) :
    methodsFor r.registrations n member =
      if r.extended = n ∧ r.member = member then r.methods else [] := by
  rw [methodsFor, ExtensionRow.registrations, List.filter_map, List.map_map]
  by_cases h : r.extended = n ∧ r.member = member <;> simp [Function.comp_def, h]

theorem methodsFor_flatMap (rows : List ExtensionRow) (n : TypeName) (member : String) :
    methodsFor (rows.flatMap ExtensionRow.registrations) n member =
      (rows.filter fun r => r.extended = n ∧ r.member = member).flatMap (·.methods) := by
  induction rows with
  | nil => rfl
  | cons r rows ih =>
    rw [List.flatMap_cons, methodsFor_append, ih, methodsFor_registrations, List.filter_cons]
    by_cases h : r.extended = n ∧ r.member = member <;> simp [h]

/-- An element that passes a test is the only one to be kept, if no two elements pass it. -/
theorem filter_eq_toList_find? {p : α → Bool} {xs : List α}
    (h : xs.Pairwise fun a b => ¬ (p a ∧ p b)) : xs.filter p = (xs.find? p).toList := by
  induction xs with
  | nil => rfl
  | cons x xs ih =>
    obtain ⟨hx, hxs⟩ := List.pairwise_cons.1 h
    by_cases hpx : p x
    · have hnil : xs.filter p = [] := List.filter_eq_nil_iff.2 fun b hb hpb => hx b hb ⟨hpx, hpb⟩
      simp [hpx, hnil]
    · simp [hpx, ih hxs]

namespace ExtensionTable

variable {t u : ExtensionTable}

/-! ## Candidates -/

theorem candidates_alter (t : ExtensionTable) (n : TypeName)
    (f : OrderedMap String (List Method) → OrderedMap String (List Method)) (n' : TypeName)
    (member : String) :
    candidates ⟨t.extended.alter n fun old => f (old.getD .empty)⟩ n' member =
      if n = n' then ((f ((t.extended.find? n).getD .empty)).find? member).getD []
      else t.candidates n' member := by
  unfold candidates
  rw [OrderedMap.find?_alter]
  by_cases h : n = n' <;> simp [h]

@[simp] theorem candidates_mention (t : ExtensionTable) (n n' : TypeName) (member : String) :
    (t.mention n).candidates n' member = t.candidates n' member := by
  refine (candidates_alter t n id n' member).trans ?_
  split
  · rename_i h
    subst h
    unfold candidates
    cases t.extended.find? n <;> rfl
  · rfl

theorem candidates_append (t : ExtensionTable) (n : TypeName) (member : String) (ms : List Method)
    (n' : TypeName) (member' : String) :
    (t.append n member ms).candidates n' member' =
      t.candidates n' member' ++ if n = n' ∧ member = member' then ms else [] := by
  rw [append, candidates_alter t n fun members => members.alter member _]
  by_cases hn : n = n'
  · subst hn
    have hold : (((t.extended.find? n).getD .empty).find? member').getD [] =
        t.candidates n member' := by
      unfold candidates
      cases t.extended.find? n <;> rfl
    rw [if_pos rfl, OrderedMap.find?_alter, ← hold]
    by_cases hm : member = member' <;> simp [hm]
  · simp [hn]

theorem candidates_appendEntries (t : ExtensionTable) (n : TypeName)
    (entries : List (String × List Method)) (n' : TypeName) (member' : String) :
    (entries.foldl (fun t (member, ms) => t.append n member ms) t).candidates n' member' =
      t.candidates n' member' ++
        methodsFor ((entries.map fun (member, ms) => ⟨n, member, ms⟩).flatMap
          ExtensionRow.registrations) n' member' := by
  induction entries generalizing t with
  | nil => simp
  | cons e es ih =>
    rw [List.foldl_cons, ih, candidates_append, List.map_cons, List.flatMap_cons, methodsFor_append,
      methodsFor_registrations, List.append_assoc]

/-- Merging registers what the other table lists, row by row. -/
theorem candidates_merge (t u : ExtensionTable) (n : TypeName) (member : String) :
    (t.merge u).candidates n member =
      t.candidates n member ++
        methodsFor (u.filed.flatMap ExtensionRow.registrations) n member := by
  obtain ⟨⟨entries⟩⟩ := u
  unfold merge filed
  dsimp only
  induction entries generalizing t with
  | nil => simp
  | cons e es ih =>
    rw [List.foldl_cons, ih, candidates_appendEntries, candidates_mention, List.flatMap_cons,
      List.flatMap_append, methodsFor_append, List.append_assoc]

theorem candidates_ofFound (found : List (TypeName × Method)) (n : TypeName) (member : String) :
    (ofFound found).candidates n member =
      methodsFor (found.map fun (n, m) => ⟨n, m.name, m⟩) n member := by
  suffices ∀ t : ExtensionTable,
      (found.foldl (fun t (n, m) => t.append n m.name [m]) t).candidates n member =
        t.candidates n member ++
          methodsFor (found.map fun (n, m) => ⟨n, m.name, m⟩) n member from this {}
  induction found with
  | nil => simp
  | cons e es ih =>
    intro t
    rw [List.foldl_cons, ih, candidates_append, List.map_cons, methodsFor_cons, List.append_assoc]

/-! ## Distinct rows -/

/-- No definition has two places in the table, and no member two lists in one of them. -/
structure Distinct (t : ExtensionTable) : Prop where
  extended : t.extended.Distinct
  members : ∀ n members, t.extended.find? n = some members → members.Distinct

theorem distinct_empty : Distinct {} where
  extended := OrderedMap.distinct_empty
  members _ _ h := by cases h

theorem Distinct.alter (ht : t.Distinct) (n : TypeName)
    {f : OrderedMap String (List Method) → OrderedMap String (List Method)}
    (hf : ∀ members, members.Distinct → (f members).Distinct) :
    Distinct ⟨t.extended.alter n fun old => f (old.getD .empty)⟩ where
  extended := ht.extended.alter n _
  members n' members h := by
    rw [OrderedMap.find?_alter] at h
    split at h
    · cases h
      apply hf
      cases hfind : t.extended.find? n with
      | none => exact OrderedMap.distinct_empty
      | some members => exact ht.members n members hfind
    · exact ht.members n' members h

theorem Distinct.mention (ht : t.Distinct) (n : TypeName) : (t.mention n).Distinct :=
  ht.alter n (f := id) fun _ h => h

theorem Distinct.append (ht : t.Distinct) (n : TypeName) (member : String) (ms : List Method) :
    (t.append n member ms).Distinct := ht.alter n fun _ h => h.alter member _

theorem Distinct.insert (ht : t.Distinct) (n : TypeName) (member : String) (ms : List Method) :
    (t.insert n member ms).Distinct := ht.alter n fun _ h => h.insert member ms

theorem distinct_foldl {step : ExtensionTable → α → ExtensionTable}
    (hstep : ∀ t a, t.Distinct → (step t a).Distinct) (as : List α) (ht : t.Distinct) :
    (as.foldl step t).Distinct := by
  induction as generalizing t with
  | nil => exact ht
  | cons a as ih => exact ih (hstep t a ht)

theorem distinct_ofFound (found : List (TypeName × Method)) : (ofFound found).Distinct :=
  distinct_foldl (fun _ _ ht => ht.append _ _ _) found distinct_empty

theorem Distinct.merge (ht : t.Distinct) (u : ExtensionTable) : (t.merge u).Distinct :=
  distinct_foldl (fun _ e ht => distinct_foldl (fun _ _ ht => ht.append _ _ _) e.2.entries
    (ht.mention e.1)) u.extended.entries ht

/-! ## Rows -/

theorem mem_filed (ht : t.Distinct) {r : ExtensionRow} :
    r ∈ t.filed ↔ ((t.extended.find? r.extended).bind (·.find? r.member)) = some r.methods := by
  simp only [filed, List.mem_flatMap, List.mem_map, Option.bind_eq_some_iff]
  constructor
  · rintro ⟨⟨n, members⟩, hn, ⟨member, ms⟩, hmember, rfl⟩
    have hfind := OrderedMap.find?_of_mem ht.extended hn BEq.rfl
    exact ⟨members, hfind, OrderedMap.find?_of_mem (ht.members n members hfind) hmember BEq.rfl⟩
  · rintro ⟨members, hfind, hms⟩
    obtain ⟨⟨n, members⟩, hn, hkey, rfl⟩ := OrderedMap.exists_mem_of_find? hfind
    obtain ⟨⟨member, ms⟩, hmember, hkey', rfl⟩ := OrderedMap.exists_mem_of_find? hms
    refine ⟨_, hn, _, hmember, ?_⟩
    rw [eq_of_beq hkey, eq_of_beq hkey']

theorem methods_of_mem_filed (ht : t.Distinct) {r : ExtensionRow} (hr : r ∈ t.filed) :
    r.methods = t.candidates r.extended r.member := by
  rw [candidates, (mem_filed ht).1 hr]
  rfl

/-- A member with candidates has a row. -/
theorem mem_filed_of_candidates_ne_nil (ht : t.Distinct) {n : TypeName} {member : String}
    (h : t.candidates n member ≠ []) : ⟨n, member, t.candidates n member⟩ ∈ t.filed := by
  rw [mem_filed ht]
  unfold candidates at h ⊢
  cases hfind : (t.extended.find? n).bind (·.find? member) with
  | none =>
    rw [hfind] at h
    exact absurd rfl h
  | some ms => rfl

/-- Two rows are filed under different definitions or different members. -/
theorem filed_pairwise (ht : t.Distinct) :
    t.filed.Pairwise fun a b => ¬ (a.extended = b.extended ∧ a.member = b.member) := by
  rw [filed, List.pairwise_flatMap]
  constructor
  · rintro ⟨n, members⟩ hn
    rw [List.pairwise_map]
    have hmembers := ht.members n members (OrderedMap.find?_of_mem ht.extended hn BEq.rfl)
    exact hmembers.imp fun hne heq => hne (beq_of_eq heq.2)
  · refine ht.extended.imp fun hne a ha b hb heq => hne ?_
    obtain ⟨_, -, rfl⟩ := List.mem_map.1 ha
    obtain ⟨_, -, rfl⟩ := List.mem_map.1 hb
    exact beq_of_eq heq.1

/-- The rows of a table make up its candidates, in whatever order they are taken. -/
theorem methodsFor_filed (ht : t.Distinct) {order : List ExtensionRow}
    (horder : order.Perm t.filed) (n : TypeName) (member : String) :
    methodsFor (order.flatMap ExtensionRow.registrations) n member = t.candidates n member := by
  have hdistinct : order.Pairwise fun a b => ¬ (a.extended = b.extended ∧ a.member = b.member) :=
    (horder.pairwise_iff fun h heq => h ⟨heq.1.symm, heq.2.symm⟩).2 (filed_pairwise ht)
  rw [methodsFor_flatMap, filter_eq_toList_find?]
  · cases hfind : order.find? fun r => decide (r.extended = n ∧ r.member = member) with
    | none =>
      by_contra hne
      have hmem := horder.mem_iff.2 (mem_filed_of_candidates_ne_nil ht (Ne.symm hne))
      simpa using List.find?_eq_none.1 hfind _ hmem
    | some r =>
      have hkey : r.extended = n ∧ r.member = member := by simpa using List.find?_some hfind
      have hmem := horder.mem_iff.1 (List.mem_of_find?_eq_some hfind)
      simpa [hkey] using methods_of_mem_filed ht hmem
  · refine hdistinct.imp fun hne hboth => hne ?_
    simp only [decide_eq_true_eq] at hboth
    exact ⟨hboth.1.1.trans hboth.2.1.symm, hboth.1.2.trans hboth.2.2.symm⟩

end ExtensionTable

/-! ## Rows in order -/

instance : Std.TransOrd TypeName :=
  inferInstanceAs (Std.TransCmp (compareLex (compareOn TypeName.ns) (compareOn TypeName.name)))

theorem TypeName.eq_of_compare {a b : TypeName} (h : compare a b = .eq) : a = b := by
  obtain ⟨ns, name⟩ := a
  obtain ⟨ns', name'⟩ := b
  obtain ⟨hns, hname⟩ := Ordering.then_eq_eq.1 h
  rw [TypeName.mk.injEq]
  exact ⟨Std.LawfulEqOrd.eq_of_compare hns, Std.LawfulEqOrd.eq_of_compare hname⟩

namespace ExtensionRow

/-- Rows compare by namespace, then by type name, then by member. -/
def compareKeys (a b : ExtensionRow) : Ordering :=
  ((compare a.extended.ns b.extended.ns).then (compare a.extended.name b.extended.name)).then
    (compare a.member b.member)

instance : Std.TransCmp compareKeys :=
  inferInstanceAs (Std.TransCmp
    (compareLex (compareOn ExtensionRow.extended) (compareOn ExtensionRow.member)))

theorem compareKeys_total (a b : ExtensionRow) :
    ((a.compareKeys b).isLE || (b.compareKeys a).isLE) = true := by
  have hswap : b.compareKeys a = (a.compareKeys b).swap := Std.OrientedCmp.eq_swap
  rw [hswap]
  cases a.compareKeys b <;> rfl

theorem eq_of_compareKeys {a b : ExtensionRow} (h : a.compareKeys b = .eq) :
    a.extended = b.extended ∧ a.member = b.member := by
  obtain ⟨hextended, hmember⟩ := Ordering.then_eq_eq.1 h
  exact ⟨TypeName.eq_of_compare hextended, Std.LawfulEqOrd.eq_of_compare hmember⟩

end ExtensionRow

namespace ExtensionTable

variable {t u : ExtensionTable}

theorem rows_perm (t : ExtensionTable) : t.rows.Perm t.filed := List.mergeSort_perm _ _

/-- Rows are listed in strictly rising order. -/
theorem rows_before (ht : t.Distinct) : t.rows.Pairwise (·.compareKeys · = .lt) := by
  have hle : t.rows.Pairwise fun a b => (a.compareKeys b).isLE :=
    List.pairwise_mergeSort (fun _ _ _ => Std.TransCmp.isLE_trans)
      ExtensionRow.compareKeys_total t.filed
  have hne : t.rows.Pairwise fun a b => ¬ (a.extended = b.extended ∧ a.member = b.member) :=
    (t.rows_perm.pairwise_iff fun h heq => h ⟨heq.1.symm, heq.2.symm⟩).2 (filed_pairwise ht)
  refine (hle.and hne).imp fun ⟨hle, hne⟩ => ?_
  rcases Ordering.isLE_iff_eq_lt_or_eq_eq.1 hle with hlt | heq
  · exact hlt
  · exact absurd (ExtensionRow.eq_of_compareKeys heq) hne

/-! ## Tables without empty lists -/

/-- Every list of candidates in the table has a candidate. -/
def Filled (t : ExtensionTable) : Prop :=
  ∀ members ∈ t.extended.values, ∀ methods ∈ members.values, methods ≠ []

theorem filled_empty : Filled {} := List.forall_mem_nil _

theorem Filled.mention (ht : t.Filled) (n : TypeName) : (t.mention n).Filled :=
  OrderedMap.forall_mem_values_alter ht (List.forall_mem_nil _) fun _ h => h

theorem Filled.append (ht : t.Filled) (n : TypeName) (member : String) {methods : List Method}
    (hmethods : methods ≠ []) : (t.append n member methods).Filled := by
  have hmember : ∀ members : OrderedMap String (List Method), (∀ ms ∈ members.values, ms ≠ []) →
      ∀ ms ∈ (members.alter member fun old => old.getD [] ++ methods).values, ms ≠ [] :=
    fun members hmembers => OrderedMap.forall_mem_values_alter hmembers hmethods
      fun ms _ => List.append_ne_nil_of_right_ne_nil ms hmethods
  exact OrderedMap.forall_mem_values_alter ht (hmember .empty (List.forall_mem_nil _)) hmember

theorem filled_ofFound (found : List (TypeName × Method)) : (ofFound found).Filled :=
  List.foldlRecOn found _ filled_empty fun _ ht e _ =>
    ht.append e.1 e.2.name (List.cons_ne_nil e.2 [])

theorem Filled.merge (ht : t.Filled) (hu : u.Filled) : (t.merge u).Filled :=
  List.foldlRecOn u.extended.entries _ ht fun _ ht e he =>
    List.foldlRecOn e.2.entries _ (ht.mention e.1) fun _ ht f hf =>
      ht.append e.1 f.1 (hu e.2 (List.mem_map_of_mem he) f.2 (List.mem_map_of_mem hf))

theorem Filled.methods_ne_nil (ht : t.Filled) {r : ExtensionRow} (hr : r ∈ t.rows) :
    r.methods ≠ [] := by
  obtain ⟨e, he, hr⟩ := List.mem_flatMap.1 ((rows_perm t).mem_iff.1 hr)
  obtain ⟨f, hf, rfl⟩ := List.mem_map.1 hr
  exact ht e.2 (List.mem_map_of_mem he) f.2 (List.mem_map_of_mem hf)

end ExtensionTable

end LateBinding
