import LateBinding.Proofs.Extension.Log

/-!
# The views of an extension index

An index is looked up in, listed, and asked whether it is empty.  The three agree if the table has
no definition without members and no member without candidates (`ExtensionIndex.ViewsAgree`).  The
definitions of a table and their members are its `Place`s.  Registering and scanning only make
places for what they register, but merging takes over all places of the other table, so the views
agree exactly if something was registered at each of these (`ExtensionIndex.viewsAgree_run_iff`).
-/

namespace LateBinding

/-- A place in a table: a definition, or a member of one. -/
inductive Place where
  | definition (n : TypeName)
  | member (n : TypeName) (member : String)

/-- The places that it takes to file something under a member of a definition. -/
def Place.filing (n : TypeName) (member : String) : List Place := [.definition n, .member n member]

theorem Place.mem_filing {p : Place} {n : TypeName} {member : String} :
    p ∈ filing n member ↔ p = .definition n ∨ p = .member n member := by
  rw [filing, List.mem_cons, List.mem_singleton]

/-- The places of a registration. -/
def Registration.places (r : Registration) : List Place := Place.filing r.extended r.member

theorem exists_mem_places {log : List Registration} {p : Place} :
    (∃ r ∈ log, p ∈ r.places) ↔
      ∃ n member, methodsFor log n member ≠ [] ∧ p ∈ Place.filing n member := by
  constructor
  · rintro ⟨r, hr, hp⟩
    have hfiltered : r ∈ log.filter fun r' => r'.extended = r.extended ∧ r'.member = r.member :=
      List.mem_filter.2 ⟨hr, by simp⟩
    exact ⟨r.extended, r.member, List.ne_nil_of_mem (List.mem_map_of_mem hfiltered), hp⟩
  · rintro ⟨n, member, hne, hp⟩
    obtain ⟨m, hm⟩ := List.exists_mem_of_ne_nil _ hne
    obtain ⟨r, hfiltered, rfl⟩ := List.mem_map.1 hm
    obtain ⟨hr, hkey⟩ := List.mem_filter.1 hfiltered
    obtain ⟨rfl, rfl⟩ := of_decide_eq_true hkey
    exact ⟨r, hr, hp⟩

/-! ## Places of tables -/

namespace ExtensionTable

variable {t : ExtensionTable} {p : Place}

/-- The places of one definition. -/
def placesOf (n : TypeName) (members : OrderedMap String (List Method)) : List Place :=
  .definition n :: members.keys.map (.member n)

/-- The places of a table. -/
def places (t : ExtensionTable) : List Place :=
  t.extended.entries.flatMap fun (n, members) => placesOf n members

theorem mem_placesOf {n : TypeName} {members : OrderedMap String (List Method)} :
    p ∈ placesOf n members ↔
      p = .definition n ∨ ∃ member ∈ members.keys, p ∈ Place.filing n member := by
  simp only [placesOf, List.mem_cons, List.mem_map, Place.mem_filing]
  constructor
  · rintro (rfl | ⟨member, hmember, rfl⟩)
    · exact .inl rfl
    · exact .inr ⟨member, hmember, .inr rfl⟩
  · rintro (rfl | ⟨member, hmember, rfl | rfl⟩)
    · exact .inl rfl
    · exact .inl rfl
    · exact .inr ⟨member, hmember, rfl⟩

theorem mem_placesOf_alter (n : TypeName) (members : OrderedMap String (List Method))
    (member : String) (f : Option (List Method) → List Method) :
    p ∈ placesOf n (members.alter member f) ↔
      p ∈ placesOf n members ∨ p ∈ Place.filing n member := by
  simp only [mem_placesOf, OrderedMap.mem_keys_alter, or_and_right, exists_or, exists_eq_left,
    or_assoc]

/-- What a change adds to the places of one definition, it adds to those of the table. -/
theorem mem_places_alter (t : ExtensionTable) {n : TypeName}
    {f : OrderedMap String (List Method) → OrderedMap String (List Method)} {added : List Place}
    (hadded : .definition n ∈ added)
    (hf : ∀ members, p ∈ placesOf n (f members) ↔ p ∈ placesOf n members ∨ p ∈ added) :
    p ∈ places ⟨t.extended.alter n fun old => f (old.getD .empty)⟩ ↔ p ∈ t.places ∨ p ∈ added := by
  unfold places
  rcases OrderedMap.entries_alter t.extended n fun old => f (old.getD .empty) with
    ⟨-, hes⟩ | ⟨before, k, members, after, hk, -, hes, halter⟩
  · -- A new definition starts without members, and its own place is among the added ones.
    have hempty : p ∈ placesOf n .empty → p ∈ added := fun hp => by
      rwa [List.mem_singleton.1 hp]
    rw [hes, List.flatMap_append, List.mem_append, List.flatMap_singleton]
    exact or_congr_right ((hf .empty).trans (or_iff_right_of_imp hempty))
  · obtain rfl : k = n := eq_of_beq hk
    rw [hes, halter]
    simp only [List.flatMap_append, List.flatMap_cons, List.mem_append, Option.getD_some, hf]
    tauto

/-- What each step adds to the places of a table, all steps add together. -/
theorem mem_places_foldl {step : ExtensionTable → α → ExtensionTable} {added : α → List Place}
    (hstep : ∀ t a, p ∈ (step t a).places ↔ p ∈ t.places ∨ p ∈ added a) (t : ExtensionTable)
    (as : List α) : p ∈ (as.foldl step t).places ↔ p ∈ t.places ∨ p ∈ as.flatMap added := by
  induction as generalizing t with
  | nil => exact (or_iff_left List.not_mem_nil).symm
  | cons a as ih =>
    rw [List.foldl_cons, ih, hstep, List.flatMap_cons, List.mem_append, or_assoc]

theorem mem_places_mention (t : ExtensionTable) (n : TypeName) :
    p ∈ (t.mention n).places ↔ p ∈ t.places ∨ p ∈ [.definition n] :=
  mem_places_alter t (f := id) List.mem_cons_self fun _ =>
    (or_iff_left_of_imp fun hp => mem_placesOf.2 (.inl (List.mem_singleton.1 hp))).symm

theorem mem_places_append (t : ExtensionTable) (n : TypeName) (member : String)
    (methods : List Method) :
    p ∈ (t.append n member methods).places ↔ p ∈ t.places ∨ p ∈ Place.filing n member :=
  mem_places_alter t List.mem_cons_self fun members => mem_placesOf_alter n members member _

theorem mem_places_ofFound (found : List (TypeName × Method)) :
    p ∈ (ofFound found).places ↔ p ∈ found.flatMap fun e => Place.filing e.1 e.2.name :=
  (mem_places_foldl (fun t e => mem_places_append t e.1 e.2.name [e.2]) {} found).trans
    (or_iff_right List.not_mem_nil)

/-- Merging takes over all places, whether something is filed there or not. -/
theorem mem_places_merge (t u : ExtensionTable) :
    p ∈ (t.merge u).places ↔ p ∈ t.places ∨ p ∈ u.places := by
  have hstep : ∀ (t : ExtensionTable) (e : TypeName × OrderedMap String (List Method)),
      p ∈ (e.2.entries.foldl (fun t e' => t.append e.1 e'.1 e'.2) (t.mention e.1)).places ↔
        p ∈ t.places ∨ p ∈ placesOf e.1 e.2 := fun t ⟨n, members⟩ => by
    have hmembers : p ∈ placesOf n members ↔
        p ∈ [.definition n] ∨ p ∈ members.entries.flatMap fun e => Place.filing n e.1 := by
      rw [mem_placesOf, List.mem_singleton, OrderedMap.keys, ← List.mem_flatMap, List.flatMap_map]
    rw [hmembers, mem_places_foldl fun t e => mem_places_append t n e.1 e.2, mem_places_mention,
      or_assoc]
  exact mem_places_foldl hstep t u.extended.entries

/-- A row takes up two places of its table. -/
theorem filing_subset_places {row : ExtensionRow} (hrow : row ∈ t.filed)
    (hp : p ∈ Place.filing row.extended row.member) : p ∈ t.places := by
  obtain ⟨⟨n, members⟩, hn, hrow⟩ := List.mem_flatMap.1 hrow
  obtain ⟨⟨member, methods⟩, hmember, rfl⟩ := List.mem_map.1 hrow
  exact List.mem_flatMap.2 ⟨_, hn, mem_placesOf.2 (.inr ⟨member, List.mem_map_of_mem hmember, hp⟩)⟩

/-! ## Full tables -/

/-- No definition in the table is without members, and no member without candidates. -/
structure Full (t : ExtensionTable) : Prop where
  inhabited : ∀ members ∈ t.extended.values, members.isEmpty = false
  filled : t.Filled

theorem candidates_of_mem_entries (ht : t.Distinct)
    {e : TypeName × OrderedMap String (List Method)} (he : e ∈ t.extended.entries)
    {e' : String × List Method} (he' : e' ∈ e.2.entries) : t.candidates e.1 e'.1 = e'.2 :=
  (methods_of_mem_filed ht (r := ⟨e.1, e'.1, e'.2⟩)
    (List.mem_flatMap.2 ⟨e, he, List.mem_map_of_mem he'⟩)).symm

/-- Something is filed at each place of a full table. -/
theorem Full.exists_filing (hfull : t.Full) (hp : p ∈ t.places) :
    ∃ e ∈ t.extended.entries, ∃ e' ∈ e.2.entries, p ∈ Place.filing e.1 e'.1 := by
  obtain ⟨e, he, hp⟩ := List.mem_flatMap.1 hp
  rcases mem_placesOf.1 hp with rfl | ⟨member, hmember, hp⟩
  · have hne := List.isEmpty_eq_false_iff.1 (hfull.inhabited e.2 (List.mem_map_of_mem he))
    obtain ⟨e', he'⟩ := List.exists_mem_of_ne_nil _ hne
    exact ⟨e, he, e', he', List.mem_cons_self⟩
  · obtain ⟨e', he', rfl⟩ := List.mem_map.1 hmember
    exact ⟨e, he, e', he', hp⟩

/-- A table is full exactly if there are candidates at each of its places. -/
theorem Distinct.full_iff (ht : t.Distinct) :
    t.Full ↔
      ∀ p ∈ t.places, ∃ n member, t.candidates n member ≠ [] ∧ p ∈ Place.filing n member := by
  constructor
  · intro hfull p hp
    obtain ⟨e, he, e', he', hp⟩ := hfull.exists_filing hp
    refine ⟨e.1, e'.1, ?_, hp⟩
    rw [candidates_of_mem_entries ht he he']
    exact hfull.filled e.2 (List.mem_map_of_mem he) e'.2 (List.mem_map_of_mem he')
  · intro hplaces
    refine ⟨fun members hmembers => ?_, fun members hmembers methods hmethods => ?_⟩
    · obtain ⟨e, he, rfl⟩ := List.mem_map.1 hmembers
      obtain ⟨n, member, hne, hp⟩ := hplaces (.definition e.1)
        (List.mem_flatMap.2 ⟨e, he, mem_placesOf.2 (.inl rfl)⟩)
      obtain rfl : e.1 = n := by simpa [Place.mem_filing] using hp
      have hrow := (mem_filed ht).1 (mem_filed_of_candidates_ne_nil ht hne)
      rw [OrderedMap.find?_of_mem ht.extended he BEq.rfl] at hrow
      obtain ⟨e', he', -⟩ := OrderedMap.exists_mem_of_find? hrow
      exact List.isEmpty_eq_false_iff.2 (List.ne_nil_of_mem he')
    · obtain ⟨e, he, rfl⟩ := List.mem_map.1 hmembers
      obtain ⟨e', he', rfl⟩ := List.mem_map.1 hmethods
      have hp : .member e.1 e'.1 ∈ Place.filing e.1 e'.1 := Place.mem_filing.2 (.inr rfl)
      obtain ⟨n, member, hne, hp⟩ := hplaces (.member e.1 e'.1) (List.mem_flatMap.2
        ⟨e, he, mem_placesOf.2 (.inr ⟨e'.1, List.mem_map_of_mem he', hp⟩)⟩)
      obtain ⟨rfl, rfl⟩ : e.1 = n ∧ e'.1 = member := by simpa [Place.mem_filing] using hp
      rwa [candidates_of_mem_entries ht he he'] at hne

/-- A full table without rows has no definitions. -/
theorem Full.isEmpty_iff (ht : t.Full) : t.isEmpty = true ↔ t.rows = [] := by
  have hrows : t.rows = [] ↔ ∀ e ∈ t.extended.entries, e.2.entries = [] := by
    rw [← List.perm_nil, t.rows_perm.congr_left, List.perm_nil, filed, List.flatMap_eq_nil_iff]
    simp only [List.map_eq_nil_iff]
  rw [hrows]
  constructor
  · intro hempty e he
    rw [List.isEmpty_iff.1 hempty] at he
    cases he
  · intro hnil
    refine List.isEmpty_iff.2 (List.eq_nil_iff_forall_not_mem.2 fun e he => ?_)
    exact List.isEmpty_eq_false_iff.1 (ht.inhabited e.2 (List.mem_map_of_mem he)) (hnil e he)

end ExtensionTable

/-! ## Places of an index -/

namespace ExtensionIndex

variable {object : Ty} {h : History} {ix : ExtensionIndex} {p : Place}

/-- What a change adds to the history of its moment stays in the log. -/
theorem History.exists_added_subset_log (object : Ty) {changes : List Change} {c : Change}
    (hc : c ∈ changes) : ∃ h : History, h.added object c ⊆ (of object changes).log := by
  obtain ⟨before, after, rfl⟩ := List.append_of_mem hc
  refine ⟨of object before, fun r hr => ?_⟩
  rw [of, List.foldl_append, List.foldl_cons]
  exact (log_prefix_foldl object _ after).subset (List.mem_append_right _ hr)

/-- The table that a change merges. -/
def Change.table? : Change → Option ExtensionTable
  | merge t _ _ _ => some t
  | register _ _ _ | scan _ _ => none

/-- The places that a change makes are those of its registrations and of the table it merges. -/
theorem Reflects.mem_places_apply (hix : Reflects object h ix) (c : Change) :
    p ∈ (ix.apply c).table.places ↔
      p ∈ ix.table.places ∨ p ∈ (h.added object c).flatMap Registration.places ∨
        p ∈ c.table?.toList.flatMap ExtensionTable.places := by
  cases c with
  | register n member m =>
    refine (ExtensionTable.mem_places_append ix.table n member [m]).trans (or_congr_right ?_)
    exact (or_iff_left List.not_mem_nil).symm
  | scan ts ns =>
    refine Iff.trans ?_ (or_congr_right (or_iff_left List.not_mem_nil).symm)
    rw [apply, ExtensionIndex.scan, History.added]
    by_cases hns : ns ∈ h.scanned
    · rw [if_pos ((hix.scanned ns).2 hns), if_pos hns]
      exact (or_iff_left List.not_mem_nil).symm
    · rw [if_neg fun hmem => hns ((hix.scanned ns).1 hmem), if_neg hns]
      dsimp only
      rw [ExtensionTable.mem_places_merge, ExtensionTable.mem_places_ofFound, hix.object_eq,
        ← TypeSystem.map_extensionsOf, List.flatMap_map]
      rfl
  | merge t ht order horder =>
    -- The registrations of the rows make no places that the table does not have.
    have hrows : p ∈ (h.added object (.merge t ht order horder)).flatMap Registration.places →
        p ∈ t.places := by
      intro hp
      obtain ⟨r, hr, hp⟩ := List.mem_flatMap.1 hp
      obtain ⟨row, hrow, hr⟩ := List.mem_flatMap.1 hr
      obtain ⟨m, -, rfl⟩ := List.mem_map.1 hr
      exact ExtensionTable.filing_subset_places (horder.mem_iff.1 hrow) hp
    rw [Change.table?, Option.toList_some, List.flatMap_singleton, or_iff_right_of_imp hrows]
    exact ExtensionTable.mem_places_merge ix.table t

theorem mem_places_run (object : Ty) (changes : List Change) :
    p ∈ (run object changes).table.places ↔
      p ∈ (History.of object changes).log.flatMap Registration.places ∨
        p ∈ (changes.filterMap Change.table?).flatMap ExtensionTable.places := by
  induction changes using List.reverseRecOn with
  | nil => exact (or_iff_left List.not_mem_nil).symm
  | append_singleton changes c ih =>
    have hrun : run object (changes ++ [c]) = (run object changes).apply c := by
      rw [run, List.foldl_append]
      rfl
    have htable : [c].filterMap Change.table? = c.table?.toList := by cases c <;> rfl
    rw [hrun, (reflects_run object changes).mem_places_apply c, ih, History.of_concat,
      History.record, List.flatMap_append, List.filterMap_append, List.flatMap_append,
      List.mem_append, List.mem_append, htable]
    exact or_or_or_comm

/-! ## Views -/

/-- The views of an index agree: its table is full, what is listed is what lookup finds, and it is
empty if nothing is listed. -/
structure ViewsAgree (ix : ExtensionIndex) : Prop where
  full : ix.table.Full
  mem_rows : ∀ row, row ∈ ix.table.rows ↔ ix.lookup? row.extended row.member = some row.methods
  isEmpty_iff : ix.table.isEmpty = true ↔ ix.table.rows = []

/-- Lookup finds every row with candidates, and nothing else. -/
theorem Reflects.lookup?_eq_some_iff (hix : Reflects object h ix) (row : ExtensionRow) :
    ix.lookup? row.extended row.member = some row.methods ↔
      row ∈ ix.table.rows ∧ row.methods ≠ [] := by
  rw [hix.mem_rows, hix.lookup?]
  split
  · rename_i hnil
    rw [hnil]
    exact ⟨fun h => (nomatch h), fun h => absurd h.1 h.2⟩
  · rename_i hne
    rw [Option.some_inj, eq_comm, iff_self_and]
    exact fun h => h ▸ hne

theorem Reflects.viewsAgree_iff_full (hix : Reflects object h ix) :
    ViewsAgree ix ↔ ix.table.Full := by
  refine ⟨ViewsAgree.full, fun hfull => ⟨hfull, fun row => ?_, hfull.isEmpty_iff⟩⟩
  rw [hix.lookup?_eq_some_iff]
  exact (and_iff_left_of_imp hfull.filled.methods_ne_nil).symm

/-- The views agree exactly if something was registered at each place of the table. -/
theorem Reflects.viewsAgree_iff (hix : Reflects object h ix) :
    ViewsAgree ix ↔ ∀ p ∈ ix.table.places, ∃ r ∈ h.log, p ∈ r.places := by
  rw [hix.viewsAgree_iff_full, hix.distinct.full_iff]
  simp only [exists_mem_places, hix.candidates]

/-- Whatever is registered, scanned and merged, and in which order, the views of an index agree
exactly if something was registered at each place of each merged table, be it by that table or by
another change. -/
theorem viewsAgree_run_iff (object : Ty) (changes : List Change) :
    ViewsAgree (run object changes) ↔
      ∀ t ∈ changes.filterMap Change.table?, ∀ p ∈ t.places,
        ∃ r ∈ (History.of object changes).log, p ∈ r.places := by
  rw [(reflects_run object changes).viewsAgree_iff]
  constructor
  · intro hplaces t ht p hp
    exact hplaces p ((mem_places_run object changes).2 (.inr (List.mem_flatMap.2 ⟨t, ht, hp⟩)))
  · intro hmerged p hp
    rcases (mem_places_run object changes).1 hp with hp | hp
    · exact List.mem_flatMap.1 hp
    · obtain ⟨t, ht, hp⟩ := List.mem_flatMap.1 hp
      exact hmerged t ht p hp

/-- A row without candidates is listed but not found, and a definition without members is not
listed though the index is not empty. -/
theorem not_viewsAgree_run_bare :
    let widget : TypeName := ⟨"Demo", "Widget"⟩
    let row := ({} : ExtensionTable).insert widget "Tag" []
    let mention := ({} : ExtensionTable).mention widget
    let listed := run .object [.merge row (ExtensionTable.distinct_empty.insert widget "Tag" [])
      row.filed (List.Perm.refl _)]
    let mentioned := run .object [.merge mention (ExtensionTable.distinct_empty.mention widget)
      mention.filed (List.Perm.refl _)]
    (listed.table.rows = [⟨widget, "Tag", []⟩] ∧ listed.lookup? widget "Tag" = none ∧
        ¬ ViewsAgree listed) ∧
      mentioned.table.rows = [] ∧ mentioned.table.isEmpty = false ∧ ¬ ViewsAgree mentioned := by
  intro widget row mention listed mentioned
  have hrows : listed.table.rows = [⟨widget, "Tag", []⟩] := List.mergeSort_singleton _
  have hlookup : listed.lookup? widget "Tag" = none := rfl
  have hnil : mentioned.table.rows = [] := List.mergeSort_nil
  have hempty : mentioned.table.isEmpty = false := rfl
  refine ⟨⟨hrows, hlookup, fun h => ?_⟩, hnil, hempty, fun h => ?_⟩
  · have hfound := (h.mem_rows ⟨widget, "Tag", []⟩).1 (hrows ▸ List.mem_singleton_self _)
    rw [hlookup] at hfound
    cases hfound
  · rw [h.isEmpty_iff.2 hnil] at hempty
    cases hempty

/-- If nothing but full tables is merged, the views agree. -/
theorem viewsAgree_run_of_full (object : Ty) {changes : List Change}
    (hfull : ∀ t ∈ changes.filterMap Change.table?, t.Full) : ViewsAgree (run object changes) := by
  refine (reflects_run object changes).viewsAgree_iff.2 fun p hp => ?_
  rcases (mem_places_run object changes).1 hp with hp | hp
  · exact List.mem_flatMap.1 hp
  · obtain ⟨t, ht, hp⟩ := List.mem_flatMap.1 hp
    obtain ⟨c, hc, htable⟩ := List.mem_filterMap.1 ht
    cases c with
    | register n member m => cases htable
    | scan ts ns => cases htable
    | merge u hu order horder =>
      cases htable
      obtain ⟨n, member, hne, hp⟩ := hu.full_iff.1 (hfull t ht) p hp
      rw [← ExtensionTable.methodsFor_filed hu horder] at hne
      obtain ⟨r, hr, hp⟩ := exists_mem_places.2 ⟨n, member, hne, hp⟩
      obtain ⟨h, hadded⟩ := History.exists_added_subset_log object hc
      exact ⟨r, hadded hr, hp⟩

end ExtensionIndex

end LateBinding
