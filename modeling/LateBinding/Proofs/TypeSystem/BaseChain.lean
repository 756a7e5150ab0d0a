import Mathlib.Data.Nat.Find
import LateBinding.Session.Strategy
import LateBinding.Proofs.Hierarchy

/-!
# Base chains

A type, its base type, the base type of that and so on are the base chain of the type
(`TypeSystem.ancestor?`), which need not end.  The declared members of a type are those of the first
type on its chain that has any (`TypeSystem.declaredMethods?_eq_some_iff`).  A search that climbs the
chain and stops at the first type it has seen before ends on every chain, with the same result
(`TypeSystem.baseSearch_iff`).
-/

namespace LateBinding

/-! ## Climbing -/

/-- The `k`-th node above `a`. -/
def climb (up : α → Option α) (a : α) : Nat → Option α
  | 0 => some a
  | k + 1 => (climb up a k).bind up

section Climb

variable {up : α → Option α} {f : α → Option β}

theorem climb_add (a : α) (j k : Nat) :
    climb up a (j + k) = (climb up a j).bind (climb up · k) := by
  induction k with
  | zero =>
    show climb up a j = (climb up a j).bind some
    cases climb up a j <;> rfl
  | succ k ih =>
    show (climb up a (j + k)).bind up = _
    rw [ih, Option.bind_assoc]
    rfl

theorem climb_succ (a : α) (k : Nat) : climb up a (k + 1) = (up a).bind (climb up · k) := by
  rw [Nat.add_comm, climb_add]
  rfl

theorem exists_climb_of_reaches {a b : α} (h : Reaches (fun a => (up a).toList) a b) :
    ∃ k, climb up a k = some b := by
  induction h with
  | refl => exact ⟨0, rfl⟩
  | tail _ hbc ih =>
    obtain ⟨k, hk⟩ := ih
    refine ⟨k + 1, ?_⟩
    rw [climb, hk, Option.bind_some]
    exact Option.mem_toList.1 hbc

variable [DecidableEq α]

/-- The first node above `a` with a result decides a search through all of them, cycles or not. -/
theorem findSome?_preorder_of_first {a : α} {k : Nat} {b : β}
    (hb : (climb up a k).bind f = some b) (hfirst : ∀ i < k, (climb up a i).bind f = none)
    {unvisited : List α} (hmem : ∀ i ≤ k, ∀ c, climb up a i = some c → c ∈ unvisited) :
    (preorder (fun a => (up a).toList) unvisited [a]).findSome? f = some b := by
  induction k generalizing a unvisited with
  | zero =>
    have hhere : f a = some b := hb
    rw [preorder_cons_of_mem (hmem 0 (Nat.le_refl 0) a rfl), List.findSome?_cons, hhere]
  | succ k ih =>
    have hhere : f a = none := hfirst 0 (Nat.succ_pos k)
    obtain ⟨c, hc⟩ : ∃ c, up a = some c := by
      cases hup : up a with
      | some c => exact ⟨c, rfl⟩
      | none =>
        rw [climb_succ, hup] at hb
        cases hb
    have hclimb : ∀ i, climb up c i = climb up a (i + 1) := by
      intro i
      rw [climb_succ, hc, Option.bind_some]
    -- If `a` came up again below the result, the result would have come up below that.
    have hagain : ∀ i ≤ k, climb up a (i + 1) ≠ some a := by
      intro i hi hcycle
      have hearlier : climb up a (k + 1) = climb up a (k - i) := by
        rw [show k + 1 = i + 1 + (k - i) by omega, climb_add, hcycle, Option.bind_some]
      rw [hearlier, hfirst (k - i) (by omega)] at hb
      cases hb
    rw [preorder_cons_of_mem (hmem 0 (Nat.zero_le _) a rfl), List.findSome?_cons, hhere, hc,
      Option.toList_some, List.append_nil]
    refine ih ?_ (fun i hi => ?_) fun i hi d hd => ?_
    · rw [hclimb]
      exact hb
    · rw [hclimb]
      exact hfirst (i + 1) (by omega)
    · rw [hclimb] at hd
      refine (List.mem_erase_of_ne ?_).2 (hmem (i + 1) (by omega) d hd)
      rintro rfl
      exact hagain i hi hd

theorem findSome?_preorder_eq_none {a : α} (h : ∀ k, (climb up a k).bind f = none)
    (unvisited : List α) :
    (preorder (fun a => (up a).toList) unvisited [a]).findSome? f = none := by
  refine List.findSome?_eq_none_iff.2 fun b hb => ?_
  obtain ⟨a', ha', hreaches⟩ := reaches_of_mem_preorder hb
  obtain rfl := List.mem_singleton.1 ha'
  obtain ⟨k, hk⟩ := exists_climb_of_reaches hreaches
  have hnone := h k
  rwa [hk] at hnone

end Climb

namespace TypeSystem

variable {ts : TypeSystem} {ty : Ty} {member : String}

/-- The type `k` steps up the base chain of a type. -/
def ancestor? (ts : TypeSystem) (ty : Ty) (k : Nat) : Option Ty := climb ts.base? ty k

/-- The instance methods called `member` that are declared on a type itself, in order. -/
def instanceMethods (ts : TypeSystem) (ty : Ty) (member : String) : List Method :=
  (ts.methods ty).filter fun m => !m.isStatic && m.name == member

/-- The instance methods of a type itself, if it has any. -/
def ownMethods? (ts : TypeSystem) (member : String) (ty : Ty) : Option (List Method) :=
  match ts.instanceMethods ty member with
  | [] => none
  | methods => some methods

theorem ownMethods?_eq_none_iff :
    ts.ownMethods? member ty = none ↔ ts.instanceMethods ty member = [] := by
  unfold ownMethods?
  cases ts.instanceMethods ty member with
  | nil => exact iff_of_true rfl rfl
  | cons m ms => exact iff_of_false (Option.some_ne_none _) (List.cons_ne_nil m ms)

theorem ownMethods?_eq_some_iff {methods : List Method} :
    ts.ownMethods? member ty = some methods ↔
      ts.instanceMethods ty member = methods ∧ methods ≠ [] := by
  unfold ownMethods?
  cases ts.instanceMethods ty member with
  | nil =>
    exact iff_of_false (Option.some_ne_none methods).symm fun h => h.2 h.1.symm
  | cons m ms =>
    refine ⟨fun h => ?_, fun ⟨h, _⟩ => congrArg some h⟩
    cases h
    exact ⟨rfl, List.cons_ne_nil m ms⟩

/-- What is declared on the type `k` steps up. -/
def declaredAt? (ts : TypeSystem) (ty : Ty) (member : String) (k : Nat) : Option (List Method) :=
  (ts.ancestor? ty k).bind (ts.ownMethods? member)

theorem declaredAt?_eq_none_iff {k : Nat} :
    ts.declaredAt? ty member k = none ↔
      ∀ t, ts.ancestor? ty k = some t → ts.instanceMethods t member = [] := by
  simp only [declaredAt?, Option.bind_eq_none_iff, ownMethods?_eq_none_iff]

theorem declaredAt?_eq_some_iff {k : Nat} {methods : List Method} :
    ts.declaredAt? ty member k = some methods ↔
      ∃ t, ts.ancestor? ty k = some t ∧ ts.instanceMethods t member = methods ∧ methods ≠ [] := by
  simp only [declaredAt?, Option.bind_eq_some_iff, ownMethods?_eq_some_iff]

/-! ## The chain by name -/

/-- The definition of the base type of a definition. -/
def baseName? (ts : TypeSystem) (n : TypeName) : Option TypeName :=
  ((ts.types.find? n).bind (·.definition.base)).bind Ty.name?

theorem base?_of_name? {n : TypeName} (h : ty.name? = some n) :
    (ts.base? ty).bind Ty.name? = ts.baseName? n := by
  rw [base?, entry?, h, baseName?]
  rfl

theorem base?_of_name?_eq_none (h : ty.name? = none) : ts.base? ty = none := by
  rw [base?, entry?, h]
  rfl

theorem ownMethods?_of_name? {n : TypeName} (h : ty.name? = some n) :
    ts.ownMethods? member ty = ts.ownMethods? member (.con n) := by
  have hmethods : ts.methods ty = ts.methods (.con n) := by
    rw [methods, entry?, h, methods]
    rfl
  rw [ownMethods?, instanceMethods, hmethods]
  rfl

theorem ownMethods?_of_name?_eq_none (h : ty.name? = none) : ts.ownMethods? member ty = none := by
  rw [ownMethods?, instanceMethods, methods, entry?, h]
  rfl

theorem name?_ancestor? {n : TypeName} (h : ty.name? = some n) (k : Nat) :
    (ts.ancestor? ty k).bind Ty.name? = climb ts.baseName? n k := by
  induction k with
  | zero => exact h
  | succ k ih =>
    show ((ts.ancestor? ty k).bind ts.base?).bind Ty.name? = (climb ts.baseName? n k).bind _
    rw [← ih]
    cases ts.ancestor? ty k with
    | none => rfl
    | some t =>
      rw [Option.bind_some, Option.bind_some]
      cases ht : t.name? with
      | none => rw [base?_of_name?_eq_none ht]; rfl
      | some m => exact base?_of_name? ht

theorem declaredAt?_eq_climb {n : TypeName} (h : ty.name? = some n) (k : Nat) :
    ts.declaredAt? ty member k =
      (climb ts.baseName? n k).bind fun m => ts.ownMethods? member (.con m) := by
  rw [← name?_ancestor? h, declaredAt?]
  cases ts.ancestor? ty k with
  | none => rfl
  | some t =>
    rw [Option.bind_some, Option.bind_some]
    cases ht : t.name? with
    | none => exact ownMethods?_of_name?_eq_none ht
    | some m => exact ownMethods?_of_name? ht

theorem mem_namesFrom_of_climb {n m : TypeName} {k : Nat} (h : climb ts.baseName? n k = some m) :
    m ∈ ts.namesFrom n := by
  cases k with
  | zero =>
    cases h
    exact mem_namesFrom_self ts n
  | succ k =>
    obtain ⟨a, -, ha⟩ := Option.bind_eq_some_iff.1 h
    refine mem_namesFrom_of_mem_parentNames (a := a) n ?_
    obtain ⟨b, hb, hname⟩ := Option.bind_eq_some_iff.1 ha
    obtain ⟨e, he, hbase⟩ := Option.bind_eq_some_iff.1 hb
    rw [parentNames, he]
    refine List.mem_filterMap.2 ⟨b, ?_, hname⟩
    exact List.mem_append_right _ (Option.mem_toList.2 hbase)

theorem declaredMethods?_eq_search (ty : Ty) (member : String) :
    ts.declaredMethods? ty member = ty.name?.bind fun n =>
      (preorder (fun m => (ts.baseName? m).toList) (ts.namesFrom n) [n]).findSome? fun m =>
        ts.ownMethods? member (.con m) := rfl

/-! ## What the search finds -/

theorem declaredMethods?_of_first {k : Nat} {methods : List Method}
    (h : ts.declaredAt? ty member k = some methods)
    (hfirst : ∀ i < k, ts.declaredAt? ty member i = none) :
    ts.declaredMethods? ty member = some methods := by
  cases hn : ty.name? with
  | none =>
    -- Nothing is declared on a type without a definition, and it has no base type.
    cases k with
    | zero =>
      have hown : ts.ownMethods? member ty = some methods := h
      rw [ownMethods?_of_name?_eq_none hn] at hown
      cases hown
    | succ k =>
      rw [declaredAt?, ancestor?, climb_succ, base?_of_name?_eq_none hn] at h
      cases h
  | some n =>
    rw [declaredMethods?_eq_search, hn, Option.bind_some]
    rw [declaredAt?_eq_climb hn] at h
    refine findSome?_preorder_of_first h (fun i hi => ?_) fun i _ m hm => mem_namesFrom_of_climb hm
    rw [← declaredAt?_eq_climb hn, hfirst i hi]

theorem declaredMethods?_of_forall (h : ∀ k, ts.declaredAt? ty member k = none) :
    ts.declaredMethods? ty member = none := by
  rw [declaredMethods?_eq_search]
  cases hn : ty.name? with
  | none => rfl
  | some n =>
    rw [Option.bind_some]
    refine findSome?_preorder_eq_none (fun k => ?_) _
    rw [← declaredAt?_eq_climb hn, h]

/-- Where anything is declared on the chain, something is declared first. -/
theorem exists_first (h : ∃ k, ts.declaredAt? ty member k ≠ none) :
    ∃ k methods, ts.declaredAt? ty member k = some methods ∧
      ∀ i < k, ts.declaredAt? ty member i = none := by
  obtain ⟨methods, hmethods⟩ := Option.ne_none_iff_exists'.1 (Nat.find_spec h)
  exact ⟨Nat.find h, methods, hmethods, fun i hi => not_not.1 (Nat.find_min h hi)⟩

/-- The declared members of a type are those of the first type on its base chain that has any. -/
theorem declaredMethods?_eq_some_iff {methods : List Method} :
    ts.declaredMethods? ty member = some methods ↔
      ∃ k, ts.declaredAt? ty member k = some methods ∧
        ∀ i < k, ts.declaredAt? ty member i = none := by
  refine ⟨fun h => ?_, fun ⟨k, hk, hfirst⟩ => declaredMethods?_of_first hk hfirst⟩
  by_cases hsome : ∃ k, ts.declaredAt? ty member k ≠ none
  · obtain ⟨k, found, hfound, hfirst⟩ := exists_first hsome
    rw [declaredMethods?_of_first hfound hfirst] at h
    cases h
    exact ⟨k, hfound, hfirst⟩
  · rw [declaredMethods?_of_forall (not_exists_not.1 hsome)] at h
    cases h

theorem declaredMethods?_eq_none_iff :
    ts.declaredMethods? ty member = none ↔ ∀ k, ts.declaredAt? ty member k = none := by
  refine ⟨fun h => not_exists_not.1 fun hsome => ?_, declaredMethods?_of_forall⟩
  obtain ⟨k, found, hfound, hfirst⟩ := exists_first hsome
  rw [declaredMethods?_of_first hfound hfirst] at h
  cases h

/-! ## The search by type -/

theorem declaredAt?_succ (ty : Ty) (member : String) (k : Nat) :
    ts.declaredAt? ty member (k + 1) = (ts.base? ty).bind (ts.declaredAt? · member k) := by
  rw [declaredAt?, ancestor?, climb_succ, Option.bind_assoc]
  rfl

theorem declaredMethods?_of_own {methods : List Method}
    (h : ts.ownMethods? member ty = some methods) :
    ts.declaredMethods? ty member = some methods :=
  declaredMethods?_of_first (k := 0) h fun i hi => absurd hi (Nat.not_lt_zero i)

/-- A type that declares nothing itself has the declared members of its base type. -/
theorem declaredMethods?_of_base (h : ts.ownMethods? member ty = none) :
    ts.declaredMethods? ty member = (ts.base? ty).bind (ts.declaredMethods? · member) := by
  cases hbase : ts.base? ty with
  | none =>
    refine declaredMethods?_of_forall fun k => ?_
    cases k with
    | zero => exact h
    | succ k => rw [declaredAt?_succ, hbase, Option.bind_none]
  | some b =>
    have hsucc : ∀ k, ts.declaredAt? ty member (k + 1) = ts.declaredAt? b member k := by
      intro k
      rw [declaredAt?_succ, hbase, Option.bind_some]
    rw [Option.bind_some]
    cases hb : ts.declaredMethods? b member with
    | none =>
      refine declaredMethods?_of_forall fun k => ?_
      cases k with
      | zero => exact h
      | succ k => rw [hsucc, declaredMethods?_eq_none_iff.1 hb]
    | some methods =>
      obtain ⟨k, hk, hfirst⟩ := declaredMethods?_eq_some_iff.1 hb
      refine declaredMethods?_of_first (k := k + 1) (by rw [hsucc, hk]) fun i hi => ?_
      cases i with
      | zero => exact h
      | succ i => rw [hsucc, hfirst i (Nat.lt_of_succ_lt_succ hi)]

theorem ownMethods?_congr {t u : Ty} (h : t == u) :
    ts.ownMethods? member t = ts.ownMethods? member u := by
  rw [ownMethods?, instanceMethods, methods, entry?, Ty.name?_congr h]
  rfl

theorem base?_congr {t u : Ty} (h : t == u) : ts.base? t = ts.base? u := by
  rw [base?, entry?, Ty.name?_congr h]
  rfl

/-- A search that climbs from a type and keeps the types that it has seen.  It stops above the last
type of a chain, at a type that was seen before, and at the first type that declares the member. -/
inductive BaseSearch (ts : TypeSystem) (member : String) :
    List Ty → Option Ty → Option (List Method) → Prop where
  | top (seen : List Ty) : BaseSearch ts member seen none none
  | again {seen : List Ty} {ty : Ty} (h : seen.contains ty) : BaseSearch ts member seen (some ty) none
  | found {seen : List Ty} {ty : Ty} {methods : List Method} (h : ¬ seen.contains ty)
    (hown : ts.ownMethods? member ty = some methods) :
    BaseSearch ts member seen (some ty) (some methods)
  | up {seen : List Ty} {ty : Ty} {r : Option (List Method)} (h : ¬ seen.contains ty)
    (hown : ts.ownMethods? member ty = none)
    (hbase : BaseSearch ts member (ty :: seen) (ts.base? ty) r) :
    BaseSearch ts member seen (some ty) r

/-- The types seen declare nothing, and their base types are seen too, or next. -/
structure Passed (ts : TypeSystem) (member : String) (seen : List Ty) (next : Option Ty) : Prop where
  own : ∀ t ∈ seen, ts.ownMethods? member t = none
  base : ∀ t ∈ seen, ∀ b, ts.base? t = some b → seen.contains b ∨ next = some b

theorem contains_cons_of_contains {seen : List Ty} {t : Ty} (u : Ty) (h : seen.contains t) :
    (u :: seen).contains t := by
  rw [List.contains_cons, h, Bool.or_true]

theorem Passed.up {seen : List Ty} (h : Passed ts member seen (some ty))
    (hown : ts.ownMethods? member ty = none) :
    Passed ts member (ty :: seen) (ts.base? ty) where
  own t ht := by
    rcases List.mem_cons.1 ht with rfl | ht
    · exact hown
    · exact h.own t ht
  base t ht b hb := by
    rcases List.mem_cons.1 ht with rfl | ht
    · exact .inr hb
    · rcases h.base t ht b hb with hseen | hnext
      · exact .inl (contains_cons_of_contains ty hseen)
      · cases hnext
        exact .inl (by rw [List.contains_cons, BEq.rfl, Bool.true_or])

/-- Nothing is declared above a type that was seen before. -/
theorem Passed.declaredAt? {seen : List Ty} (h : Passed ts member seen (some ty))
    (hseen : seen.contains ty) {t : Ty} (ht : seen.contains t) (k : Nat) :
    ts.declaredAt? t member k = none := by
  induction k generalizing t with
  | zero =>
    obtain ⟨u, hu, htu⟩ := List.contains_iff_exists_mem_beq.1 ht
    show ts.ownMethods? member t = none
    rw [ownMethods?_congr htu, h.own u hu]
  | succ k ih =>
    obtain ⟨u, hu, htu⟩ := List.contains_iff_exists_mem_beq.1 ht
    rw [declaredAt?_succ, base?_congr htu]
    cases hb : ts.base? u with
    | none => rfl
    | some b =>
      rw [Option.bind_some]
      rcases h.base u hu b hb with hmem | hnext
      · exact ih hmem
      · cases hnext
        exact ih hseen

theorem BaseSearch.result {seen : List Ty} {next : Option Ty} {r : Option (List Method)}
    (h : BaseSearch ts member seen next r) (hpassed : Passed ts member seen next) :
    r = next.bind (ts.declaredMethods? · member) := by
  induction h with
  | top seen => rfl
  | again h =>
    rw [Option.bind_some, declaredMethods?_of_forall (hpassed.declaredAt? h h)]
  | found h hown => rw [Option.bind_some, declaredMethods?_of_own hown]
  | up h hown hbase ih => rw [Option.bind_some, declaredMethods?_of_base hown, ih (hpassed.up hown)]

/-- A new type leaves fewer types unseen. -/
theorem length_unseen_lt {types seen : List Ty} (hmem : ty ∈ types) (hseen : ¬ seen.contains ty) :
    (types.filter fun t => !(ty :: seen).contains t).length <
      (types.filter fun t => !seen.contains t).length := by
  have hsplit : (types.filter fun t => !(ty :: seen).contains t) =
      (types.filter fun t => !seen.contains t).filter fun t => !(t == ty) := by
    simp only [List.filter_filter, List.contains_cons, Bool.not_or]
  have hunseen : ty ∈ types.filter fun t => !seen.contains t :=
    List.mem_filter.2 ⟨hmem, by simpa using hseen⟩
  rw [hsplit]
  exact List.length_filter_lt_length_iff_exists.2 ⟨ty, hunseen, by simp⟩

/-- A search ends if all that it can come to is among finitely many types. -/
theorem exists_baseSearch {types : List Ty} (htypes : ∀ t b, ts.base? t = some b → b ∈ types)
    (member : String) (seen : List Ty) (next : Option Ty) (hnext : ∀ t, next = some t → t ∈ types) :
    ∃ r, BaseSearch ts member seen next r := by
  -- Every step up takes a type out of those that have not been seen.
  induction hcount : (types.filter fun t => !seen.contains t).length using Nat.strong_induction_on
    generalizing seen next with
  | _ count ih =>
    cases next with
    | none => exact ⟨none, .top seen⟩
    | some ty =>
      by_cases hseen : seen.contains ty
      · exact ⟨none, .again hseen⟩
      · cases hown : ts.ownMethods? member ty with
        | some methods => exact ⟨some methods, .found hseen hown⟩
        | none =>
          have hfewer : (types.filter fun t => !(ty :: seen).contains t).length < count := by
            rw [← hcount]
            exact length_unseen_lt (hnext ty rfl) hseen
          obtain ⟨r, hr⟩ := ih _ hfewer (ty :: seen) (ts.base? ty) (fun t ht => htypes ty t ht) rfl
          exact ⟨r, .up hseen hown hr⟩

/-- The types that are listed as base types. -/
def baseTypes (ts : TypeSystem) : List Ty := ts.types.entries.filterMap (·.2.definition.base)

theorem mem_baseTypes {t b : Ty} (h : ts.base? t = some b) : b ∈ ts.baseTypes := by
  obtain ⟨e, he, hbase⟩ := Option.bind_eq_some_iff.1 h
  obtain ⟨n, -, hfind⟩ := Option.bind_eq_some_iff.1 he
  obtain ⟨⟨k, e'⟩, hmem, -, rfl⟩ := OrderedMap.exists_mem_of_find? hfind
  exact List.mem_filterMap.2 ⟨(k, e'), hmem, hbase⟩

/-- On every type system and from every type, the search ends, in one way, and finds the declared
members. -/
theorem baseSearch_iff (ts : TypeSystem) (ty : Ty) (member : String) (r : Option (List Method)) :
    BaseSearch ts member [] (some ty) r ↔ r = ts.declaredMethods? ty member := by
  have hpassed : Passed ts member [] (some ty) :=
    ⟨List.forall_mem_nil _, fun t ht => absurd ht List.not_mem_nil⟩
  constructor
  · exact fun h => h.result hpassed
  · rintro rfl
    have htypes : ∀ t b, ts.base? t = some b → b ∈ ty :: ts.baseTypes :=
      fun t b hb => List.mem_cons_of_mem ty (mem_baseTypes hb)
    obtain ⟨r, hr⟩ := exists_baseSearch htypes member [] (some ty) fun t ht => by
      cases ht
      exact List.mem_cons_self
    have hresult : r = ts.declaredMethods? ty member := hr.result hpassed
    rwa [← hresult]

end TypeSystem

end LateBinding
