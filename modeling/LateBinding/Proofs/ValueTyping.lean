import Mathlib.Data.Set.Basic
import LateBinding.Proofs.Resolution.Keys
import LateBinding.ValueTyping

/-!
# Types of containers

The elements of a container are gone through in order, with a type found so far.  What comes out
depends on nothing but the types that occur among the elements (`ValueTyping.SharedOf`), so a
container may have its elements reordered and repeated, at any depth, and keeps its type
(`ValueTyping.typeOf_containers`).
-/

namespace LateBinding

theorem Ty.isHost_congr {t u : Ty} (h : t == u) : t.isHost = u.isHost := by
  change same t u = true at h
  cases t <;> cases u <;> first | rfl | cases h

namespace ValueTyping

variable {τ : ValueTyping} {t u : Ty}

/-! ## The search for a shared type -/

theorem isInteger_congr (h : t == u) : τ.isInteger t = τ.isInteger u := by
  rw [isInteger, isInteger, BEq.congr_left h, BEq.congr_left h]

theorem isInteger_wideInteger : τ.isInteger τ.wideInteger = true := by
  rw [isInteger, BEq.rfl, Bool.or_true]

theorem sharedFrom_eq (found : Ty) (tys : List Ty) :
    τ.sharedFrom found tys =
      if tys.any Ty.isHost then τ.object
      else if tys.all (found == ·) then found
      else if (found :: tys).all τ.isInteger then τ.wideInteger
      else τ.object := by
  induction tys generalizing found with
  | nil => rfl
  | cons t tys ih =>
    rw [sharedFrom]
    cases hhost : t.isHost with
    | true => simp [hhost]
    | false =>
      cases hfound : found == t with
      | true =>
        have hinteger : τ.isInteger found = τ.isInteger t := isInteger_congr hfound
        simp [join?, hfound, ih, hhost, hinteger]
      | false =>
        cases hintegers : τ.isInteger found && τ.isInteger t with
        | true =>
          -- From here on the search goes with the wide type, and all that equal it are integers.
          rw [Bool.and_eq_true] at hintegers
          have hall : tys.all (τ.wideInteger == ·) = true → tys.all τ.isInteger = true := by
            rw [List.all_eq_true, List.all_eq_true]
            intro h u hu
            rw [← isInteger_congr (h u hu), isInteger_wideInteger]
          simp only [join?, hfound, hintegers, ih, isInteger_wideInteger, hhost, List.any_cons,
            List.all_cons, Bool.false_or, Bool.true_and, Bool.false_and, Bool.and_self,
            Bool.false_eq_true, if_false, if_true]
          cases hwide : tys.all (τ.wideInteger == ·) with
          | false => rfl
          | true => rw [if_pos rfl, if_pos (hall hwide)]
        | false =>
          simp only [join?, hfound, hintegers, hhost, List.any_cons, List.all_cons,
            ← Bool.and_assoc, Bool.false_and, Bool.false_eq_true, if_false, ite_self]

theorem shared_cons (t : Ty) (tys : List Ty) :
    τ.shared (t :: tys) =
      if (t :: tys).any Ty.isHost then τ.object
      else if tys.all (t == ·) then t
      else if (t :: tys).all τ.isInteger then τ.wideInteger
      else τ.object := by
  rw [shared, List.any_cons]
  cases hhost : t.isHost with
  | true => rfl
  | false => exact sharedFrom_eq t tys

/-! ## The rule -/

/-- The types that occur in a list, up to equality. -/
def occurring (tys : List Ty) : Set Ty := {t | ∃ u ∈ tys, (u == t) = true}

/-- Two different types occur. -/
def Several (types : Set Ty) : Prop := ∃ u ∈ types, ∃ v ∈ types, (u == v) = false

/-- The type that elements share, told from the set of their types alone. -/
inductive SharedOf (τ : ValueTyping) (types : Set Ty) (t : Ty) : Prop
  | nothing (h : types = ∅) (ht : τ.object == t)
  | host (h : ∃ u ∈ types, u.isHost = true) (ht : τ.object == t)
  | alike (hforeign : t.isHost = false) (h : ∀ u, u ∈ types ↔ t == u)
  | integers (hforeign : ∀ u ∈ types, u.isHost = false)
    (hseveral : Several types) (h : ∀ u ∈ types, τ.isInteger u = true) (ht : τ.wideInteger == t)
  | mixed (hforeign : ∀ u ∈ types, u.isHost = false)
    (hseveral : Several types) (h : ∃ u ∈ types, τ.isInteger u = false) (ht : τ.object == t)

section Occurring

variable {tys : List Ty}

theorem mem_occurring (h : t ∈ tys) : t ∈ occurring tys := ⟨t, h, BEq.rfl⟩

/-- What equal types have in common, holds of the occurring types as soon as it holds of those in
the list. -/
theorem forall_occurring_iff {f : Ty → Bool} {b : Bool} (hf : ∀ {t u : Ty}, t == u → f t = f u) :
    (∀ t ∈ occurring tys, f t = b) ↔ ∀ t ∈ tys, f t = b := by
  constructor
  · exact fun h t ht => h t (mem_occurring ht)
  · rintro h t ⟨u, hu, hut⟩
    rw [← hf hut]
    exact h u hu

theorem exists_occurring_iff {f : Ty → Bool} {b : Bool} (hf : ∀ {t u : Ty}, t == u → f t = f u) :
    (∃ t ∈ occurring tys, f t = b) ↔ ∃ t ∈ tys, f t = b := by
  constructor
  · rintro ⟨t, ⟨u, hu, hut⟩, ht⟩
    exact ⟨u, hu, (hf hut).trans ht⟩
  · rintro ⟨t, ht, h⟩
    exact ⟨t, mem_occurring ht, h⟩

theorem several_cons_iff : Several (occurring (t :: tys)) ↔ tys.all (t == ·) = false := by
  constructor
  · rintro ⟨u, ⟨a, ha, hau⟩, v, ⟨b, hb, hbv⟩, huv⟩
    rw [← Bool.not_eq_true, List.all_eq_true]
    intro h
    have hhead : ∀ c ∈ t :: tys, t == c := List.forall_mem_cons.2 ⟨BEq.rfl, h⟩
    have hsame : u == v :=
      BEq.trans (BEq.symm hau) (BEq.trans (BEq.symm (hhead a ha)) (BEq.trans (hhead b hb) hbv))
    rw [huv] at hsame
    cases hsame
  · intro h
    obtain ⟨v, hv, htv⟩ := List.all_eq_false.1 h
    exact ⟨t, mem_occurring List.mem_cons_self, v, mem_occurring (List.mem_cons_of_mem t hv),
      Bool.not_eq_true _ ▸ htv⟩

end Occurring

/-- What the elements share is told by the rule. -/
theorem sharedOf_shared (tys : List Ty) : τ.SharedOf (occurring tys) (τ.shared tys) := by
  cases tys with
  | nil => exact .nothing (Set.eq_empty_iff_forall_notMem.2 fun t ⟨u, hu, _⟩ => nomatch hu) BEq.rfl
  | cons t tys =>
    rw [shared_cons]
    cases hhost : (t :: tys).any Ty.isHost with
    | true =>
      rw [if_pos rfl]
      exact .host ((exists_occurring_iff Ty.isHost_congr).2 (List.any_eq_true.1 hhost)) BEq.rfl
    | false =>
      rw [if_neg Bool.false_ne_true]
      have hforeign : ∀ u ∈ t :: tys, u.isHost = false := by simpa using hhost
      have hforeign' := (forall_occurring_iff Ty.isHost_congr).2 hforeign
      cases hall : tys.all (t == ·) with
      | true =>
        rw [if_pos rfl]
        have hhead : ∀ u ∈ t :: tys, t == u :=
          List.forall_mem_cons.2 ⟨BEq.rfl, List.all_eq_true.1 hall⟩
        refine .alike (hforeign t List.mem_cons_self) fun u => ⟨?_, fun htu => ?_⟩
        · rintro ⟨a, ha, hau⟩
          exact BEq.trans (hhead a ha) hau
        · exact ⟨t, List.mem_cons_self, htu⟩
      | false =>
        rw [if_neg Bool.false_ne_true]
        have hseveral := several_cons_iff.2 hall
        cases hinteger : (t :: tys).all τ.isInteger with
        | true =>
          rw [if_pos rfl]
          refine .integers hforeign' hseveral ?_ BEq.rfl
          exact (forall_occurring_iff isInteger_congr).2 (List.all_eq_true.1 hinteger)
        | false =>
          rw [if_neg Bool.false_ne_true]
          refine .mixed hforeign' hseveral ?_ BEq.rfl
          obtain ⟨u, hu, hnot⟩ := List.all_eq_false.1 hinteger
          exact ⟨u, mem_occurring hu, Bool.not_eq_true _ ▸ hnot⟩

/-- The rule leaves no choice. -/
theorem SharedOf.shared_beq {tys : List Ty} (h : τ.SharedOf (occurring tys) t) :
    τ.shared tys == t := by
  cases tys with
  | nil =>
    have hnone : ∀ u, u ∉ occurring [] := fun u ⟨v, hv, _⟩ => nomatch hv
    cases h with
    | nothing _ ht => exact ht
    | host h _ =>
      obtain ⟨u, hu, -⟩ := h
      exact absurd hu (hnone u)
    | alike _ h => exact absurd ((h t).2 BEq.rfl) (hnone t)
    | integers _ hseveral | mixed _ hseveral =>
      obtain ⟨u, hu, -⟩ := hseveral
      exact absurd hu (hnone u)
  | cons a tys =>
    have hfirst : a ∈ occurring (a :: tys) := mem_occurring List.mem_cons_self
    have hnohost : (∀ u ∈ occurring (a :: tys), u.isHost = false) →
        (a :: tys).any Ty.isHost = false := by
      intro h
      have hforeign := (forall_occurring_iff Ty.isHost_congr).1 h
      simpa using hforeign
    rw [shared_cons]
    cases h with
    | nothing h _ => exact absurd (h ▸ hfirst) (Set.notMem_empty a)
    | host h ht =>
      rw [if_pos (List.any_eq_true.2 ((exists_occurring_iff Ty.isHost_congr).1 h))]
      exact ht
    | alike hforeign h =>
      have hhost := hnohost fun u hu => (Ty.isHost_congr ((h u).1 hu)).symm.trans hforeign
      have hat : t == a := (h a).1 hfirst
      have hall : tys.all (a == ·) = true := by
        rw [List.all_eq_true]
        intro u hu
        exact BEq.trans (BEq.symm hat) ((h u).1 (mem_occurring (List.mem_cons_of_mem a hu)))
      rw [if_neg (by rw [hhost]; exact Bool.false_ne_true), if_pos hall]
      exact BEq.symm hat
    | integers hforeign hseveral h ht =>
      rw [if_neg (by rw [hnohost hforeign]; exact Bool.false_ne_true),
        if_neg (by rw [several_cons_iff.1 hseveral]; exact Bool.false_ne_true),
        if_pos (List.all_eq_true.2 ((forall_occurring_iff isInteger_congr).1 h))]
      exact ht
    | mixed hforeign hseveral h ht =>
      obtain ⟨u, hu, hnot⟩ := (exists_occurring_iff isInteger_congr).1 h
      have hinteger : (a :: tys).all τ.isInteger = false :=
        List.all_eq_false.2 ⟨u, hu, Bool.not_eq_true _ ▸ hnot⟩
      rw [if_neg (by rw [hnohost hforeign]; exact Bool.false_ne_true),
        if_neg (by rw [several_cons_iff.1 hseveral]; exact Bool.false_ne_true),
        if_neg (by rw [hinteger]; exact Bool.false_ne_true)]
      exact ht

theorem SharedOf.of_beq {types : Set Ty} (h : τ.SharedOf types t) (htu : t == u) :
    τ.SharedOf types u := by
  cases h with
  | nothing h ht => exact .nothing h (BEq.trans ht htu)
  | host h ht => exact .host h (BEq.trans ht htu)
  | alike hforeign h =>
    refine .alike ((Ty.isHost_congr htu).symm.trans hforeign) fun v => ?_
    rw [h v, BEq.congr_left htu]
  | integers hforeign hseveral h ht => exact .integers hforeign hseveral h (BEq.trans ht htu)
  | mixed hforeign hseveral h ht => exact .mixed hforeign hseveral h (BEq.trans ht htu)

theorem sharedOf_iff {tys : List Ty} : τ.SharedOf (occurring tys) t ↔ τ.shared tys == t :=
  ⟨SharedOf.shared_beq, (sharedOf_shared tys).of_beq⟩

theorem shared_congr {tys tys' : List Ty} (h : occurring tys = occurring tys') :
    τ.shared tys == τ.shared tys' := by
  have hshared : τ.SharedOf (occurring tys) (τ.shared tys') := h ▸ sharedOf_shared tys'
  exact hshared.shared_beq

end ValueTyping

/-! ## Rearrangements -/

/-- Values that differ in the order and the repetition of elements only, at any depth.  The keys and
the values of a mapping may change independently of each other. -/
inductive Value.Rearranged : Value → Value → Prop
  | refl (v : Value) : Rearranged v v
  | trans {u v w : Value} (huv : Rearranged u v) (hvw : Rearranged v w) : Rearranged u w
  | sequence {vs ws : List Value} (h : ∀ v, v ∈ vs ↔ v ∈ ws) :
    Rearranged (.sequence vs) (.sequence ws)
  | mapping {es fs : List (Value × Value)} (hkeys : ∀ k, k ∈ es.map (·.1) ↔ k ∈ fs.map (·.1))
    (hvalues : ∀ v, v ∈ es.map (·.2) ↔ v ∈ fs.map (·.2)) :
    Rearranged (.mapping es) (.mapping fs)
  | item {v w : Value} (before after : List Value) (h : Rearranged v w) :
    Rearranged (.sequence (before ++ v :: after)) (.sequence (before ++ w :: after))
  | entry {k l v w : Value} (before after : List (Value × Value)) (hkey : Rearranged k l)
    (hvalue : Rearranged v w) :
    Rearranged (.mapping (before ++ (k, v) :: after)) (.mapping (before ++ (l, w) :: after))

namespace ValueTyping

variable {τ : ValueTyping}

theorem typeOf_sequence (vs : List Value) :
    τ.typeOf (.sequence vs) = .app τ.sequence [τ.shared (vs.map τ.typeOf)] := by
  rw [typeOf, typesOf_eq_map]

theorem typeOf_mapping (es : List (Value × Value)) :
    τ.typeOf (.mapping es) =
      .app τ.mapping
        [τ.shared ((es.map (·.1)).map τ.typeOf), τ.shared ((es.map (·.2)).map τ.typeOf)] := by
  rw [typeOf, entryTypesOf_eq_map]
  simp only [List.map_map, Function.comp_def]

theorem occurring_map_congr {f : α → Ty} {as bs : List α} (h : ∀ a, a ∈ as ↔ a ∈ bs) :
    occurring (as.map f) = occurring (bs.map f) := by
  ext t
  show (∃ u ∈ as.map f, _) ↔ ∃ u ∈ bs.map f, _
  simp only [List.mem_map, h]

theorem occurring_append_congr {t u : Ty} (h : t == u) (before after : List Ty) :
    occurring (before ++ t :: after) = occurring (before ++ u :: after) := by
  ext s
  show (∃ r ∈ before ++ t :: after, _) ↔ ∃ r ∈ before ++ u :: after, _
  simp only [List.mem_append, List.mem_cons, or_and_right, exists_or, exists_eq_left,
    BEq.congr_left h]

/-- A rearranged value has the same type. -/
theorem typeOf_rearranged {v w : Value} (h : v.Rearranged w) : τ.typeOf v == τ.typeOf w := by
  induction h with
  | refl v => exact BEq.rfl
  | trans _ _ huv hvw => exact BEq.trans huv hvw
  | sequence h =>
    have helement := shared_congr (τ := τ) (occurring_map_congr (f := τ.typeOf) h)
    simp only [typeOf_sequence, Ty.app_beq_app, List.cons_beq_cons, helement, Bool.true_and]
    rfl
  | mapping hkeys hvalues =>
    have hkey := shared_congr (τ := τ) (occurring_map_congr (f := τ.typeOf) hkeys)
    have hvalue := shared_congr (τ := τ) (occurring_map_congr (f := τ.typeOf) hvalues)
    simp only [typeOf_mapping, Ty.app_beq_app, List.cons_beq_cons, hkey, hvalue, Bool.true_and]
    rfl
  | item before after _ ih =>
    have helement := shared_congr (τ := τ)
      (occurring_append_congr ih (before.map τ.typeOf) (after.map τ.typeOf))
    simp only [typeOf_sequence, List.map_append, List.map_cons, Ty.app_beq_app,
      List.cons_beq_cons, helement, Bool.true_and]
    rfl
  | entry before after _ _ hkey hvalue =>
    have hkey := shared_congr (τ := τ) (occurring_append_congr hkey
      ((before.map (·.1)).map τ.typeOf) ((after.map (·.1)).map τ.typeOf))
    have hvalue := shared_congr (τ := τ) (occurring_append_congr hvalue
      ((before.map (·.2)).map τ.typeOf) ((after.map (·.2)).map τ.typeOf))
    simp only [typeOf_mapping, List.map_append, List.map_cons, Ty.app_beq_app,
      List.cons_beq_cons, hkey, hvalue, Bool.true_and]
    rfl

/-! ## Integers -/

theorem fits32_iff {n : Int64} :
    fits32 n = true ↔ -2147483648 ≤ n.toInt ∧ n.toInt ≤ 2147483647 := by
  rw [fits32, Bool.and_eq_true, decide_eq_true_eq, decide_eq_true_eq]

section Integers

variable {ns : List Int64}

/-- Integers that fit, or any integers where one type stands for all, share the narrow type. -/
theorem shared_integers_narrow (hne : ns ≠ []) (hforeign : τ.integer.isHost = false)
    (h : τ.integer = τ.wideInteger ∨ ∀ n ∈ ns, fits32 n = true) :
    τ.shared ((ns.map .integer).map τ.typeOf) == τ.integer := by
  have hall : ∀ n ∈ ns, τ.typeOf (.integer n) = τ.integer := by
    intro n hn
    rw [typeOf]
    rcases h with hsame | hfit
    · rw [← hsame, ite_self]
    · rw [if_pos (hfit n hn)]
  refine SharedOf.shared_beq (.alike hforeign fun u => ⟨?_, fun hu => ?_⟩)
  · rintro ⟨t, ht, htu⟩
    obtain ⟨v, hv, rfl⟩ := List.mem_map.1 ht
    obtain ⟨n, hn, rfl⟩ := List.mem_map.1 hv
    rwa [hall n hn] at htu
  · obtain ⟨n, hn⟩ := List.exists_mem_of_ne_nil ns hne
    exact ⟨_, List.mem_map_of_mem (List.mem_map_of_mem hn), by rwa [hall n hn]⟩

/-- An integer that does not fit makes all of them wide. -/
theorem shared_integers_wide (hforeign : τ.integer.isHost = false ∧ τ.wideInteger.isHost = false)
    (hne : (τ.integer == τ.wideInteger) = false) (h : ∃ n ∈ ns, fits32 n = false) :
    τ.shared ((ns.map .integer).map τ.typeOf) == τ.wideInteger := by
  obtain ⟨big, hbig, hbigwide⟩ := h
  have hwide : τ.wideInteger ∈ occurring ((ns.map .integer).map τ.typeOf) := by
    refine ⟨_, List.mem_map_of_mem (List.mem_map_of_mem hbig), ?_⟩
    rw [typeOf, if_neg (by rw [hbigwide]; exact Bool.false_ne_true)]
    exact BEq.rfl
  have htypes : ∀ t ∈ occurring ((ns.map .integer).map τ.typeOf),
      τ.integer == t ∨ τ.wideInteger == t := by
    rintro t ⟨u, hu, hut⟩
    obtain ⟨v, hv, rfl⟩ := List.mem_map.1 hu
    obtain ⟨n, -, rfl⟩ := List.mem_map.1 hv
    rw [typeOf] at hut
    split at hut
    · exact .inl hut
    · exact .inr hut
  by_cases hnarrow : τ.integer ∈ occurring ((ns.map .integer).map τ.typeOf)
  · refine SharedOf.shared_beq (.integers ?_ ⟨_, hnarrow, _, hwide, hne⟩ ?_ BEq.rfl)
    · intro t ht
      rcases htypes t ht with hint | hint
      · exact (Ty.isHost_congr hint).symm.trans hforeign.1
      · exact (Ty.isHost_congr hint).symm.trans hforeign.2
    · intro t ht
      rcases htypes t ht with hint | hint
      · rw [← isInteger_congr hint, isInteger, BEq.rfl, Bool.true_or]
      · rw [← isInteger_congr hint, isInteger_wideInteger]
  · refine SharedOf.shared_beq (.alike hforeign.2 fun u => ⟨fun hu => ?_, fun hu => ?_⟩)
    · refine (htypes u hu).resolve_left fun hint => hnarrow ?_
      obtain ⟨t, ht, htu⟩ := hu
      exact ⟨t, ht, BEq.trans htu (BEq.symm hint)⟩
    · obtain ⟨t, ht, htw⟩ := hwide
      exact ⟨t, ht, BEq.trans htw hu⟩

end Integers

/-! ## Containers -/

/-- A container is an application to a type for its elements, or one for its keys and one for its
values.  Each is told by the rule `SharedOf` from the types that occur, so that rearranged values
have equal types.  A sequence of integers is one of narrow integers exactly if all of them fit, or
one type stands for all integers, and one of wide integers otherwise. -/
theorem typeOf_containers (names : ValueTypeNames) :
    let τ := ofNames names
    (∀ items, ∃ element, τ.typeOf (.sequence items) = .app τ.sequence [element] ∧
      ∀ t, τ.SharedOf (occurring (items.map τ.typeOf)) t ↔ element == t) ∧
    (∀ entries, ∃ key value, τ.typeOf (.mapping entries) = .app τ.mapping [key, value] ∧
      (∀ t, τ.SharedOf (occurring ((entries.map (·.1)).map τ.typeOf)) t ↔ key == t) ∧
      ∀ t, τ.SharedOf (occurring ((entries.map (·.2)).map τ.typeOf)) t ↔ value == t) ∧
    (∀ v w : Value, v.Rearranged w → τ.typeOf v == τ.typeOf w) ∧
    ∀ ns : List Int64, ns ≠ [] →
      let small := τ.integer = τ.wideInteger ∨
        ∀ n ∈ ns, -2147483648 ≤ n.toInt ∧ n.toInt ≤ 2147483647
      (τ.typeOf (.sequence (ns.map .integer)) = .app τ.sequence [τ.integer] ↔ small) ∧
        (¬ small → τ.typeOf (.sequence (ns.map .integer)) = .app τ.sequence [τ.wideInteger]) := by
  intro τ
  refine ⟨fun items => ⟨_, typeOf_sequence items, fun t => sharedOf_iff⟩,
    fun entries => ⟨_, _, typeOf_mapping entries, fun t => sharedOf_iff, fun t => sharedOf_iff⟩,
    fun v w => typeOf_rearranged, fun ns hne => ?_⟩
  -- The types that the names stand for are definitions, where equality is as fine as it gets.
  have hnarrow : ∀ {t : Ty}, t == τ.integer → t = τ.integer := fun h =>
    (Ty.eq_of_beq (BEq.symm h) rfl).symm
  have hwide : ∀ {t : Ty}, t == τ.wideInteger → t = τ.wideInteger := fun h =>
    (Ty.eq_of_beq (BEq.symm h) rfl).symm
  simp only [← fits32_iff]
  have hwhen : ¬ (τ.integer = τ.wideInteger ∨ ∀ n ∈ ns, fits32 n = true) →
      τ.integer ≠ τ.wideInteger ∧
        τ.typeOf (.sequence (ns.map .integer)) = .app τ.sequence [τ.wideInteger] := by
    intro h
    obtain ⟨hdiffer, hbig⟩ := not_or.1 h
    have hne : (τ.integer == τ.wideInteger) = false :=
      Bool.eq_false_iff.2 fun heq => hdiffer (hwide heq)
    have hbig : ∃ n ∈ ns, fits32 n = false := by simpa using hbig
    rw [typeOf_sequence, hwide (shared_integers_wide ⟨rfl, rfl⟩ hne hbig)]
    exact ⟨hdiffer, rfl⟩
  refine ⟨⟨fun heq => ?_, fun hsmall => ?_⟩, fun h => (hwhen h).2⟩
  · by_contra h
    obtain ⟨hdiffer, hsequence⟩ := hwhen h
    rw [hsequence] at heq
    exact hdiffer (List.cons.inj (Ty.app.inj heq).2).1.symm
  · rw [typeOf_sequence, hnarrow (shared_integers_narrow hne rfl hsmall)]

/-- A sequence inside another one is turned around, with one of its elements repeated; and a
sequence holds one integer that does not fit. -/
theorem typeOf_containers_nested :
    let τ := ofNames {}
    let v (items : List Value) : Value := .sequence [.sequence items, .null]
    (v [.integer 1, .text "a"]).Rearranged (v [.text "a", .integer 1, .text "a"]) ∧
      (τ.typeOf (v [.integer 1, .text "a"]) == τ.typeOf (v [.text "a", .integer 1, .text "a"])) ∧
      [1, 4294967296] ≠ ([] : List Int64) ∧
      τ.typeOf (.sequence [.integer 1, .integer 4294967296]) = .app τ.sequence [τ.wideInteger] := by
  intro τ v
  obtain ⟨-, -, hrearranged, hintegers⟩ := typeOf_containers {}
  have h : (v [.integer 1, .text "a"]).Rearranged (v [.text "a", .integer 1, .text "a"]) := by
    refine .item [] [.null] (.sequence fun u => ?_)
    simp only [List.mem_cons, List.not_mem_nil, or_false]
    exact ⟨fun h => h.elim (.inr ∘ .inl) .inl, fun h => h.elim .inr (·.elim .inl .inr)⟩
  have hne : [1, 4294967296] ≠ ([] : List Int64) := List.cons_ne_nil _ _
  refine ⟨h, hrearranged _ _ h, hne, (hintegers _ hne).2 ?_⟩
  rintro (hsame | hfit)
  · have hdiffer : (τ.integer == τ.wideInteger) = false := by decide
    rw [hsame, BEq.rfl] at hdiffer
    cases hdiffer
  · exact absurd (hfit 4294967296 (List.mem_cons_of_mem 1 List.mem_cons_self)).2 (by decide)

end ValueTyping

end LateBinding
