import LateBinding.Extension.Lookup
import LateBinding.Proofs.Hierarchy
import LateBinding.Proofs.OnceMap.Demand

/-!
# Lookup as a plain recursion

`ExtensionIndex.Finds` is the recursion that a reader has in mind: the candidates of the type
itself, or else those that the same recursion finds on the first of its parents to have any.  It
does not know where it has been, while the lineage visits every definition once.  Without cycles
both agree (`ExtensionIndex.resolveOnce_eq_recursion`): a definition is visited again only after it
was found to have no candidates anywhere above it.
-/

namespace LateBinding

namespace ExtensionIndex

variable (ix : ExtensionIndex) (ts : TypeSystem) (member : String)

/-- How the recursion ends on a type.  It has no result if the type has no name; it has the type's
own candidates, or those of the first parent in order with a result, or none. -/
inductive Finds : Ty → Option (List Method) → Prop
  | nameless {ty : Ty} (hn : ty.name? = none) : Finds ty none
  | own {ty : Ty} {n : TypeName} {methods : List Method} (hn : ty.name? = some n)
      (hown : ix.lookup? n member = some methods) : Finds ty (some methods)
  | inherited {ty p : Ty} {n : TypeName} {before rest : List Ty} {methods : List Method}
      (hn : ty.name? = some n) (hown : ix.lookup? n member = none)
      (hparents : ts.parents ty = before ++ p :: rest) (hbefore : ∀ t ∈ before, Finds t none)
      (hp : Finds p (some methods)) : Finds ty (some methods)
  | nothing {ty : Ty} {n : TypeName} (hn : ty.name? = some n)
      (hown : ix.lookup? n member = none) (hparents : ∀ t ∈ ts.parents ty, Finds t none) :
      Finds ty none

/-- No definition above `n`, itself included, has candidates. -/
def Barren (n : TypeName) : Prop := ∀ k, Reaches ts.parentNames n k → ix.lookup? k member = none

variable {ix ts member}

theorem Barren.parent {n c : TypeName} (h : Barren ix ts member n) (hc : c ∈ ts.parentNames n) :
    Barren ix ts member c := fun k hk => h k (.head hc hk)

/-! ## One answer at most -/

/-- Two ways to cut a list at a place differ in which place comes first. -/
theorem append_cons_cases {before before' rest rest' : List α} {p p' : α}
    (h : before ++ p :: rest = before' ++ p' :: rest') :
    p = p' ∨ p ∈ before' ∨ p' ∈ before := by
  rcases List.append_eq_append_iff.1 h with ⟨mid, hbefore, hmid⟩ | ⟨mid, hbefore, hmid⟩
  · cases mid with
    | nil => exact .inl (List.cons.inj hmid).1
    | cons a as =>
      obtain ⟨rfl, -⟩ := List.cons.inj hmid
      exact .inr (.inl (by rw [hbefore]; exact List.mem_append_right _ List.mem_cons_self))
  · cases mid with
    | nil => exact .inl (List.cons.inj hmid).1.symm
    | cons a as =>
      obtain ⟨rfl, -⟩ := List.cons.inj hmid
      exact .inr (.inr (by rw [hbefore]; exact List.mem_append_right _ List.mem_cons_self))

theorem Finds.unique {ty : Ty} {r r' : Option (List Method)} (h : Finds ix ts member ty r)
    (h' : Finds ix ts member ty r') : r = r' := by
  induction h generalizing r' with
  | nameless hn => cases h' <;> simp_all
  | own hn hown => cases h' <;> simp_all
  | @inherited ty p n before rest methods hn hown hparents _ _ ihbefore ihp =>
    cases h' with
    | nameless hn' => simp_all
    | own hn' hown' => simp_all
    | @inherited _ p' _ before' _ methods' hn' hown' hparents' hbefore' hp' =>
      rcases append_cons_cases (hparents.symm.trans hparents') with rfl | hp | hp
      · exact ihp hp'
      · cases ihp (hbefore' p hp)
      · cases ihbefore p' hp hp'
    | nothing hn' hown' hparents' =>
      have hp : p ∈ ts.parents ty := by
        rw [hparents]
        exact List.mem_append_right _ List.mem_cons_self
      exact ihp (hparents' p hp)
  | @nothing ty n hn hown hparents ih =>
    cases h' with
    | nameless => rfl
    | own hn' hown' => simp_all
    | @inherited _ p _ _ _ _ hn' hown' hparents' hbefore' hp' =>
      have hp : p ∈ ts.parents ty := by
        rw [hparents']
        exact List.mem_append_right _ List.mem_cons_self
      exact ih p hp hp'
    | nothing => rfl

/-! ## Failure means that nothing is there -/

theorem Finds.barren {ty : Ty} {r : Option (List Method)} (h : Finds ix ts member ty r)
    (hr : r = none) {n : TypeName} (hn : ty.name? = some n) : Barren ix ts member n := by
  induction h generalizing n with
  | nameless hn' => rw [hn] at hn'; cases hn'
  | own => cases hr
  | inherited => cases hr
  | nothing hn' hown hparents ih =>
    rw [hn] at hn'
    cases hn'
    intro k hk
    rcases Relation.ReflTransGen.cases_head hk with rfl | ⟨c, hc, hck⟩
    · exact hown
    · obtain ⟨t, ht, htc⟩ := (TypeSystem.mem_parentNames_iff hn).1 hc
      exact ih t ht rfl htc k hck

/-- Where nothing is there the recursion fails, if it ends. -/
theorem Barren.finds {n : TypeName} (h : Barren ix ts member n)
    (hacc : Acc (fun c b => c ∈ ts.parentNames b) n) {ty : Ty} (hn : ty.name? = some n) :
    Finds ix ts member ty none := by
  induction hacc generalizing ty with
  | intro n _ ih =>
    refine .nothing hn (h n .refl) fun t ht => ?_
    cases htn : t.name? with
    | none => exact .nameless htn
    | some c =>
      have hc : c ∈ ts.parentNames n := (TypeSystem.mem_parentNames_iff hn).2 ⟨t, ht, htn⟩
      exact ih c hc (h.parent hc) htn

/-! ## The search along the lineage -/

/-- Every definition that has been visited above `n` is barren. -/
def VisitedBarren (ix : ExtensionIndex) (ts : TypeSystem) (member : String)
    (unvisited : List TypeName) (n : TypeName) : Prop :=
  ∀ k, Reaches ts.parentNames n k → k ∈ unvisited ∨ Barren ix ts member k

/-- The first success of a search through the preorder from `names`. -/
abbrev search (ix : ExtensionIndex) (ts : TypeSystem) (member : String)
    (unvisited names : List TypeName) : Option (List Method) :=
  (preorder ts.parentNames unvisited names).findSome? (ix.lookup? · member)

/-- After an unsuccessful visit to `n`, what it has visited is barren. -/
theorem VisitedBarren.after {unvisited : List TypeName} {n k : TypeName}
    (h : VisitedBarren ix ts member unvisited k) (hn : Barren ix ts member n) :
    VisitedBarren ix ts member
      (unvisited.diff (preorder ts.parentNames unvisited [n])) k := by
  intro l hl
  rcases h l hl with hmem | hbarren
  · by_cases hvisited : l ∈ preorder ts.parentNames unvisited [n]
    · obtain ⟨a, ha, hal⟩ := reaches_of_mem_preorder hvisited
      rw [List.mem_singleton] at ha
      subst ha
      exact .inr fun j hj => hn j (hal.trans hj)
    · exact .inl (List.mem_diff_of_mem hmem hvisited)
  · exact .inr hbarren

/-- What the recursion finds among several types in order. -/
def FindsFirst (ix : ExtensionIndex) (ts : TypeSystem) (member : String) (tys : List Ty) :
    Option (List Method) → Prop
  | some methods => ∃ before p rest, tys = before ++ p :: rest ∧
      (∀ t ∈ before, Finds ix ts member t none) ∧ Finds ix ts member p (some methods)
  | none => ∀ t ∈ tys, Finds ix ts member t none

theorem FindsFirst.cons {tys : List Ty} {r : Option (List Method)} {t : Ty}
    (ht : Finds ix ts member t none) (h : FindsFirst ix ts member tys r) :
    FindsFirst ix ts member (t :: tys) r := by
  cases r with
  | none => exact List.forall_mem_cons.2 ⟨ht, h⟩
  | some methods =>
    obtain ⟨before, p, rest, rfl, hbefore, hp⟩ := h
    exact ⟨t :: before, p, rest, rfl, List.forall_mem_cons.2 ⟨ht, hbefore⟩, hp⟩

theorem FindsFirst.finds {ty : Ty} {n : TypeName} {r : Option (List Method)}
    (hn : ty.name? = some n) (hown : ix.lookup? n member = none)
    (h : FindsFirst ix ts member (ts.parents ty) r) : Finds ix ts member ty r := by
  cases r with
  | none => exact .nothing hn hown h
  | some methods =>
    obtain ⟨before, p, rest, hparents, hbefore, hp⟩ := h
    exact .inherited hn hown hparents hbefore hp

/-- A search through several types in order, if it is right about each of them. -/
theorem findsFirst_search {tys : List Ty} {unvisited : List TypeName}
    (hsearch : ∀ t ∈ tys, ∀ n unvisited, t.name? = some n →
      VisitedBarren ix ts member unvisited n →
      Finds ix ts member t (search ix ts member unvisited [n]))
    (hvisited : ∀ t ∈ tys, ∀ n, t.name? = some n → VisitedBarren ix ts member unvisited n) :
    FindsFirst ix ts member tys (search ix ts member unvisited (tys.filterMap Ty.name?)) := by
  induction tys generalizing unvisited with
  | nil =>
    rw [List.filterMap_nil, search, preorder_nil]
    intro t ht
    cases ht
  | cons t tys ih =>
    have hrest := fun u (hu : u ∈ tys) => hsearch u (List.mem_cons_of_mem t hu)
    have hvrest := fun u (hu : u ∈ tys) => hvisited u (List.mem_cons_of_mem t hu)
    cases hn : t.name? with
    | none =>
      rw [List.filterMap_cons_none hn]
      exact (ih hrest hvrest).cons (.nameless hn)
    | some n =>
      have ht := hsearch t List.mem_cons_self n unvisited hn (hvisited t List.mem_cons_self n hn)
      have hsplit : search ix ts member unvisited (n :: tys.filterMap Ty.name?) =
          (search ix ts member unvisited [n]).or
            (search ix ts member (unvisited.diff (preorder ts.parentNames unvisited [n]))
              (tys.filterMap Ty.name?)) := by
        rw [← List.singleton_append, search, preorder_append, List.findSome?_append]
      rw [List.filterMap_cons_some hn, hsplit]
      cases hs : search ix ts member unvisited [n] with
      | some methods =>
        rw [hs] at ht
        exact ⟨[], t, tys, rfl, List.forall_mem_nil _, ht⟩
      | none =>
        rw [hs] at ht
        have hbarren := ht.barren rfl hn
        exact (ih hrest fun u hu k hk => (hvrest u hu k hk).after hbarren).cons ht

/-- A search from one definition ends as the recursion does. -/
theorem finds_search {n : TypeName} (hacc : Acc (fun c b => c ∈ ts.parentNames b) n)
    (hcycle : AcyclicFrom ts.parentNames n) {unvisited : List TypeName}
    (hvisited : VisitedBarren ix ts member unvisited n) {ty : Ty} (hn : ty.name? = some n) :
    Finds ix ts member ty (search ix ts member unvisited [n]) := by
  induction hacc generalizing unvisited ty with
  | intro n hacc ih =>
    by_cases hmem : n ∈ unvisited
    · rw [search, preorder_cons_of_mem hmem, List.append_nil, List.findSome?_cons]
      cases hown : ix.lookup? n member with
      | some methods => exact .own hn hown
      | none =>
        rw [← TypeSystem.filterMap_parents hn]
        refine (findsFirst_search ?_ ?_).finds hn hown
        · intro t ht c unvisited' htc hvisited'
          have hc : c ∈ ts.parentNames n := (TypeSystem.mem_parentNames_iff hn).2 ⟨t, ht, htc⟩
          exact ih c hc (fun b hb => hcycle b (.head hc hb)) hvisited' htc
        · -- The definition itself is visited now, but without cycles its parents do not reach it.
          intro t ht c htc k hk
          have hc : c ∈ ts.parentNames n := (TypeSystem.mem_parentNames_iff hn).2 ⟨t, ht, htc⟩
          rcases hvisited k (.head hc hk) with hkmem | hbarren
          · have hne : k ≠ n := by
              rintro rfl
              exact hcycle k .refl (.head' hc hk)
            exact .inl ((List.mem_erase_of_ne hne).2 hkmem)
          · exact .inr hbarren
    · rw [search, preorder_cons_of_notMem hmem, preorder_nil]
      have hbarren := (hvisited n .refl).resolve_left hmem
      exact hbarren.finds ⟨n, hacc⟩ hn

/-! ## Lookup -/

/-- The search for the members of a type, on demand of its definition and the member. -/
def demanded (ix : ExtensionIndex) (ts : TypeSystem) (ty : Ty) (n : TypeName) (member : String) :
    EStateM ResolutionError (ExtensionMemo × Unit) (List Method) :=
  OnceMap.demandApart (n, member) (liftExcept (ix.resolve ts ty member))

theorem answer_resolveOnce_eq_demanded {ty : Ty} {n : TypeName} (hn : ty.name? = some n)
    (memo : ExtensionMemo) :
    answer (ix.resolveOnce ts ty member) memo = answer (ix.demanded ts ty n member) (memo, ()) := by
  unfold resolveOnce
  simp only [hn]
  exact answer_run _ _ _

theorem after_resolveOnce_eq_demanded {ty : Ty} {n : TypeName} (hn : ty.name? = some n)
    (memo : ExtensionMemo) :
    after (ix.resolveOnce ts ty member) memo =
      (after (ix.demanded ts ty n member) (memo, ())).1 := by
  unfold resolveOnce
  simp only [hn]
  exact after_run _ _ _

/-- A type that is made from no definition has no extension members. -/
theorem answer_resolveOnce_of_none {ty : Ty} (hn : ty.name? = none) (memo : ExtensionMemo) :
    answer (ix.resolveOnce ts ty member) memo = ix.resolve ts ty member := by
  unfold resolveOnce resolve
  rw [hn]
  rfl

theorem after_resolveOnce_of_none {ty : Ty} (hn : ty.name? = none) (memo : ExtensionMemo) :
    after (ix.resolveOnce ts ty member) memo = memo := by
  unfold resolveOnce
  rw [hn]
  rfl

theorem answer_resolveOnce {ty : Ty} {n : TypeName} (hn : ty.name? = some n)
    (memo : ExtensionMemo) :
    answer (ix.resolveOnce ts ty member) memo =
      match memo.get? (n, member) with
      | some methods => .ok methods
      | none => ix.resolve ts ty member := by
  rw [answer_resolveOnce_eq_demanded hn]
  refine (OnceMap.answer_demandApart _ _).trans ?_
  rw [answer_liftExcept]
  cases memo.get? (n, member) <;> rfl

/-- A lookup with nothing remembered is a search. -/
theorem answer_resolveOnce_empty (ix : ExtensionIndex) (ts : TypeSystem) (ty : Ty)
    (member : String) : answer (ix.resolveOnce ts ty member) .empty = ix.resolve ts ty member := by
  cases hn : ty.name? with
  | none => exact answer_resolveOnce_of_none hn _
  | some n => rw [answer_resolveOnce hn, OnceMap.get?_empty]

/-- A lookup remembers its own success, and leaves every other key as it is. -/
theorem get?_after_resolveOnce {ty : Ty} {n : TypeName} (hn : ty.name? = some n)
    {memo : ExtensionMemo} (hmemo : memo.WellFormed) (key : TypeName × String) :
    (after (ix.resolveOnce ts ty member) memo).get? key =
      if (n, member) = key then (answer (ix.resolveOnce ts ty member) memo).toOption
      else memo.get? key := by
  rw [after_resolveOnce_eq_demanded hn, answer_resolveOnce_eq_demanded hn, demanded,
    OnceMap.get?_after_demandApart hmemo]
  simp only [beq_iff_eq]

/-- Lookup with nothing remembered, on a type above which there are no cycles.  The plain recursion
ends on it in one way, and the lookup answers with what the recursion finds, or else with the
candidates for the universal object type, or else with the failure. -/
theorem resolveOnce_eq_recursion (ix : ExtensionIndex) (ts : TypeSystem) (member : String) (ty : Ty)
    (n : TypeName) (hn : ty.name? = some n) (hcycle : AcyclicFrom ts.parentNames n) :
    ∃ r, (∀ r', Finds ix ts member ty r' ↔ r' = r) ∧
      answer (ix.resolveOnce ts ty member) .empty =
        match r.or (ix.object.name?.bind (ix.lookup? · member)) with
        | some methods => .ok methods
        | none => .error (.noExtension ty member) := by
  have hvisited : VisitedBarren ix ts member (ts.namesFrom n) n :=
    fun k hk => .inl (TypeSystem.mem_namesFrom_of_reaches hk)
  have hfinds := finds_search (TypeSystem.acc_parentNames hcycle) hcycle hvisited hn
  refine ⟨search ix ts member (ts.namesFrom n) [n], fun r' => ?_, ?_⟩
  · constructor
    · intro h
      exact h.unique hfinds
    · rintro rfl
      exact hfinds
  · rw [answer_resolveOnce_empty, resolve, hn]
    rfl

/-- A diamond: both interfaces of a class have the same third one behind them, the candidates are on
the second. -/
theorem resolveOnce_eq_recursion_diamond :
    let left : Ty := .con ⟨"Demo", "ILeft"⟩
    let right : Ty := .con ⟨"Demo", "IRight"⟩
    let top : Ty := .con ⟨"Demo", "ITop"⟩
    let m : Method := { name := "Go" }
    let ts := [
      { name := ⟨"Demo", "Shape"⟩, interfaces := [left, right], base := some .object },
      { name := ⟨"Demo", "ILeft"⟩, interfaces := [top] },
      { name := ⟨"Demo", "IRight"⟩, interfaces := [top] }].foldl TypeSystem.define {}
    let ix := ({ object := .object } : ExtensionIndex).register ⟨"Demo", "IRight"⟩ "Go" m
    AcyclicFrom ts.parentNames ⟨"Demo", "Shape"⟩ ∧
      answer (ix.resolveOnce ts (.con ⟨"Demo", "Shape"⟩) "Go") .empty = .ok [m] := by
  intro left right top m ts ix
  have hcycle : AcyclicFrom ts.parentNames ⟨"Demo", "Shape"⟩ := by
    refine acyclicFrom_of_rank (fun n => if n.name = "Shape" then 2
      else if n.name = "ILeft" ∨ n.name = "IRight" then 1 else 0) ?_ _
    exact TypeSystem.forall_mem_parentNames (by decide)
  have htop : Finds ix ts "Go" top none := .nothing rfl rfl (List.forall_mem_nil _)
  have hleft : Finds ix ts "Go" left none :=
    .nothing rfl rfl (List.forall_mem_singleton.2 htop)
  have hfinds : Finds ix ts "Go" (.con ⟨"Demo", "Shape"⟩) (some [m]) :=
    .inherited rfl rfl (show _ = [left] ++ right :: [.object] from rfl)
      (List.forall_mem_singleton.2 hleft) (.own rfl rfl)
  obtain ⟨r, hr, hanswer⟩ :=
    resolveOnce_eq_recursion ix ts "Go" (.con ⟨"Demo", "Shape"⟩) _ rfl hcycle
  rw [← (hr _).1 hfinds] at hanswer
  exact ⟨hcycle, hanswer⟩

end ExtensionIndex

end LateBinding
