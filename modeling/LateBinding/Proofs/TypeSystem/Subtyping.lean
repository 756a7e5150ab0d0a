import LateBinding.Proofs.Hierarchy
import LateBinding.Proofs.Traversal
import LateBinding.Proofs.TypeSystem.History

/-!
# Subtyping as reachability

A type is a subtype of a definition if a path of parents leads up from the type to a type made from
the definition (`TypeSystem.PathUp`).  The subtype test is also a traversal that looks for the
definition and ends where it meets it (`TypeSystem.SubtypeTest`).  On every type system, cycles
included, `TypeSystem.implements` agrees with both (`TypeSystem.implements_iff_path`).
-/

namespace LateBinding

namespace TypeSystem

variable {ts : TypeSystem}

/-! ## Traversals of a type system -/

theorem nodup_namesFrom (ts : TypeSystem) (n : TypeName) : (ts.namesFrom n).Nodup :=
  nodup_eraseDups _

/-- A traversal that starts at a type ends in one way, with the first result along the lineage. -/
theorem traversal_iff_lineage {visit : List TypeName → TypeName → Verdict β}
    {f : TypeName → Option β} (hjudges : Judges visit f) (ty : Ty) (r : Option β) :
    (∃ seen, Traversal Ty.name? ts.parents visit [] [ty] r seen) ↔
      r = ty.name?.bind fun n => (ts.lineage n).findSome? f := by
  have hstart : ∀ n, (∀ a ∈ [ty].filterMap Ty.name?, a ∈ ts.namesFrom n) →
      ((∃ seen, Traversal Ty.name? ts.parents visit [] [ty] r seen) ↔
        r = (preorder ts.parentNames (ts.namesFrom n) ([ty].filterMap Ty.name?)).findSome? f) :=
    fun n hn => traversal_iff hjudges (fun _ _ => filterMap_parents)
      (fun _ _ => mem_namesFrom_of_mem_parentNames n) (nodup_namesFrom ts n) [ty] hn r
  cases hname : ty.name? with
  | none =>
    rw [List.filterMap_cons_none hname] at hstart
    refine (hstart default (List.forall_mem_nil _)).trans ?_
    rw [List.filterMap_nil, preorder_nil]
    rfl
  | some n =>
    rw [List.filterMap_cons_some hname] at hstart
    exact hstart n (List.forall_mem_singleton.2 (mem_namesFrom_self ts n))

/-! ## The subtype test -/

/-- What the subtype test does at a definition.  It knows the target even among what it has seen. -/
def testAt (target : TypeName) (seen : List TypeName) (n : TypeName) : Verdict Unit :=
  if n = target then .stop ()
  else if n ∈ seen then .pass
  else .enter

theorem judges_testAt (target : TypeName) :
    Judges (testAt target) fun n => if n = target then some () else none where
  stop _ hfound := by
    unfold testAt
    split at hfound
    · rename_i htarget
      rw [if_pos htarget]
    · cases hfound
  enter hnew hnone := by
    unfold testAt
    split at hnone
    · cases hnone
    · rename_i htarget
      rw [if_neg htarget, if_neg hnew]
  pass hold hnone := by
    unfold testAt
    split at hnone
    · cases hnone
    · rename_i htarget
      rw [if_neg htarget, if_pos hold]

/-- The subtype test as a traversal that keeps the definitions it has seen: it answers yes where it
stops, and no at its end. -/
def SubtypeTest (ts : TypeSystem) (ty : Ty) (target : TypeName) (answer : Bool) : Prop :=
  ∃ r seen, Traversal Ty.name? ts.parents (testAt target) [] [ty] r seen ∧ answer = r.isSome

theorem isSome_findSome?_target (names : List TypeName) (target : TypeName) :
    (names.findSome? fun n => if n = target then some () else none).isSome =
      names.contains target := by
  rw [Bool.eq_iff_iff, List.findSome?_isSome_iff, List.contains_iff_mem]
  constructor
  · rintro ⟨n, hn, hsome⟩
    split at hsome
    · rename_i htarget
      rwa [← htarget]
    · cases hsome
  · exact fun hmem => ⟨target, hmem, by rw [if_pos rfl]; rfl⟩

theorem subtypeTest_iff (ts : TypeSystem) (ty : Ty) (target : TypeName) (answer : Bool) :
    ts.SubtypeTest ty target answer ↔ answer = ts.implements ty target := by
  have hresult : ∀ r, (∃ seen, Traversal Ty.name? ts.parents (testAt target) [] [ty] r seen) ↔ _ :=
    traversal_iff_lineage (judges_testAt target) ty
  have himplements : (ty.name?.bind fun n => (ts.lineage n).findSome? fun n =>
      if n = target then some () else none).isSome = ts.implements ty target := by
    unfold implements
    cases ty.name? with
    | none => rfl
    | some n => exact isSome_findSome?_target (ts.lineage n) target
  constructor
  · rintro ⟨r, seen, htrav, rfl⟩
    rw [(hresult r).1 ⟨seen, htrav⟩, himplements]
  · rintro rfl
    obtain ⟨seen, htrav⟩ := (hresult _).2 rfl
    exact ⟨_, seen, htrav, himplements.symm⟩

/-! ## Paths of types -/

/-- One step up: `u` is an interface that `t` declares, or the base type of `t`. -/
def StepUp (ts : TypeSystem) (t u : Ty) : Prop := u ∈ ts.interfaces t ∨ ts.base? t = some u

/-- A path of steps up from a type, all of its types made from definitions, that ends at a type made
from the definition `target`. -/
structure PathUp (ts : TypeSystem) (ty : Ty) (target : TypeName) (path : List Ty) : Prop where
  starts : path.head? = some ty
  steps : path.IsChain ts.StepUp
  named : ∀ t ∈ path, t.name?.isSome
  ends : path.getLast?.bind Ty.name? = some target

theorem mem_parents_iff {t u : Ty} : u ∈ ts.parents t ↔ ts.StepUp t u := by
  rw [parents, StepUp, List.mem_append, Option.mem_toList]

theorem implements_iff_reaches {ty : Ty} {target : TypeName} :
    ts.implements ty target ↔ ∃ n, ty.name? = some n ∧ Reaches ts.parentNames n target := by
  simp only [implements, Option.any_eq_true, List.contains_iff_mem, mem_lineage_iff]

theorem exists_pathUp {n target : TypeName} (h : Reaches ts.parentNames n target) {ty : Ty}
    (hn : ty.name? = some n) : ∃ path, ts.PathUp ty target path := by
  induction h using Relation.ReflTransGen.head_induction_on generalizing ty with
  | refl =>
    refine ⟨[ty], rfl, List.isChain_singleton ty, List.forall_mem_singleton.2 ?_, hn⟩
    exact Option.isSome_of_eq_some hn
  | head hc _ ih =>
    obtain ⟨t, ht, htc⟩ := (mem_parentNames_iff hn).1 hc
    obtain ⟨path, hpath⟩ := ih htc
    cases path with
    | nil => cases hpath.starts
    | cons u rest =>
      obtain rfl := Option.some.inj hpath.starts
      refine ⟨ty :: u :: rest, rfl, List.isChain_cons_cons.2 ⟨mem_parents_iff.1 ht, hpath.steps⟩,
        List.forall_mem_cons.2 ⟨?_, hpath.named⟩, ?_⟩
      · exact Option.isSome_of_eq_some hn
      · rw [List.getLast?_cons_cons]
        exact hpath.ends

theorem PathUp.reaches {ty : Ty} {target : TypeName} {path : List Ty}
    (h : ts.PathUp ty target path) :
    ∃ n, ty.name? = some n ∧ Reaches ts.parentNames n target := by
  induction path generalizing ty with
  | nil => cases h.starts
  | cons t rest ih =>
    obtain rfl := Option.some.inj h.starts
    cases rest with
    | nil => exact ⟨target, h.ends, .refl⟩
    | cons u rest =>
      obtain ⟨hstep, hsteps⟩ := List.isChain_cons_cons.1 h.steps
      obtain ⟨ht, hnamed⟩ := List.forall_mem_cons.1 h.named
      obtain ⟨n, hn⟩ := Option.isSome_iff_exists.1 ht
      have hends := h.ends
      rw [List.getLast?_cons_cons] at hends
      obtain ⟨c, hc, hreaches⟩ := ih ⟨rfl, hsteps, hnamed, hends⟩
      have hparent : c ∈ ts.parentNames n :=
        (mem_parentNames_iff hn).2 ⟨u, mem_parents_iff.2 hstep, hc⟩
      exact ⟨n, hn, .head hparent hreaches⟩

theorem implements_iff_exists_pathUp {ty : Ty} {target : TypeName} :
    ts.implements ty target ↔ ∃ path, ts.PathUp ty target path := by
  refine implements_iff_reaches.trans ⟨?_, ?_⟩
  · rintro ⟨n, hn, hreaches⟩
    exact exists_pathUp hreaches hn
  · rintro ⟨path, hpath⟩
    exact hpath.reaches

/-- The subtype test on any type system, any type and any name.  The traversal ends in one way, and
its answer is yes exactly if the type is made from a definition and a path of interfaces and base
types, all made from definitions, leads from it to a type with the name. -/
theorem implements_iff_path (ts : TypeSystem) (ty : Ty) (target : TypeName) :
    (∀ answer, ts.SubtypeTest ty target answer ↔ answer = ts.implements ty target) ∧
      (ts.implements ty target = true ↔
        ty.name?.isSome ∧ ∃ path, ts.PathUp ty target path) := by
  refine ⟨subtypeTest_iff ts ty target, implements_iff_reaches.trans ⟨?_, ?_⟩⟩
  · rintro ⟨n, hn, hreaches⟩
    exact ⟨Option.isSome_of_eq_some hn, exists_pathUp hreaches hn⟩
  · rintro ⟨-, path, hpath⟩
    exact hpath.reaches

end TypeSystem

end LateBinding
