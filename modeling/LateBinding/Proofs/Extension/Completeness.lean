import LateBinding.Proofs.Extension.Recursion
import LateBinding.Proofs.TypeSystem.Subtyping

/-!
# Lookup finds what subtyping reaches

The lookup of extension members is a walk through the hierarchy that keeps the definitions it has
seen and stops at the first one with candidates (`ExtensionIndex.Walk`).  The subtype test is a
traversal of its own.  Whatever the hierarchy looks like, both come to the same definitions: the
lookup succeeds above the receiver type exactly if the type implements some definition with
candidates (`ExtensionIndex.resolveOnce_complete`).
-/

namespace LateBinding

namespace ExtensionIndex

variable {ix : ExtensionIndex} {ts : TypeSystem} {ty : Ty} {member : String}

/-! ## The walk -/

/-- What the walk does at a definition.  It passes by what it has seen without a second look. -/
def walkAt (ix : ExtensionIndex) (member : String) (seen : List TypeName) (n : TypeName) :
    Verdict (List Method) :=
  if n ∈ seen then .pass
  else match ix.lookup? n member with
    | some methods => .stop methods
    | none => .enter

/-- The walk from a type and its result: the candidates of the first definition that has any. -/
def Walk (ix : ExtensionIndex) (ts : TypeSystem) (ty : Ty) (member : String)
    (found : Option (List Method)) : Prop :=
  ∃ seen, Traversal Ty.name? ts.parents (ix.walkAt member) [] [ty] found seen

theorem judges_walkAt (ix : ExtensionIndex) (member : String) :
    Judges (ix.walkAt member) (ix.lookup? · member) where
  stop hnew hfound := by rw [walkAt, if_neg hnew, hfound]
  enter hnew hnone := by rw [walkAt, if_neg hnew, hnone]
  pass hold _ := by rw [walkAt, if_pos hold]

theorem walk_iff {n : TypeName} (hn : ty.name? = some n) (found : Option (List Method)) :
    ix.Walk ts ty member found ↔ found = (ts.lineage n).findSome? (ix.lookup? · member) := by
  refine (TypeSystem.traversal_iff_lineage (judges_walkAt ix member) ty found).trans ?_
  rw [hn]
  rfl

/-! ## What the walk comes to -/

/-- A result of the walk belongs to a definition that the type implements. -/
theorem Walk.exists_implements (hty : ty.name?.isSome) {methods : List Method}
    (h : ix.Walk ts ty member (some methods)) :
    ∃ k, ts.implements ty k ∧ ix.lookup? k member = some methods := by
  obtain ⟨n, hn⟩ := Option.isSome_iff_exists.1 hty
  obtain ⟨k, hk, hlookup⟩ := List.exists_of_findSome?_eq_some ((walk_iff hn _).1 h).symm
  exact ⟨k, (TypeSystem.implements_iff_mem_lineage hn).2 hk, hlookup⟩

/-- The walk has no result exactly if the type implements no definition with candidates. -/
theorem walk_none_iff (hty : ty.name?.isSome) :
    ix.Walk ts ty member none ↔ ∀ k, ts.implements ty k → ix.lookup? k member = none := by
  obtain ⟨n, hn⟩ := Option.isSome_iff_exists.1 hty
  simp only [walk_iff hn, TypeSystem.implements_iff_mem_lineage hn]
  exact eq_comm.trans List.findSome?_eq_none_iff

/-- The candidates for the universal object type. -/
def universal? (ix : ExtensionIndex) (member : String) : Option (List Method) :=
  ix.object.name?.bind (ix.lookup? · member)

/-- The answer to a lookup that came to these candidates, or to none. -/
def lookupAnswer (ty : Ty) (member : String) :
    Option (List Method) → Except ResolutionError (List Method)
  | some methods => .ok methods
  | none => .error (.noExtension ty member)

theorem answer_resolveOnce_of_walk (hty : ty.name?.isSome) {found : Option (List Method)}
    (h : ix.Walk ts ty member found) :
    answer (ix.resolveOnce ts ty member) .empty =
      lookupAnswer ty member (found.or (ix.universal? member)) := by
  obtain ⟨n, hn⟩ := Option.isSome_iff_exists.1 hty
  rw [answer_resolveOnce_empty, resolve, hn, (walk_iff hn found).1 h]
  rfl

/-- Lookup with nothing remembered, on any hierarchy.  The walk ends in one way, and the answer is
what it came to, or else the candidates for the universal object type.  If the type implements a
definition with candidates, the answer is the candidates of such a definition.  If it implements
none, the answer is the candidates for the object type, or the failure for the type itself. -/
theorem resolveOnce_complete (ix : ExtensionIndex) (ts : TypeSystem) (ty : Ty) (member : String)
    (hty : ty.name?.isSome) :
    let outcome := answer (ix.resolveOnce ts ty member) .empty
    (∃ found, (∀ r, ix.Walk ts ty member r ↔ r = found) ∧
        outcome = lookupAnswer ty member (found.or (ix.universal? member))) ∧
      ((∃ k, ts.implements ty k ∧ (ix.lookup? k member).isSome) →
        ∃ k methods, ts.implements ty k ∧ ix.lookup? k member = some methods ∧
          outcome = .ok methods) ∧
      ((∀ k, ts.implements ty k → ix.lookup? k member = none) →
        outcome = lookupAnswer ty member (ix.universal? member)) := by
  intro outcome
  obtain ⟨n, hn⟩ := Option.isSome_iff_exists.1 hty
  have hends : ∀ r, ix.Walk ts ty member r ↔ r = _ := walk_iff hn
  refine ⟨⟨_, hends, answer_resolveOnce_of_walk hty ((hends _).2 rfl)⟩, ?_, fun hnone => ?_⟩
  · rintro ⟨k, hk, hlookup⟩
    cases hfound : (ts.lineage n).findSome? (ix.lookup? · member) with
    | none =>
      have hnothing := (walk_none_iff hty).1 ((hends none).2 hfound.symm) k hk
      rw [hnothing] at hlookup
      cases hlookup
    | some methods =>
      have hwalk : ix.Walk ts ty member (some methods) := (hends _).2 hfound.symm
      obtain ⟨k, hk, hlookup⟩ := hwalk.exists_implements hty
      exact ⟨k, methods, hk, hlookup, answer_resolveOnce_of_walk hty hwalk⟩
  · exact answer_resolveOnce_of_walk hty ((walk_none_iff hty).2 hnone)

/-- Interfaces that lead back to the receiver type and both to a name without a definition, which
has the candidates. -/
theorem resolveOnce_complete_cycle :
    let a : Ty := .con ⟨"Demo", "A"⟩
    let loose : TypeName := ⟨"Demo", "Loose"⟩
    let go : Method := { name := "Go" }
    let print : Method := { name := "Print" }
    let ts := [
      { name := ⟨"Demo", "A"⟩, interfaces := [.con ⟨"Demo", "B"⟩, .con ⟨"Demo", "C"⟩] },
      { name := ⟨"Demo", "B"⟩, interfaces := [a, .con loose] },
      { name := ⟨"Demo", "C"⟩, interfaces := [.con loose], base := some a }].foldl
        TypeSystem.define {}
    let ix := (({ object := .object } : ExtensionIndex).register loose "Go" go).register
      ⟨"System", "Object"⟩ "Print" print
    a.name?.isSome ∧ ts.types.contains loose = false ∧
      (∃ k methods, ts.implements a k ∧ ix.lookup? k "Go" = some methods ∧
        answer (ix.resolveOnce ts a "Go") .empty = .ok methods) ∧
      answer (ix.resolveOnce ts a "Print") .empty = .ok [print] ∧
      answer (ix.resolveOnce ts a "Stop") .empty = .error (.noExtension a "Stop") := by
  intro a loose go print ts ix
  have hlineage : ts.lineage ⟨"Demo", "A"⟩ =
      [⟨"Demo", "A"⟩, ⟨"Demo", "B"⟩, loose, ⟨"Demo", "C"⟩] := by
    simp only [ts, a, loose, TypeSystem.lineage_eq_within]
    rfl
  have himplements : ∀ k, ts.implements a k ↔ k ∈ ts.lineage ⟨"Demo", "A"⟩ :=
    fun k => TypeSystem.implements_iff_mem_lineage rfl
  have hnone : ∀ member, member = "Print" ∨ member = "Stop" →
      ∀ k, ts.implements a k → ix.lookup? k member = none := by
    intro member hmember k hk
    rw [himplements, hlineage] at hk
    rcases hmember with rfl | rfl <;> revert k <;> decide
  obtain ⟨-, hgo, -⟩ := resolveOnce_complete ix ts a "Go" rfl
  obtain ⟨-, -, hprint⟩ := resolveOnce_complete ix ts a "Print" rfl
  obtain ⟨-, -, hstop⟩ := resolveOnce_complete ix ts a "Stop" rfl
  refine ⟨rfl, rfl, hgo ⟨loose, (himplements loose).2 ?_, rfl⟩, ?_, ?_⟩
  · rw [hlineage]
    decide
  · exact hprint (hnone _ (.inl rfl))
  · exact hstop (hnone _ (.inr rfl))

end ExtensionIndex

end LateBinding
