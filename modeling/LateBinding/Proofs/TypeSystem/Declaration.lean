import LateBinding.Proofs.TypeName
import LateBinding.Proofs.TypeSystem.History

/-!
# What a declaration changes

A declared method is to join the methods of its owner and to change nothing else
(`TypeSystem.Declares`).  An owner without a definition is defined first, under the name that its
dotted spelling reads as.  This is the owner's own name unless that has a dot after its namespace; a
name with such a dot loses the method (`TypeSystem.declares_iff`).
-/

namespace LateBinding

namespace TypeSystem

/-- The type that a type's definition introduces. -/
def self? (ts : TypeSystem) (ty : Ty) : Option Ty := (ts.entry? ty).map (·.definition.self)

/-- The method joins the methods of its owner as the last one, types of other definitions keep
theirs, and every type that was defined before keeps its parents and its self type. -/
structure Declares (ts : TypeSystem) (owner : Ty) (s : Signature) : Prop where
  joins : (ts.declare owner s).2.methods owner = ts.methods owner ++ [(ts.declare owner s).1]
  methods : ∀ ty, ty.name? ≠ owner.name? → (ts.declare owner s).2.methods ty = ts.methods ty
  interfaces : ∀ ty, (ts.entry? ty).isSome →
    (ts.declare owner s).2.interfaces ty = ts.interfaces ty
  base : ∀ ty, (ts.entry? ty).isSome → (ts.declare owner s).2.base? ty = ts.base? ty
  self : ∀ ty, (ts.entry? ty).isSome → (ts.declare owner s).2.self? ty = ts.self? ty

variable {ts : TypeSystem} {owner : Ty} {n : TypeName}

theorem ownerName_of_name? (hn : owner.name? = some n) : ownerName owner = n := by
  rw [ownerName, hn, Option.getD_some]

/-! ## The definition of the owner -/

theorem contains_ensure_iff :
    (ts.ensure n).types.contains n ↔ ts.types.contains n ∨ '.' ∉ n.name.toList := by
  unfold ensure
  split
  · rename_i hdefined
    exact iff_of_true hdefined (.inl hdefined)
  · rename_i hmissing
    rw [← TypeName.parse_display_eq_self_iff, or_iff_right hmissing]
    simp only [OrderedMap.contains, define, OrderedMap.find?_alter]
    split
    · rename_i hname
      exact iff_of_true rfl (eq_of_beq hname)
    · rename_i hname
      exact iff_of_false hmissing fun h => hname (beq_iff_eq.2 h)

/-- Providing for the owner changes at most the definition of the name that its spelling reads as. -/
theorem definition_ensure_of_ne {k : TypeName}
    (hk : ts.types.contains n ∨ TypeName.parse n.display ≠ k) :
    ((ts.ensure n).types.find? k).map (·.definition) = (ts.types.find? k).map (·.definition) := by
  unfold ensure
  split
  · rfl
  · rename_i hmissing
    have hname : ¬ ((Definition.plain n.display).name == k) :=
      fun h => hk.resolve_left hmissing (eq_of_beq h)
    rw [definition_define, if_neg hname]

theorem definition_ensure_of_missing (hmissing : ¬ ts.types.contains n) :
    ((ts.ensure n).types.find? (.parse n.display)).map (·.definition) =
      some (.plain n.display) := by
  have hname : (Definition.plain n.display).name == TypeName.parse n.display := BEq.rfl
  rw [ensure, if_neg hmissing, definition_define, if_pos hname]

/-! ## Entries after a declaration -/

theorem methods_declare_of_ne {s : Signature} {ty : Ty} (hn : owner.name? = some n)
    (hty : ty.name? ≠ some n) : (ts.declare owner s).2.methods ty = ts.methods ty := by
  rw [← methods_ensure ts n ty]
  unfold methods entry?
  cases hk : ty.name? with
  | none => rfl
  | some k =>
    have hne : ¬ (n == k) := fun h => hty (by rw [hk, eq_of_beq h])
    simp only [declare, ownerName_of_name? hn, Option.bind_some, OrderedMap.find?_modify, hne,
      Bool.false_eq_true, if_false]

/-- The method joins its owner exactly if the owner is there once it has been provided for. -/
theorem methods_declare_owner {s : Signature} {ty : Ty} (hn : owner.name? = some n)
    (hty : ty.name? = some n) :
    (ts.declare owner s).2.methods ty =
      if (ts.ensure n).types.contains n then ts.methods ty ++ [ts.newMethod owner s]
      else ts.methods ty := by
  rw [← methods_ensure ts n ty]
  unfold methods entry?
  simp only [hty, declare, ownerName_of_name? hn, Option.bind_some, OrderedMap.find?_modify,
    BEq.rfl, if_true, OrderedMap.contains]
  cases (ts.ensure n).types.find? n <;> rfl

/-- The definition of a type that was defined before stays, unless a missing owner is taken for the
name of that type. -/
theorem definition_declare_of_defined (hn : owner.name? = some n) (s : Signature)
    (hplace : ts.types.contains n ∨ '.' ∉ n.name.toList) {ty : Ty} (hty : (ts.entry? ty).isSome) :
    (TypeSystem.entry? (ts.declare owner s).2 ty).map (·.definition) =
      (ts.entry? ty).map (·.definition) := by
  unfold entry? at hty ⊢
  cases hk : ty.name? with
  | none => rfl
  | some k =>
    rw [hk] at hty
    simp only [Option.bind_some] at hty ⊢
    rw [definition_declare, ownerName_of_name? hn]
    refine definition_ensure_of_ne ?_
    by_cases hdefined : ts.types.contains n
    · exact .inl hdefined
    · rw [TypeName.parse_display_of_dot_notMem (hplace.resolve_left hdefined)]
      refine .inr ?_
      rintro rfl
      exact hdefined hty

theorem declares_of_place (hn : owner.name? = some n) (s : Signature)
    (hplace : ts.types.contains n ∨ '.' ∉ n.name.toList) : ts.Declares owner s where
  joins := by
    rw [methods_declare_owner hn hn, if_pos (contains_ensure_iff.2 hplace)]
    rfl
  methods ty hty := methods_declare_of_ne hn (hn ▸ hty)
  interfaces ty hty := by
    have hinterfaces := congrArg (fun d : Option Definition => (d.map (·.interfaces)).getD [])
      (definition_declare_of_defined hn s hplace hty)
    simpa only [interfaces, Option.map_map, Function.comp_def] using hinterfaces
  base ty hty := by
    have hbase := congrArg (fun d : Option Definition => d.bind (·.base))
      (definition_declare_of_defined hn s hplace hty)
    simpa only [base?, Option.bind_map, Function.comp_def] using hbase
  self ty hty := by
    have hself := congrArg (Option.map Definition.self)
      (definition_declare_of_defined hn s hplace hty)
    simpa only [self?, Option.map_map, Function.comp_def] using hself

/-- An owner without a place loses the method. -/
theorem methods_declare_of_noPlace (hn : owner.name? = some n) (s : Signature)
    (hplace : ¬ (ts.types.contains n ∨ '.' ∉ n.name.toList)) (ty : Ty) :
    (ts.declare owner s).2.methods ty = ts.methods ty := by
  by_cases hty : ty.name? = some n
  · rw [methods_declare_owner hn hty, if_neg fun h => hplace (contains_ensure_iff.1 h)]
  · exact methods_declare_of_ne hn hty

/-- Declaring a method on any owner made from a definition, in any type system.  It adds the method
to the owner and changes nothing else exactly if the owner is defined or its name has no dot after
the namespace.  Otherwise no type gets the method, and the name that the owner's spelling reads as
has become a class without parents. -/
theorem declares_iff (ts : TypeSystem) (owner : Ty) (s : Signature) (n : TypeName)
    (hn : owner.name? = some n) :
    (ts.Declares owner s ↔ ts.types.contains n ∨ '.' ∉ n.name.toList) ∧
      (¬ ts.Declares owner s →
        (∀ ty, (ts.declare owner s).2.methods ty = ts.methods ty) ∧
          ((ts.declare owner s).2.types.find? (.parse n.display)).map (·.definition) =
            some (.plain n.display)) := by
  have hiff : ts.Declares owner s ↔ ts.types.contains n ∨ '.' ∉ n.name.toList := by
    refine ⟨fun h => not_not.1 fun hplace => ?_, declares_of_place hn s⟩
    have hjoins := h.joins
    rw [methods_declare_of_noPlace hn s hplace] at hjoins
    have hlength := congrArg List.length hjoins
    rw [List.length_append, List.length_singleton] at hlength
    omega
  refine ⟨hiff, fun h => ?_⟩
  have hplace := mt hiff.2 h
  refine ⟨methods_declare_of_noPlace hn s hplace, ?_⟩
  rw [definition_declare, ownerName_of_name? hn]
  exact definition_ensure_of_missing fun hdefined => hplace (.inl hdefined)

/-- A generic owner in the empty namespace that has no definition yet. -/
theorem declares_iff_box :
    let box : Ty := .app ⟨"", "Box"⟩ [.named "System.Int32"]
    let ts := run [.define "Demo.Box" [.base .object]]
    box.name? = some ⟨"", "Box"⟩ ∧ ts.types.contains ⟨"", "Box"⟩ = false ∧
      ts.Declares box { name := "Open" } := by
  intro box ts
  refine ⟨rfl, rfl, ?_⟩
  exact (declares_iff ts box { name := "Open" } ⟨"", "Box"⟩ rfl).1.2 (.inr (by decide))

/-- An owner in the empty namespace whose name is the spelling of another type.  The method is lost
and the other type loses its base type. -/
theorem not_declares_dotted :
    let shape : Ty := .con ⟨"Demo", "Shape"⟩
    let owner : Ty := .con ⟨"", "Demo.Shape"⟩
    let ts := run [.define "Demo.Shape" [.base .object]]
    let draw : Signature := { name := "Draw" }
    (ts.declare owner draw).2.methods owner = [] ∧ ts.base? shape = some .object ∧
      (ts.declare owner draw).2.base? shape = none ∧ ¬ ts.Declares owner draw := by
  intro shape owner ts draw
  have hplace : ¬ (ts.types.contains ⟨"", "Demo.Shape"⟩ ∨ '.' ∉ "Demo.Shape".toList) := by decide
  have hmethods : (ts.declare owner draw).2.methods owner = [] :=
    methods_declare_of_noPlace rfl draw hplace owner
  have hbase : ts.base? shape = some .object := rfl
  have hlost : (ts.declare owner draw).2.base? shape = none := by decide
  refine ⟨hmethods, hbase, hlost, fun h => ?_⟩
  have hdefined : (ts.entry? shape).isSome := rfl
  have hkept := h.base shape hdefined
  rw [hbase, hlost] at hkept
  cases hkept

end TypeSystem

end LateBinding
