import LateBinding.TypeSystem.Basic

/-!
# Generic parameters of declared methods

However the clauses of a signature come, its generic parameters are the names of these clauses,
numbered in order (`Signature.ids_ofClauses`), and belong to the method (`Numbered`).  A declared
method has them from its signature.
-/

namespace LateBinding

/-- Every parameter is a placeholder of a method, and its position is its index. -/
def Numbered (ps : List GenericParam) : Prop :=
  ∀ (i : Nat) (p : GenericParam), ps[i]? = some p →
    p.id.position = i ∧ p.id.owner = .method

namespace Signature

/-- The names of the generic parameters that a clause declares. -/
def Clause.genericNames : Clause → List String
  | generic names => names
  | constrain _ _ | formal _ _ | returns _ | static | extension => []

/-- The names of all generic parameters that clauses declare, in order.  Names may be repeated. -/
def genericNames (clauses : List Clause) : List String := clauses.flatMap Clause.genericNames

/-- The placeholders of a method with the given names, numbered in order. -/
def placeholders (names : List String) : List Placeholder :=
  names.zipIdx.map fun (n, i) => ⟨n, i, .method⟩

theorem placeholders_append (names more : List String) :
    placeholders (names ++ more) =
      placeholders names ++ (more.zipIdx names.length).map fun (n, i) => ⟨n, i, .method⟩ := by
  rw [placeholders, List.zipIdx_append, List.map_append, Nat.zero_add]
  rfl

theorem length_placeholders (names : List String) : (placeholders names).length = names.length := by
  rw [placeholders, List.length_map, List.length_zipIdx]

/-- A constraint changes no identity. -/
theorem map_id_constrain (name : String) (c : Ty) (ps : List GenericParam) :
    (constrain name c ps).map (·.id) = ps.map (·.id) := by
  induction ps with
  | nil => rfl
  | cons p ps ih =>
    unfold constrain
    split
    · rfl
    · rw [List.map_cons, ih, List.map_cons]

theorem ids_extend {s : Signature} {names : List String}
    (h : s.generics.map (·.id) = placeholders names) (c : Clause) :
    (s.extend c).generics.map (·.id) = placeholders (names ++ c.genericNames) := by
  have hlength : s.generics.length = names.length := by
    rw [← length_placeholders, ← h, List.length_map]
  cases c with
  | generic more =>
    rw [Clause.genericNames, placeholders_append, ← h, ← hlength, extend, List.map_append,
      List.map_map]
    rfl
  | constrain name ty => rw [Clause.genericNames, List.append_nil, extend, map_id_constrain, h]
  | formal _ _ | returns _ | static | extension => rwa [Clause.genericNames, List.append_nil]

/-- The generic parameters of a signature are those that its clauses declare. -/
theorem ids_ofClauses (name : String) (clauses : List Clause) :
    (ofClauses name clauses).generics.map (·.id) = placeholders (genericNames clauses) := by
  suffices ∀ (s : Signature) names, s.generics.map (·.id) = placeholders names →
      (clauses.foldl extend s).generics.map (·.id) = placeholders (names ++ genericNames clauses) from
    this { name } [] rfl
  unfold genericNames
  induction clauses with
  | nil =>
    intro s names h
    rw [List.flatMap_nil, List.append_nil]
    exact h
  | cons c cs ih =>
    intro s names h
    rw [List.flatMap_cons, ← List.append_assoc]
    exact ih _ _ (ids_extend h c)

theorem numbered_ofClauses (name : String) (clauses : List Clause) :
    Numbered (ofClauses name clauses).generics := by
  intro i p hp
  have hid : ((ofClauses name clauses).generics.map (·.id))[i]? = some p.id := by
    rw [List.getElem?_map, hp, Option.map_some]
  rw [ids_ofClauses, placeholders, List.getElem?_map, List.getElem?_zipIdx, Option.map_map,
    Option.map_eq_some_iff] at hid
  obtain ⟨n, -, hn⟩ := hid
  rw [← hn]
  exact ⟨Nat.zero_add i, rfl⟩

end Signature

end LateBinding
