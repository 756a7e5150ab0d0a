/-!
# Names of type definitions

A `TypeName` is a namespace with an unqualified name.  `TypeName.parse` reads a dotted name by
splitting it at its last dot (`splitLastDot?`), and `TypeName.display` writes a name back, without
a separator when the namespace is empty.  Listings follow the order of `TypeName`: by namespace,
then by name, both by code point.
-/

namespace LateBinding

/-- The characters on either side of the last dot, if there is a dot. -/
def splitLastDot? : List Char → Option (List Char × List Char)
  | [] => none
  | c :: cs =>
    match splitLastDot? cs with
    | some (before, after) => some (c :: before, after)
    | none => if c = '.' then some ([], cs) else none

theorem splitLastDot?_eq_none_iff {cs : List Char} : splitLastDot? cs = none ↔ '.' ∉ cs := by
  induction cs with
  | nil => simp [splitLastDot?]
  | cons c cs ih =>
    cases h : splitLastDot? cs with
    | none =>
      have hcs := ih.1 h
      by_cases hc : c = '.'
      · simp [splitLastDot?, h, hc]
      · have hc' : ¬ '.' = c := fun e => hc e.symm
        simp [splitLastDot?, h, hc, hc', hcs]
    | some p =>
      have hcs : '.' ∈ cs := by
        by_cases hm : '.' ∈ cs
        · exact hm
        · rw [ih.2 hm] at h; cases h
      simp [splitLastDot?, h, hcs]

theorem eq_append_of_splitLastDot? {cs before after : List Char}
    (h : splitLastDot? cs = some (before, after)) : cs = before ++ '.' :: after := by
  induction cs generalizing before with
  | nil => simp [splitLastDot?] at h
  | cons c cs ih =>
    cases hs : splitLastDot? cs with
    | none =>
      by_cases hc : c = '.'
      · simp [splitLastDot?, hs, hc] at h
        obtain ⟨rfl, rfl⟩ := h
        simp [hc]
      · simp [splitLastDot?, hs, hc] at h
    | some p =>
      obtain ⟨b, a⟩ := p
      simp [splitLastDot?, hs] at h
      obtain ⟨rfl, rfl⟩ := h
      simp [ih hs]

theorem dot_notMem_of_splitLastDot? {cs before after : List Char}
    (h : splitLastDot? cs = some (before, after)) : '.' ∉ after := by
  induction cs generalizing before with
  | nil => simp [splitLastDot?] at h
  | cons c cs ih =>
    cases hs : splitLastDot? cs with
    | none =>
      by_cases hc : c = '.'
      · simp [splitLastDot?, hs, hc] at h
        obtain ⟨rfl, rfl⟩ := h
        exact splitLastDot?_eq_none_iff.1 hs
      · simp [splitLastDot?, hs, hc] at h
    | some p =>
      obtain ⟨b, a⟩ := p
      simp [splitLastDot?, hs] at h
      obtain ⟨rfl, rfl⟩ := h
      exact ih hs

/-- The identity of a type definition; all applications of a generic definition share it. -/
structure TypeName where
  ns : String
  name : String
deriving DecidableEq, Repr, Inhabited

namespace TypeName

/-- Reads a dotted name.  A name without dots lies in the empty namespace. -/
def parse (qualified : String) : TypeName :=
  match splitLastDot? qualified.toList with
  | some (before, after) => ⟨String.ofList before, String.ofList after⟩
  | none => ⟨"", qualified⟩

/-- The dotted spelling of a name. -/
def display (n : TypeName) : String :=
  if n.ns = "" then n.name else n.ns ++ "." ++ n.name

/-- Names are ordered by namespace, then by unqualified name. -/
instance : Ord TypeName where
  compare a b := (compare a.ns b.ns).then (compare a.name b.name)

/-- The names in order; equal names keep their places. -/
def sort (names : List TypeName) : List TypeName :=
  names.mergeSort fun a b => (compare a b).isLE

end TypeName

end LateBinding
