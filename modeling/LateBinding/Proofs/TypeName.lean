import LateBinding.TypeName

/-!
# Names and their dotted spelling

A spelling without dots reads as a name of the empty namespace, any other one as what stands before
and after its last dot (`TypeName.noDot_or_dotted`).  No name that is read has a dot after its
namespace, and these are the names that are read back from their spelling, in any namespace, the
empty one included.  The empty namespace is written without a separator, so that a spelling is
written back unless its only dot stands in front (`TypeName.OnlyDotLeads`).
-/

namespace LateBinding

theorem splitLastDot?_append (before : List Char) {after : List Char} (h : '.' ∉ after) :
    splitLastDot? (before ++ '.' :: after) = some (before, after) := by
  induction before with
  | nil =>
    rw [List.nil_append, splitLastDot?, splitLastDot?_eq_none_iff.2 h]
    rfl
  | cons c before ih => rw [List.cons_append, splitLastDot?, ih]

namespace TypeName

/-- A spelling whose only dot is its first character. -/
def OnlyDotLeads (s : String) : Prop := ∃ name : String, '.' ∉ name.toList ∧ s = "." ++ name

/-! ## Reading -/

theorem parse_of_dot_notMem {s : String} (h : '.' ∉ s.toList) : parse s = ⟨"", s⟩ := by
  rw [parse, splitLastDot?_eq_none_iff.2 h]

theorem toList_dotted (ns name : String) :
    (ns ++ "." ++ name).toList = ns.toList ++ '.' :: name.toList := by
  simp

theorem parse_dotted (ns : String) {name : String} (h : '.' ∉ name.toList) :
    parse (ns ++ "." ++ name) = ⟨ns, name⟩ := by
  rw [parse, toList_dotted, splitLastDot?_append _ h]
  simp only [String.ofList_toList]

/-- The two forms of a spelling, each with its own way of being read. -/
theorem noDot_or_dotted (s : String) :
    '.' ∉ s.toList ∨ ∃ ns name : String, '.' ∉ name.toList ∧ s = ns ++ "." ++ name := by
  cases hsplit : splitLastDot? s.toList with
  | none => exact .inl (splitLastDot?_eq_none_iff.1 hsplit)
  | some parts =>
    obtain ⟨before, after⟩ := parts
    refine .inr ⟨.ofList before, .ofList after, ?_, ?_⟩
    · rw [String.toList_ofList]
      exact dot_notMem_of_splitLastDot? hsplit
    · rw [← String.toList_inj, toList_dotted, String.toList_ofList, String.toList_ofList]
      exact eq_append_of_splitLastDot? hsplit

theorem dot_notMem_name_parse (s : String) : '.' ∉ (parse s).name.toList := by
  obtain hs | ⟨ns, name, hname, rfl⟩ := noDot_or_dotted s
  · rw [parse_of_dot_notMem hs]
    exact hs
  · rw [parse_dotted ns hname]
    exact hname

theorem OnlyDotLeads.dot_mem {s : String} (h : OnlyDotLeads s) : '.' ∈ s.toList := by
  obtain ⟨name, -, rfl⟩ := h
  simp

theorem onlyDotLeads_dotted_iff {ns name : String} (h : '.' ∉ name.toList) :
    OnlyDotLeads (ns ++ "." ++ name) ↔ ns = "" := by
  constructor
  · rintro ⟨name', hname', hspelling⟩
    -- Both sides are read, and the one with the leading dot gives the empty namespace.
    have hread := congrArg parse hspelling
    rw [parse_dotted ns h, ← String.empty_append (s := "."), parse_dotted "" hname'] at hread
    exact congrArg TypeName.ns hread
  · rintro rfl
    exact ⟨name, h, by rw [String.empty_append]⟩

/-! ## Writing -/

theorem display_of_ns_empty (name : String) : display ⟨"", name⟩ = name := if_pos rfl

theorem display_of_ns_ne {ns : String} (h : ns ≠ "") (name : String) :
    display ⟨ns, name⟩ = ns ++ "." ++ name := if_neg h

theorem parse_display_of_dot_notMem {n : TypeName} (h : '.' ∉ n.name.toList) :
    parse n.display = n := by
  obtain ⟨ns, name⟩ := n
  by_cases hns : ns = ""
  · subst hns
    rw [display_of_ns_empty, parse_of_dot_notMem h]
  · rw [display_of_ns_ne hns, parse_dotted ns h]

theorem parse_display_eq_self_iff {n : TypeName} : parse n.display = n ↔ '.' ∉ n.name.toList := by
  refine ⟨fun h => ?_, parse_display_of_dot_notMem⟩
  rw [← h]
  exact dot_notMem_name_parse _

/-- A spelling loses its only dot if that is its first character, and is kept otherwise. -/
theorem display_parse_eq_self_iff {s : String} : (parse s).display = s ↔ ¬ OnlyDotLeads s := by
  obtain hs | ⟨ns, name, hname, rfl⟩ := noDot_or_dotted s
  · rw [parse_of_dot_notMem hs]
    exact iff_of_true (display_of_ns_empty s) fun h => hs h.dot_mem
  · rw [parse_dotted ns hname, onlyDotLeads_dotted_iff hname]
    by_cases hns : ns = ""
    · subst hns
      rw [display_of_ns_empty]
      refine iff_of_false (fun h => hname ?_) fun h => h rfl
      rw [h, toList_dotted]
      simp
    · exact iff_of_true (display_of_ns_ne hns name) hns

/-- Any name and any spelling.  A name is read back from its spelling exactly if it has no dot after
its namespace, a spelling is written back exactly if it is not one whose only dot is its first
character, and what is read has no dot after its namespace. -/
theorem parse_inverse_display_iff :
    (∀ n : TypeName, parse n.display = n ↔ '.' ∉ n.name.toList) ∧
      (∀ s : String, (parse s).display = s ↔ ¬ OnlyDotLeads s) ∧
      ∀ s : String, '.' ∉ (parse s).name.toList :=
  ⟨fun _ => parse_display_eq_self_iff, fun _ => display_parse_eq_self_iff, dot_notMem_name_parse⟩

example : (parse ".Shape").display = "Shape" ∧ (parse "..Shape").display = "..Shape" := by decide

end TypeName

end LateBinding
