import Mathlib.Data.List.Basic
import LateBinding.Proofs.Resolution.Pipeline

/-!
# Admissible type arguments

A generic method can be closed over exactly the lists of type arguments that a type system admits
for it (`TypeSystem.violation?_eq_none_iff`).
-/

namespace LateBinding

/-- What holds of the second of every pair, when every second is in a pair. -/
theorem forall_mem_zip_snd {as : List α} {bs : List β} (h : as.length = bs.length) {P : β → Prop} :
    (∀ ab ∈ as.zip bs, P ab.2) ↔ ∀ b ∈ bs, P b := by
  rw [← List.forall_mem_map (f := Prod.snd) (P := P), List.map_snd_zip (Nat.le_of_eq h.symm)]

namespace TypeSystem

/-- One foreign type without placeholders for each generic parameter, with all its constraints. -/
structure Admits (ts : TypeSystem) (m : Method) (args : List Ty) : Prop where
  length : args.length = m.typeArity
  foreign : ∀ a ∈ args, a.isHost = false
  closed : ∀ a ∈ args, a.hasPlaceholder = false
  satisfied : ∀ pa ∈ m.generics.zip args, ∀ c ∈ pa.1.constraints, ts.satisfies pa.2 c = true

variable {ts : TypeSystem} {m c : Method} {args : List Ty}

theorem argumentViolation?_eq_none_iff {p : GenericParam} {a : Ty} :
    ts.argumentViolation? m p a = none ↔
      a.isHost = false ∧ a.hasPlaceholder = false ∧
        ∀ c ∈ p.constraints, ts.satisfies a c = true := by
  unfold argumentViolation?
  split
  · rename_i hinadmissible
    simp only [Bool.or_eq_true] at hinadmissible
    simp only [reduceCtorEq, false_iff]
    rintro ⟨hforeign, hclosed, -⟩
    simp [hforeign, hclosed] at hinadmissible
  · rename_i hadmissible
    simp only [Bool.or_eq_true, not_or, Bool.not_eq_true] at hadmissible
    simp [hadmissible.1, hadmissible.2]

/-- Nothing speaks against closing a generic method over the arguments that are admitted. -/
theorem violation?_eq_none_iff :
    ts.violation? m args = none ↔ m.isGeneric = true ∧ ts.Admits m args := by
  unfold violation?
  by_cases hgeneric : m.isGeneric
  · by_cases hlength : m.generics.length = args.length
    · have hforeign := forall_mem_zip_snd hlength (P := fun a => a.isHost = false)
      have hclosed := forall_mem_zip_snd hlength (P := fun a => a.hasPlaceholder = false)
      simp only [hgeneric, hlength, Bool.not_true, Bool.false_eq_true, if_false, ne_eq,
        not_true_eq_false, List.findSome?_eq_none_iff, argumentViolation?_eq_none_iff, true_and]
      constructor
      · intro h
        exact ⟨hlength.symm, hforeign.1 fun pa hpa => (h pa hpa).1,
          hclosed.1 fun pa hpa => (h pa hpa).2.1, fun pa hpa => (h pa hpa).2.2⟩
      · intro h pa hpa
        exact ⟨hforeign.2 h.foreign pa hpa, hclosed.2 h.closed pa hpa, h.satisfied pa hpa⟩
    · have hnot : ¬ ts.Admits m args := fun h => hlength h.length.symm
      simp [hgeneric, hlength, hnot]
  · simp [hgeneric]

theorem argumentViolation?_cases {p : GenericParam} {a : Ty} {e : ClosingError}
    (h : ts.argumentViolation? m p a = some e) :
    (e = .inadmissible m.name p.id.name a ∧ (a.isHost = true ∨ a.hasPlaceholder = true)) ∨
      ∃ c ∈ p.constraints, ts.satisfies a c = false ∧
        e = .unmetConstraint m.name p.id.name a c := by
  unfold argumentViolation? at h
  split at h
  · rename_i hinadmissible
    cases h
    exact .inl ⟨rfl, Bool.or_eq_true_iff.1 hinadmissible⟩
  · obtain ⟨c, hc, rfl⟩ := Option.map_eq_some_iff.1 h
    have hunmet := List.find?_some hc
    exact .inr ⟨c, List.mem_of_find?_eq_some hc, by simpa using hunmet, rfl⟩

/-- What speaks against closing a method: it is not generic, the counts differ, or there is an
argument that one of the parameters does not take. -/
theorem violation?_cases {e : ClosingError} (h : ts.violation? m args = some e) :
    (m.isGeneric = false ∧ e = .notGeneric m.name) ∨
      (args.length ≠ m.typeArity ∧ e = .wrongCount m.name m.typeArity args.length) ∨
      ∃ (i : Nat) (p : GenericParam) (a : Ty), m.generics[i]? = some p ∧ args[i]? = some a ∧
        ts.argumentViolation? m p a = some e := by
  unfold violation? at h
  split at h
  · rename_i hgeneric
    cases h
    exact .inl ⟨by simpa using hgeneric, rfl⟩
  · split at h
    · rename_i hlength
      cases h
      exact .inr (.inl ⟨Ne.symm hlength, rfl⟩)
    · obtain ⟨⟨p, a⟩, hpa, hviolation⟩ := List.exists_of_findSome?_eq_some h
      obtain ⟨i, hi⟩ := List.getElem?_of_mem hpa
      obtain ⟨hp, ha⟩ := List.getElem?_zip_eq_some.1 hi
      exact .inr (.inr ⟨i, p, a, hp, ha, hviolation⟩)

theorem closing_eq_ok_iff :
    ts.closing m args = .ok c ↔
      (m.isGeneric = true ∧ ts.Admits m args) ∧ m.close args = c := by
  rw [closing, ← violation?_eq_none_iff]
  cases ts.violation? m args with
  | none => simp
  | some e => simp

end TypeSystem

end LateBinding
