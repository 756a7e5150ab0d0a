import LateBinding.Proofs.Resolution.Inference
import LateBinding.Proofs.Resolution.Proxy

/-!
# Calls and instantiations agree

A call whose arguments have the formal types of a method, with type arguments put in, infers these
type arguments; it ends as the instantiation with them does
(`Proxy.call_agrees_with_instantiation`).  The method has to be the one that both select.
-/

namespace LateBinding

/-! ## Selection of the first overload with a count -/

theorem find?_zipIdx {xs : List α} {q : α → Bool} {a : α} (h : xs.find? q = some a) (k : Nat) :
    ∃ i, (xs.zipIdx k).find? (fun (b, _) => q b) = some (a, i) := by
  induction xs generalizing k with
  | nil => cases h
  | cons b bs ih =>
    rw [List.zipIdx_cons, List.find?_cons]
    rw [List.find?_cons] at h
    simp only
    cases hb : q b with
    | true =>
      rw [hb] at h
      cases h
      exact ⟨k, rfl⟩
    | false =>
      rw [hb] at h
      exact ih h (k + 1)

namespace MethodGroup

variable {g : MethodGroup} {measure : Measure} {m : Method}

/-- `m` is the first overload with its count. -/
def IsFirst (g : MethodGroup) (measure : Measure) (m : Method) : Prop :=
  g.methods.find? (fun n => measure.count n == measure.count m) = some m

theorem isFirst_of_sole (h : g.methods = [m]) : g.IsFirst measure m := by
  rw [IsFirst, h, List.find?_singleton, beq_self_eq_true, if_pos rfl]

/-- A first overload is selected as a match, so no policy has a say. -/
theorem pick_of_isFirst (h : g.IsFirst measure m) (policy : MissPolicy) :
    ∃ i, g.pick measure (measure.count m) policy = .ok ⟨m, i, true⟩ := by
  have hselect : ∃ i, g.select? measure (measure.count m) = some ⟨m, i, true⟩ := by
    unfold IsFirst at h
    unfold select?
    split
    · rename_i hnil
      rw [hnil] at h
      cases h
    · rename_i n hsole
      rw [hsole, List.find?_singleton] at h
      split at h
      · cases h
        exact ⟨0, rfl⟩
      · cases h
    · rename_i first rest _ hmethods
      rw [hmethods] at h
      obtain ⟨i, hi⟩ := find?_zipIdx h 0
      rw [hi]
      exact ⟨i, rfl⟩
  obtain ⟨i, hi⟩ := hselect
  rw [pick, hi]
  exact ⟨i, rfl⟩

end MethodGroup

namespace TypeSystem

variable {ts : TypeSystem} {g : MethodGroup} {policy : MissPolicy} {m : Method}
  {args argTypes : List Ty}

theorem argumentOutcome_of_isFirst (hg : g.IsFirst .arguments m) (hgeneric : m.isGeneric)
    (hlength : argTypes.length = m.arity) (hinfer : m.infer argTypes = .ok args) :
    ts.argumentOutcome g policy argTypes = (ts.closing m args).map .closed := by
  obtain ⟨i, hi⟩ := MethodGroup.pick_of_isFirst hg policy
  rw [argumentOutcome, hlength]
  change g.pick .arguments m.arity policy = _ at hi
  rw [hi]
  show (if m.isGeneric then (m.infer argTypes >>= fun typeArgs => _) else _) = _
  rw [if_pos hgeneric, hinfer]
  rfl

theorem typeArgumentOutcome_of_isFirst (hg : g.IsFirst .typeArguments m) (hgeneric : m.isGeneric)
    (hlength : args.length = m.typeArity) :
    ts.typeArgumentOutcome g policy args = (ts.closing m args).map .closed := by
  obtain ⟨i, hi⟩ := MethodGroup.pick_of_isFirst hg policy
  rw [typeArgumentOutcome, hlength]
  change g.pick .typeArguments m.typeArity policy = _ at hi
  rw [hi]
  show (if m.isGeneric then (ts.closing m args >>= fun c => _) else _) = _
  rw [if_pos hgeneric]
  rfl

end TypeSystem

namespace Proxy

/-- The two ways to specialize a declared generic method agree.  Every generic parameter occurs in
some formal, and the method is the sole overload of its group or the first one with its arity and
with its number of generic parameters.  Then inference from the formal types under a substitution
gives the substitution back, slot by slot, and on new proxies the call with arguments of these types
and the instantiation end alike: in the same refusal or in the method closed over the same type
arguments, with just these formal types.  The journals are any two with the same type tables, so it
does not matter which of the two is asked first. -/
theorem call_agrees_with_instantiation (ts : TypeSystem) (owner : Ty) (name : String)
    (clauses : List Signature.Clause) (g : MethodGroup) (typing : ValueTyping) (policy : MissPolicy)
    (typeArgs : List Ty) (receiver : Option ForeignObject) (j j' : Journal)
    (hj : j.types.types = j'.types.types) :
    let m := (ts.declare owner (.ofClauses name clauses)).1
    let argTypes := m.formalTypes.map (Ty.subst typeArgs)
    let called := answer (resolveTypes argTypes receiver) (new g typing policy, j)
    let instantiated := answer (instantiate typeArgs receiver) (new g typing policy, j')
    m.isGeneric →
    (∀ p ∈ m.generics, ∃ t ∈ m.formalTypes, t.mentions p.id) →
    (g.methods = [m] ∨ g.IsFirst .arguments m ∧ g.IsFirst .typeArguments m) →
    typeArgs.length = m.typeArity →
    m.inferSlots argTypes = typeArgs.map some ∧
      ((∃ e, called = .error e ∧ instantiated = .error e) ∨
        ∃ c, called = .ok (.method c receiver) ∧ instantiated = .ok (.method c receiver) ∧
          c = m.close typeArgs ∧ c.typeArgs = typeArgs ∧ c.formalTypes = argTypes) := by
  intro m argTypes called instantiated hgeneric hmentions hg hlength
  have hnumbered : Numbered m.generics := Signature.numbered_ofClauses name clauses
  have hslots : m.inferSlots argTypes = typeArgs.map some :=
    Method.inferSlots_subst hnumbered hlength hmentions
  have hfirst : g.IsFirst .arguments m ∧ g.IsFirst .typeArguments m := by
    rcases hg with hsole | hfirst
    · exact ⟨MethodGroup.isFirst_of_sole hsole, MethodGroup.isFirst_of_sole hsole⟩
    · exact hfirst
  have hcount : argTypes.length = m.arity := by
    rw [List.length_map, Method.length_formalTypes]
  have hcalled : called =
      ((j.types.closing m typeArgs).map .closed).map ((new g typing policy).target receiver) := by
    have hinfer := Method.infer_eq_ok_iff.2 hslots
    rw [← TypeSystem.argumentOutcome_of_isFirst hfirst.1 hgeneric hcount hinfer]
    exact answer_resolveTypes (OnceMap.holds_empty _) argTypes receiver
  have hinstantiated : instantiated =
      ((j.types.closing m typeArgs).map .closed).map ((new g typing policy).target receiver) := by
    rw [TypeSystem.closing_congr hj,
      ← TypeSystem.typeArgumentOutcome_of_isFirst hfirst.2 hgeneric hlength]
    exact answer_instantiate (OnceMap.holds_empty _) typeArgs receiver
  refine ⟨hslots, ?_⟩
  rw [hcalled, hinstantiated, TypeSystem.closing]
  cases j.types.violation? m typeArgs with
  | some e => exact .inl ⟨_, rfl, rfl⟩
  | none => exact .inr ⟨_, rfl, rfl, rfl, rfl, Method.formalTypes_close m typeArgs⟩

/-- A method with two formals, its parameters swapped and one of them nested, in a group with an
overload of another arity. -/
theorem call_agrees_with_instantiation_swapped :
    let t : Ty := .param ⟨"T", 0, .method⟩ []
    let u : Ty := .param ⟨"U", 1, .method⟩ []
    let box (ty : Ty) : Ty := .app ⟨"Demo", "Box"⟩ [ty]
    let typeArgs : List Ty := [.con ⟨"System", "Int32"⟩, box (.con ⟨"System", "String"⟩)]
    let clauses : List Signature.Clause :=
      [.generic ["T", "U"], .formal "x" u, .formal "xs" (box (box t)), .returns t]
    let m := (({} : TypeSystem).declare (.con ⟨"Demo", "Ops"⟩) (.ofClauses "Zip" clauses)).1
    let g : MethodGroup := ⟨"Zip", [{ name := "Zip" }, m], none⟩
    let argTypes := [box (.con ⟨"System", "String"⟩), box (box (.con ⟨"System", "Int32"⟩))]
    m.inferSlots argTypes = typeArgs.map some ∧
      ∃ c, answer (resolveTypes argTypes none) (new g default .strict, {}) = .ok (.method c none) ∧
        answer (instantiate typeArgs none) (new g default .strict, {}) = .ok (.method c none) ∧
        c.typeArgs = typeArgs ∧ c.formalTypes = argTypes := by
  intro t u box typeArgs clauses m g argTypes
  have hagree := call_agrees_with_instantiation {} (.con ⟨"Demo", "Ops"⟩) "Zip" clauses g default
    .strict typeArgs none {} {} rfl (by decide) (by decide) (.inr ⟨rfl, rfl⟩) rfl
  obtain ⟨hslots, ⟨e, he, -⟩ | ⟨c, hcalled, hinstantiated, -, htypeArgs, hformals⟩⟩ := hagree
  · cases he
  · exact ⟨hslots, c, hcalled, hinstantiated, htypeArgs, hformals⟩

end Proxy

end LateBinding
