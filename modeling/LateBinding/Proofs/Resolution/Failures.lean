import LateBinding.Proofs.Resolution.Policy
import LateBinding.Proofs.Resolution.Representable
import LateBinding.Proofs.ValueTyping

/-!
# How calls fail

A call is refused for its type arguments only, never for the method or for their number, and a
parameter without a type argument is the first one whose slot is empty.  The types of values are
representable, unless a value is of a category without a foreign type (`Value.Untyped`) or an object
inside has a type that is not.  Inference takes parts of them, so that an inadmissible type argument
comes from an untyped value that was passed for a formal of just that parameter
(`Proxy.call_failures`).
-/

namespace LateBinding

/-! ## Types of values -/

namespace Value

/-- Induction over values, with a hypothesis for all that a container holds. -/
@[induction_eliminator]
theorem ind {motive : Value → Prop}
    (integer : ∀ n, motive (.integer n))
    (float : ∀ bits, motive (.float bits))
    (text : ∀ s, motive (.text s))
    (sequence : ∀ items, (∀ v ∈ items, motive v) → motive (.sequence items))
    (mapping : ∀ entries, (∀ e ∈ entries, motive e.1 ∧ motive e.2) → motive (.mapping entries))
    (foreign : ∀ o, motive (.foreign o))
    (boolean : ∀ b, motive (.boolean b))
    (null : motive .null)
    (host : ∀ n, motive (.host n)) (v : Value) : motive v := by
  refine @Value.rec motive (fun items => ∀ v ∈ items, motive v)
    (fun entries => ∀ e ∈ entries, motive e.1 ∧ motive e.2) (fun e => motive e.1 ∧ motive e.2)
    integer float text sequence mapping foreign boolean null host ?_ ?_ ?_ ?_ ?_ v
  · exact nofun
  · exact fun _ _ hv hvs => List.forall_mem_cons.2 ⟨hv, hvs⟩
  · exact nofun
  · exact fun _ _ he hes => List.forall_mem_cons.2 ⟨he, hes⟩
  · exact fun _ _ hk hv => ⟨hk, hv⟩

/-- The object `o` is the value or occurs inside it. -/
inductive Holds (o : ForeignObject) : Value → Prop
  | object : Holds o (.foreign o)
  | item {v : Value} {items : List Value} (hv : v ∈ items) (h : Holds o v) :
    Holds o (.sequence items)
  | key {e : Value × Value} {entries : List (Value × Value)} (he : e ∈ entries) (h : Holds o e.1) :
    Holds o (.mapping entries)
  | value {e : Value × Value} {entries : List (Value × Value)} (he : e ∈ entries)
    (h : Holds o e.2) : Holds o (.mapping entries)

/-- The values of a category without a foreign type. -/
inductive Untyped : Value → Prop
  | boolean (b : Bool) : Untyped (.boolean b)
  | null : Untyped .null
  | host (n : String) : Untyped (.host n)

end Value

namespace ValueTyping

variable {τ : ValueTyping}

theorem isHost_typeOf {v : Value} (h : v.Untyped) : (τ.typeOf v).isHost = true := by
  cases h <;> rfl

/-- A host type never gets inside a container. -/
theorem representable_shared (hobject : τ.object.Representable)
    (hwide : τ.wideInteger.Representable) {tys : List Ty}
    (h : ∀ t ∈ tys, t.isHost = true ∨ t.Representable) : (τ.shared tys).Representable := by
  cases tys with
  | nil => exact hobject
  | cons t tys =>
    rw [shared_cons]
    split
    · exact hobject
    · rename_i hforeign
      split
      · refine (h t List.mem_cons_self).resolve_left fun hhost => hforeign ?_
        rw [List.any_cons, hhost, Bool.true_or]
      · split
        · exact hwide
        · exact hobject

/-- The type of a value that is not untyped is representable as soon as the types of the objects
inside are. -/
theorem untyped_or_representable (names : ValueTypeNames) (v : Value)
    (h : ∀ o : ForeignObject, v.Holds o → o.ty.Representable) :
    v.Untyped ∨ ((ofNames names).typeOf v).Representable := by
  have hshared : ∀ vs : List Value,
      (∀ v ∈ vs, v.Untyped ∨ ((ofNames names).typeOf v).Representable) →
      ((ofNames names).shared (vs.map (ofNames names).typeOf)).Representable := by
    intro vs hvs
    refine representable_shared (Ty.representable_con _) (Ty.representable_con _) fun t ht => ?_
    obtain ⟨v, hv, rfl⟩ := List.mem_map.1 ht
    exact (hvs v hv).imp_left isHost_typeOf
  induction v with
  | integer n =>
    rw [typeOf]
    split
    · exact .inr (Ty.representable_con _)
    · exact .inr (Ty.representable_con _)
  | float bits => exact .inr (Ty.representable_con _)
  | text s => exact .inr (Ty.representable_con _)
  | sequence items ih =>
    rw [typeOf_sequence, Ty.representable_app_iff, List.forall_mem_singleton]
    exact .inr (hshared items fun v hv => ih v hv fun o ho => h o (.item hv ho))
  | mapping entries ih =>
    have hkeys : ∀ k ∈ entries.map (·.1),
        k.Untyped ∨ ((ofNames names).typeOf k).Representable := by
      rw [List.forall_mem_map]
      exact fun e he => (ih e he).1 fun o ho => h o (.key he ho)
    have hvalues : ∀ v ∈ entries.map (·.2),
        v.Untyped ∨ ((ofNames names).typeOf v).Representable := by
      rw [List.forall_mem_map]
      exact fun e he => (ih e he).2 fun o ho => h o (.value he ho)
    rw [typeOf_mapping, Ty.representable_app_iff, List.forall_mem_cons, List.forall_mem_singleton]
    exact .inr ⟨hshared _ hkeys, hshared _ hvalues⟩
  | foreign o => exact .inr (h o .object)
  | boolean b => exact .inl (.boolean b)
  | null => exact .inl .null
  | host n => exact .inl (.host n)

end ValueTyping

/-! ## Inferred types -/

namespace Method

variable {m : Method} {typing : ValueTyping} {args : List Value} {p : Placeholder} {t : Ty}

/-- A parameter takes its type from an untyped value, which was passed for the first formal that is
just this parameter. -/
def TakesUntyped (m : Method) (typing : ValueTyping) (args : List Value) (p : Placeholder)
    (t : Ty) : Prop :=
  t.isHost = true ∧ ∃ j v, IsLeast {j | m.ExactAt p j} j ∧ args[j]? = some v ∧ v.Untyped ∧
    t = typing.typeOf v

/-- An occurrence inside a formal leads to a proper part of an argument, and host types have
none. -/
theorem representable_or_takesUntyped
    (hargs : ∀ v ∈ args, v.Untyped ∨ (typing.typeOf v).Representable)
    (ht : m.inferOne p (args.map typing.typeOf) = some t) :
    t.Representable ∨ m.TakesUntyped typing args p t := by
  have harg : ∀ {j : ℕ} {u : Ty}, (args.map typing.typeOf)[j]? = some u →
      ∃ v, args[j]? = some v ∧ u = typing.typeOf v ∧ (v.Untyped ∨ u.Representable) := by
    intro j u hu
    rw [List.getElem?_map] at hu
    obtain ⟨v, hv, rfl⟩ := Option.map_eq_some_iff.1 hu
    exact ⟨v, hv, rfl, hargs v (List.mem_of_getElem? hv)⟩
  have hslot := slotFor_inferOne m (args.map typing.typeOf) p
  generalize hinfer : m.inferOne p (args.map typing.typeOf) = slot at hslot
  rw [hinfer] at ht
  cases hslot with
  | @direct j hleast =>
    obtain ⟨v, hv, rfl, huntyped | hrepresentable⟩ := harg ht
    · exact .inr ⟨ValueTyping.isHost_typeOf huntyped, j, v, hleast, hv, huntyped, rfl⟩
    · exact .inl hrepresentable
  | aligned hexact hfound =>
    cases hfound with
    | nothing => cases ht
    | @least place s hleast hpart =>
      cases ht
      obtain ⟨formal, actual, hformal, hactual, haligned⟩ := hleast.1
      rw [Ty.partIn, hactual, Option.bind_some] at hpart
      obtain ⟨v, -, rfl, huntyped | hrepresentable⟩ := harg hactual
      · generalize (ofLex place).2 = path at haligned hpart
        cases path with
        | nil =>
          obtain ⟨cs, rfl⟩ := Ty.aligned_nil_iff.1 haligned
          exact absurd ⟨cs, hformal⟩ (hexact _)
        | cons i path =>
          rw [Ty.at?, Ty.args_eq_nil_of_isHost (ValueTyping.isHost_typeOf huntyped)] at hpart
          cases hpart
      · exact .inl (hrepresentable.part ⟨_, hpart⟩)

end Method

/-! ## Refusals -/

namespace TypeSystem

variable {ts : TypeSystem} {m : Method} {typeArgs : List Ty} {source : ClosingError}

/-- A generic method with as many type arguments as parameters is refused for one of them. -/
theorem violation?_ne (hgeneric : m.isGeneric = true) (h : ts.violation? m typeArgs = some source) :
    (∀ name, source ≠ .notGeneric name) ∧
      (typeArgs.length = m.typeArity → ∀ name expected found,
        source ≠ .wrongCount name expected found) := by
  rcases violation?_cases h with ⟨hplain, -⟩ | ⟨hcount, rfl⟩ | ⟨i, q, a, -, -, hargument⟩
  · rw [hgeneric] at hplain
    cases hplain
  · exact ⟨nofun, fun hlength => absurd hlength hcount⟩
  · rcases argumentViolation?_cases hargument with ⟨rfl, -⟩ | ⟨c, -, -, rfl⟩
    · exact ⟨nofun, fun _ => nofun⟩
    · exact ⟨nofun, fun _ => nofun⟩

/-- An inadmissible type argument is not representable. -/
theorem not_representable_of_violation? {method param : String} {argument : Ty}
    (h : ts.violation? m typeArgs = some (.inadmissible method param argument)) :
    method = m.name ∧ ∃ (i : ℕ) (q : GenericParam), m.generics[i]? = some q ∧ param = q.id.name ∧
      typeArgs[i]? = some argument ∧ ¬ argument.Representable := by
  rcases violation?_cases h with ⟨-, hplain⟩ | ⟨-, hcount⟩ | ⟨i, q, a, hq, ha, hargument⟩
  · cases hplain
  · cases hcount
  · rcases argumentViolation?_cases hargument with ⟨hsource, hbad⟩ | ⟨c, -, -, hunmet⟩
    · cases hsource
      refine ⟨rfl, i, q, hq, rfl, ha, fun hrepresentable => ?_⟩
      rcases hbad with hhost | hplaceholder
      · rw [(hrepresentable argument (.refl argument)).2] at hhost
        cases hhost
      · obtain ⟨s, hs, hplaceholder⟩ := Ty.hasPlaceholder_iff_part.1 hplaceholder
        rw [(hrepresentable s hs).1] at hplaceholder
        cases hplaceholder
    · cases hunmet

end TypeSystem

/-! ## Failures of operations -/

theorem MethodGroup.pick_eq_error {g : MethodGroup} {measure : Measure} {wanted : Nat}
    {policy : MissPolicy} {e : ResolutionError} (h : g.pick measure wanted policy = .error e) :
    e = g.miss measure wanted := by
  unfold pick at h
  split at h
  · exact (Except.error.inj h).symm
  · split at h
    · cases h
    · exact (Except.error.inj h).symm

namespace Proxy

variable {p : Proxy} {j : Journal} {op : Operation} {e : ResolutionError}

/-- A failing operation is not answered from the cache: no overload is selected, or the selected one
fails. -/
theorem perform_eq_error (h : answer op.perform (p, j) = .error e) :
    e = p.group.miss op.measure (op.key p.typing).length ∨
      ∃ s, p.group.pick op.measure (op.key p.typing).length p.policy = .ok s ∧
        j.types.outcomeOf op.measure s.method (op.key p.typing) = .error e := by
  have hpipeline : (p.group.pick op.measure (op.key p.typing).length p.policy >>= fun s =>
      j.types.outcomeOf op.measure s.method (op.key p.typing)) = .error e := by
    rw [answer_perform, map_eq_error_iff, demanded, OnceMap.answer_demandApart] at h
    cases hget : (p.cache op.measure).get? (op.key p.typing) with
    | some o =>
      rw [hget] at h
      cases h
    | none =>
      rw [hget] at h
      exact (answer_pipeline p j (op.key p.typing) op.measure).symm.trans h
  cases hpick : p.group.pick op.measure (op.key p.typing).length p.policy with
  | error e' =>
    rw [hpick] at hpipeline
    cases hpipeline
    exact .inl (MethodGroup.pick_eq_error hpick)
  | ok s =>
    rw [hpick] at hpipeline
    exact .inr ⟨s, rfl, hpipeline⟩

/-- A refusal to close the selected method. -/
theorem perform_eq_refused {method : String} {source : ClosingError}
    (h : answer op.perform (p, j) = .error (.refused method source)) :
    ∃ s typeArgs, p.group.pick op.measure (op.key p.typing).length p.policy = .ok s ∧
      method = s.method.name ∧ s.method.isGeneric = true ∧
      s.method.typeArgsOf (op.key p.typing) op.measure = .ok typeArgs ∧
      j.types.violation? s.method typeArgs = some source := by
  rcases perform_eq_error h with hmiss | ⟨s, hpick, houtcome⟩
  · cases hmiss
  · obtain ⟨hgeneric, hargs | ⟨typeArgs, source, hargs, hviolation, hrefused⟩⟩ :=
      TypeSystem.outcomeOf_eq_error houtcome
    · obtain ⟨-, i, param, -, hunsolved, -⟩ := Method.typeArgsOf_eq_error hargs
      cases hunsolved
    · cases hrefused
      exact ⟨s, typeArgs, hpick, rfl, hgeneric, hargs, hviolation⟩

theorem perform_eq_unsolved {method param : String}
    (h : answer op.perform (p, j) = .error (.unsolved method param)) :
    op.measure = .arguments ∧ ∃ (s : Selection) (i : ℕ) (q : GenericParam),
      p.group.pick .arguments (op.key p.typing).length p.policy = .ok s ∧
      method = s.method.name ∧ s.method.generics[i]? = some q ∧ param = q.id.name ∧
      IsLeast {i | (s.method.inferSlots (op.key p.typing))[i]? = some none} i := by
  rcases perform_eq_error h with hmiss | ⟨s, hpick, houtcome⟩
  · cases hmiss
  · obtain ⟨-, hargs | ⟨typeArgs, source, -, -, hrefused⟩⟩ :=
      TypeSystem.outcomeOf_eq_error houtcome
    · obtain ⟨hmeasure, i, q, hq, hunsolved, hleast⟩ := Method.typeArgsOf_eq_error hargs
      rw [hmeasure] at hpick
      cases hunsolved
      exact ⟨hmeasure, s, i, q, hpick, rfl, hq, rfl, hleast⟩
    · cases hrefused

/-- How the operations of a proxy fail: there is no overload to select, a type argument is wanting,
or the selected method cannot be closed.  No refusal says that the method is not generic, and that of
a call never says that the number of type arguments is wrong.  A call without a type argument names
the first parameter whose slot is empty.  Where all objects that occur in the arguments have
representable types, inference finds nothing but representable types and the host types of untyped
values that were passed for formals of just the inferred parameter; and a type argument that is
inadmissible for a call is one of these host types. -/
theorem call_failures (names : ValueTypeNames) (p : Proxy) (j : Journal)
    (hp : p.typing = .ofNames names) :
    (∀ (op : Operation) e, answer op.perform (p, j) = .error e →
      e = p.group.miss op.measure (op.key p.typing).length ∨
        (∃ method param, e = .unsolved method param) ∨
        ∃ method source, e = .refused method source) ∧
    (∀ (op : Operation) method source, answer op.perform (p, j) = .error (.refused method source) →
      (∀ name, source ≠ .notGeneric name) ∧
        (op.measure = .arguments →
          ∀ name expected found, source ≠ .wrongCount name expected found)) ∧
    (∀ (op : Operation) method param,
      answer op.perform (p, j) = .error (.unsolved method param) →
        op.measure = .arguments ∧ ∃ (s : Selection) (i : ℕ) (q : GenericParam),
          p.group.pick .arguments (op.key p.typing).length p.policy = .ok s ∧
          method = s.method.name ∧ s.method.generics[i]? = some q ∧ param = q.id.name ∧
          IsLeast {i | (s.method.inferSlots (op.key p.typing))[i]? = some none} i) ∧
    ∀ args receiver, (∀ v ∈ args, ∀ o : ForeignObject, v.Holds o → o.ty.Representable) →
      (∀ (m : Method) (i : ℕ) q t, m.generics[i]? = some q →
        (m.inferSlots (args.map p.typing.typeOf))[i]? = some (some t) →
          t.Representable ∨ m.TakesUntyped p.typing args q.id t) ∧
      ∀ outer method param argument,
        answer (resolve args receiver) (p, j) =
            .error (.refused outer (.inadmissible method param argument)) →
          ∃ s q, p.group.pick .arguments args.length p.policy = .ok s ∧
            outer = s.method.name ∧ method = s.method.name ∧
            q ∈ s.method.generics ∧ param = q.id.name ∧
            s.method.TakesUntyped p.typing args q.id argument := by
  refine ⟨fun op e h => ?_, fun op method source h => ?_,
    fun op method param => perform_eq_unsolved, fun args receiver hheld => ?_⟩
  · rcases perform_eq_error h with hmiss | ⟨s, -, houtcome⟩
    · exact .inl hmiss
    · obtain ⟨-, hargs | ⟨typeArgs, source, -, -, hrefused⟩⟩ :=
        TypeSystem.outcomeOf_eq_error houtcome
      · obtain ⟨-, i, q, -, hunsolved, -⟩ := Method.typeArgsOf_eq_error hargs
        exact .inr (.inl ⟨_, _, hunsolved⟩)
      · exact .inr (.inr ⟨_, _, hrefused⟩)
  · obtain ⟨s, typeArgs, -, -, hgeneric, hargs, hviolation⟩ := perform_eq_refused h
    obtain ⟨hnotGeneric, hcount⟩ := TypeSystem.violation?_ne hgeneric hviolation
    refine ⟨hnotGeneric, fun hmeasure => hcount ?_⟩
    rw [hmeasure] at hargs
    have hslots := congrArg List.length (Method.infer_eq_ok_iff.1 hargs)
    rw [Method.inferSlots, List.length_map, List.length_map] at hslots
    exact hslots.symm
  · have htyped : ∀ v ∈ args, v.Untyped ∨ (p.typing.typeOf v).Representable := by
      rw [hp]
      exact fun v hv => ValueTyping.untyped_or_representable names v (hheld v hv)
    have hslot : ∀ (m : Method) (i : ℕ) q t, m.generics[i]? = some q →
        (m.inferSlots (args.map p.typing.typeOf))[i]? = some (some t) →
          t.Representable ∨ m.TakesUntyped p.typing args q.id t := by
      intro m i q t hq ht
      rw [Method.inferSlots, List.getElem?_map, hq] at ht
      exact Method.representable_or_takesUntyped htyped (Option.some.inj ht)
    refine ⟨hslot, fun outer method param argument h => ?_⟩
    change answer (Operation.resolve args receiver).perform (p, j) = _ at h
    obtain ⟨s, typeArgs, hpick, rfl, -, hargs, hviolation⟩ := perform_eq_refused h
    obtain ⟨rfl, i, q, hq, rfl, ha, hnot⟩ := TypeSystem.not_representable_of_violation? hviolation
    have hfilled : s.method.inferSlots (args.map p.typing.typeOf) = typeArgs.map some :=
      Method.infer_eq_ok_iff.1 hargs
    have hargument :
        (s.method.inferSlots (args.map p.typing.typeOf))[i]? = some (some argument) := by
      rw [hfilled, List.getElem?_map, ha, Option.map_some]
    have hlength : (Operation.key p.typing (.resolve args receiver)).length = args.length :=
      List.length_map _
    exact ⟨s, q, hlength ▸ hpick, rfl, rfl, List.mem_of_getElem? hq, rfl,
      (hslot s.method i q argument hq hargument).resolve_left hnot⟩

/-- A method with a parameter inside a formal and one that is a formal itself.  From a list of boxes
the first parameter gets its type, and null beside it is refused; null in place of the list leaves
the first parameter without a type argument. -/
theorem call_failures_null :
    let t : Placeholder := ⟨"T", 0, .method⟩
    let u : Placeholder := ⟨"U", 1, .method⟩
    let put : Method := {
      name := "Put", generics := [⟨t, []⟩, ⟨u, []⟩],
      formals := [⟨"xs", .list (.param t [])⟩, ⟨"x", .param u []⟩] }
    let box : Ty := .app ⟨"Demo", "Box"⟩ [.con ⟨"Demo", "Number"⟩]
    let p : Proxy := new (.single put) (.ofNames {}) .strict
    let boxes : Value := .sequence [.foreign ⟨box, 1⟩, .foreign ⟨box, 2⟩]
    let refused : Operation := .instantiate [box] none
    answer (resolve [boxes, .null] none) (p, {}) =
        .error (.refused "Put" (.inadmissible "Put" "U" (.host "null"))) ∧
      put.TakesUntyped p.typing [boxes, .null] u (.host "null") ∧
      (put.inferSlots ([boxes, .null].map p.typing.typeOf))[0]? = some (some box) ∧
      box.Representable ∧
      answer (Operation.resolve [.null, .null] none).perform (p, {}) =
        .error (.unsolved "Put" "T") ∧
      IsLeast {i | (put.inferSlots ([Value.null, .null].map p.typing.typeOf))[i]? = some none} 0 ∧
      ∃ source, answer refused.perform (p, {}) = .error (.refused "Put" source) ∧
        source ≠ .notGeneric "Put" := by
  intro t u put box p boxes refused
  obtain ⟨-, hsource, hunsolved, hcalls⟩ := call_failures {} p {} rfl
  have hboxes : ∀ v ∈ [boxes, .null], ∀ o : ForeignObject, v.Holds o → o.ty.Representable := by
    have hbox : box.Representable :=
      Ty.representable_app_iff.2 (List.forall_mem_singleton.2 (Ty.representable_con _))
    intro v hv o ho
    rcases List.mem_pair.1 hv with rfl | rfl
    · change Value.Holds o (.sequence _) at ho
      cases ho with
      | item hv ho => rcases List.mem_pair.1 hv with rfl | rfl <;> cases ho <;> exact hbox
    · cases ho
  obtain ⟨hslot, hinadmissible⟩ := hcalls [boxes, .null] none hboxes
  have hcall : answer (resolve [boxes, .null] none) (p, {}) =
      .error (.refused "Put" (.inadmissible "Put" "U" (.host "null"))) := by
    simp only [p, boxes, box, put, t, u]
    rfl
  have hfirst : (put.inferSlots ([boxes, .null].map p.typing.typeOf))[0]? = some (some box) := by
    simp only [p, boxes, box, put, t, u]
    rfl
  have hnull : answer (Operation.resolve [.null, .null] none).perform (p, {}) =
      .error (.unsolved "Put" "T") := by
    simp only [p, put, t, u]
    rfl
  have hinstantiate : answer refused.perform (p, {}) =
      .error (.refused "Put" (.wrongCount "Put" 2 1)) := by
    simp only [refused, p, box, put, t, u]
    rfl
  refine ⟨hcall, ?_, hfirst, ?_, hnull, ?_, _, hinstantiate, (hsource _ _ _ hinstantiate).1 "Put"⟩
  · obtain ⟨s, q, hpick, -, -, hq, hname, htakes⟩ := hinadmissible _ _ _ _ hcall
    cases hpick
    rcases List.mem_pair.1 hq with rfl | rfl
    · exact absurd hname (by decide)
    · exact htakes
  · refine (hslot put 0 _ box rfl hfirst).resolve_right fun htakes => ?_
    exact Bool.false_ne_true htakes.1
  · obtain ⟨-, s, i, q, hpick, -, hq, hname, hleast⟩ := hunsolved _ _ _ hnull
    cases hpick
    rcases i with - | - | i
    · exact hleast
    · cases hq
      exact absurd hname (by decide)
    · cases hq

end Proxy

end LateBinding
