import LateBinding.Proofs.Resolution.Balance

/-!
# What the policy decides

The two policies differ where no overload has the wanted count, and nowhere else.  A proxy that
refuses such calls and one that falls back answer alike on all others, without a notice, and use an
overload that fits (`MethodGroup.Fits`).  Where the one refuses, the other gives one notice and uses
the first overload of the group (`Proxy.policy_decides_misses`).
-/

namespace LateBinding

/-- The first element that passes a test, found with its index. -/
theorem find?_zipIdx_eq_some {xs : List α} {q : α → Bool} {a : α} {i : Nat}
    (h : xs.zipIdx.find? (fun (b, _) => q b) = some (a, i)) :
    xs[i]? = some a ∧ q a = true ∧ ∀ k < i, ∀ b, xs[k]? = some b → q b = false := by
  obtain ⟨hq, k, hk, hget, hbefore⟩ := List.find?_eq_some_iff_getElem.1 h
  rw [List.getElem_zipIdx, Nat.zero_add, Prod.mk.injEq] at hget
  obtain ⟨rfl, rfl⟩ := hget
  refine ⟨List.getElem?_eq_getElem _, hq, fun l hl b hb => ?_⟩
  obtain ⟨-, rfl⟩ := List.getElem?_eq_some_iff.1 hb
  have hl := hbefore l hl
  rw [List.getElem_zipIdx] at hl
  simpa using hl

theorem find?_zipIdx_eq_none {xs : List α} {q : α → Bool}
    (h : xs.zipIdx.find? (fun (b, _) => q b) = none) : ∀ a ∈ xs, q a = false := by
  intro a ha
  obtain ⟨i, hi⟩ := List.getElem?_of_mem ha
  have hmem : (a, i) ∈ xs.zipIdx := List.mk_mem_zipIdx_iff_getElem?.2 hi
  simpa using List.find?_eq_none.1 h _ hmem

/-! ## Selection -/

namespace MethodGroup

variable {g : MethodGroup} {measure : Measure} {wanted : Nat} {policy : MissPolicy} {s : Selection}

/-- The selected overload is the only one of the group, or it has the wanted count and none before
it has. -/
structure Fits (g : MethodGroup) (measure : Measure) (wanted : Nat) (s : Selection) : Prop where
  located : g.methods[s.index]? = some s.method
  fits : g.size = 1 ∨ measure.count s.method = wanted ∧
    ∀ k < s.index, ∀ m, g.methods[k]? = some m → measure.count m ≠ wanted

/-- There are overloads to choose from, and none has the wanted count. -/
structure Misfit (g : MethodGroup) (measure : Measure) (wanted : Nat) : Prop where
  several : 2 ≤ g.size
  counts : ∀ m ∈ g.methods, measure.count m ≠ wanted

/-- What a selection can be: none from the empty group, a match that fits, or the first overload of
a group without one. -/
theorem select?_cases (g : MethodGroup) (measure : Measure) (wanted : Nat) :
    (g.methods = [] ∧ g.select? measure wanted = none) ∨
      (∃ s, g.select? measure wanted = some s ∧ s.matched = true ∧ g.Fits measure wanted s) ∨
      ∃ first rest, g.methods = first :: rest ∧ g.Misfit measure wanted ∧
        g.select? measure wanted = some ⟨first, 0, false⟩ := by
  unfold select?
  split
  · rename_i hnil
    exact .inl ⟨hnil, rfl⟩
  · rename_i m hsole
    refine .inr (.inl ⟨_, rfl, rfl, ?_, .inl ?_⟩)
    · rw [hsole]
      rfl
    · rw [size, hsole]
      rfl
  · rename_i first rest hne hmethods
    split
    · rename_i m i hfind
      obtain ⟨hget, hcount, hbefore⟩ :=
        find?_zipIdx_eq_some (q := (measure.count · == wanted)) hfind
      refine .inr (.inl ⟨_, rfl, rfl, ?_, .inr ⟨beq_iff_eq.1 hcount, fun k hk m' hm' => ?_⟩⟩)
      · rw [hmethods, hget]
      · rw [hmethods] at hm'
        exact beq_eq_false_iff_ne.1 (hbefore k hk m' hm')
    · rename_i hfind
      refine .inr (.inr ⟨first, rest, hmethods, ⟨?_, fun m hm => ?_⟩, rfl⟩)
      · rw [size, hmethods]
        cases rest with
        | nil => exact absurd rfl hne
        | cons second rest => exact Nat.le_add_left 2 rest.length
      · rw [hmethods] at hm
        exact beq_eq_false_iff_ne.1
          (find?_zipIdx_eq_none (q := (measure.count · == wanted)) hfind m hm)

/-- The notices that go with a selection under a policy. -/
def notices (g : MethodGroup) (measure : Measure) (wanted : Nat) (policy : MissPolicy) :
    List Warning :=
  match g.pick measure wanted policy with
  | .ok s => (g.notice? measure wanted s).toList
  | .error _ => []

theorem pick_of_matched (h : g.select? measure wanted = some s) (hs : s.matched = true)
    (policy : MissPolicy) :
    g.pick measure wanted policy = .ok s ∧ g.notices measure wanted policy = [] := by
  have hpick : g.pick measure wanted policy = .ok s := by
    rw [pick, h]
    simp only [hs, Bool.true_or, if_true]
  refine ⟨hpick, ?_⟩
  rw [notices, hpick]
  simp only [notice?, hs, if_true, Option.toList_none]

theorem pick_of_unmatched (h : g.select? measure wanted = some s) (hs : s.matched = false) :
    g.pick measure wanted .strict = .error (g.miss measure wanted) ∧
      g.pick measure wanted .fallback = .ok s ∧
      ∃ w, w.method = g.name ∧ w.fallback = s.method.signature ∧
        g.notices measure wanted .fallback = [w] := by
  have hpick : g.pick measure wanted .fallback = .ok s := by
    rw [pick, h]
    simp only [decide_true, Bool.or_true, if_true]
  refine ⟨?_, hpick, ?_⟩
  · rw [pick, h]
    simp [hs]
  · rw [notices, hpick]
    simp only [notice?, hs]
    exact ⟨_, rfl, rfl, rfl⟩

end MethodGroup

/-! ## The pipeline after selection -/

/-- The type arguments that a key of a cache stands for. -/
def Method.typeArgsOf (m : Method) (key : List Ty) : Measure → Except ResolutionError (List Ty)
  | .arguments => m.infer key
  | .typeArguments => .ok key

/-- Type arguments are wanting in a call only, for the first parameter whose slot is empty. -/
theorem Method.typeArgsOf_eq_error {m : Method} {key : List Ty} {measure : Measure}
    {e : ResolutionError} (h : m.typeArgsOf key measure = .error e) :
    measure = .arguments ∧ ∃ (i : Nat) (p : GenericParam), m.generics[i]? = some p ∧
      e = .unsolved m.name p.id.name ∧
      IsLeast {i | (m.inferSlots key)[i]? = some none} i := by
  cases measure with
  | arguments => exact ⟨rfl, exists_unsolved_of_infer h⟩
  | typeArguments => cases h

/-- What resolution ends in once it has selected the overload `m`. -/
def TypeSystem.outcomeOf (ts : TypeSystem) (measure : Measure) (m : Method) (key : List Ty) :
    Except ResolutionError Outcome :=
  if m.isGeneric then
    (m.typeArgsOf key measure >>= ts.closing m).map .closed
  else
    .ok .wholeGroup

/-- Behind the selection a generic method fails for want of its type arguments, or because it cannot
be closed over them. -/
theorem TypeSystem.outcomeOf_eq_error {ts : TypeSystem} {measure : Measure} {m : Method}
    {key : List Ty} {e : ResolutionError} (h : ts.outcomeOf measure m key = .error e) :
    m.isGeneric = true ∧ (m.typeArgsOf key measure = .error e ∨
      ∃ typeArgs source, m.typeArgsOf key measure = .ok typeArgs ∧
        ts.violation? m typeArgs = some source ∧ e = .refused m.name source) := by
  unfold outcomeOf at h
  split at h
  · rename_i hgeneric
    refine ⟨hgeneric, ?_⟩
    rw [map_eq_error_iff] at h
    cases hargs : m.typeArgsOf key measure with
    | error e' =>
      rw [hargs] at h
      cases h
      exact .inl rfl
    | ok typeArgs =>
      rw [hargs] at h
      change ts.closing m typeArgs = _ at h
      unfold closing at h
      split at h
      · rename_i source hsource
        cases h
        exact .inr ⟨typeArgs, source, rfl, hsource, rfl⟩
      · cases h
  · cases h

namespace Journal

variable (g : MethodGroup) (policy : MissPolicy) (j : Journal)

theorem warnings_after_pick (measure : Measure) (wanted : Nat) :
    (after (pick g measure wanted policy) j).warnings =
      j.warnings ++ g.notices measure wanted policy := by
  rw [pick, after_bind, answer_liftExcept, after_liftExcept, MethodGroup.notices]
  cases g.pick measure wanted policy with
  | ok s => rfl
  | error e => exact (List.append_nil _).symm

/-- What comes after the selection gives no notices of its own. -/
theorem warnings_after_pick_bind (measure : Measure) (wanted : Nat)
    {next : Selection → EStateM ResolutionError Journal α}
    (h : ∀ s, Keeps (·.warnings) (next s)) :
    (after (pick g measure wanted policy >>= next) j).warnings =
      j.warnings ++ g.notices measure wanted policy := by
  rw [after_bind, ← warnings_after_pick]
  cases answer (pick g measure wanted policy) j with
  | ok s => exact h s _
  | error e => rfl

theorem keeps_warnings_close (m : Method) (args : List Ty) :
    Keeps (·.warnings) (close m args) := by
  intro j
  rw [close, after_run]
  rfl

theorem warnings_after_resolveArguments (argTypes : List Ty) :
    (after (resolveArguments g policy argTypes) j).warnings =
      j.warnings ++ g.notices .arguments argTypes.length policy := by
  refine warnings_after_pick_bind g policy j _ _ fun s => ?_
  split
  · exact (keeps_liftExcept _).bind fun typeArgs =>
      (keeps_warnings_close s.method typeArgs).bind fun c => keeps_pure _
  · exact keeps_pure _

theorem warnings_after_resolveTypeArguments (typeArgs : List Ty) :
    (after (resolveTypeArguments g policy typeArgs) j).warnings =
      j.warnings ++ g.notices .typeArguments typeArgs.length policy := by
  refine warnings_after_pick_bind g policy j _ _ fun s => ?_
  split
  · exact (keeps_warnings_close s.method typeArgs).bind fun c => keeps_pure _
  · exact keeps_pure _

end Journal

namespace Proxy

variable (p : Proxy) (j : Journal) (key : List Ty) (measure : Measure)

theorem answer_pipeline :
    answer (p.pipeline key measure) j =
      p.group.pick measure key.length p.policy >>= fun s =>
        j.types.outcomeOf measure s.method key := by
  cases measure with
  | arguments =>
    rw [pipeline, Journal.answer_resolveArguments, TypeSystem.argumentOutcome]
    refine congrArg (Except.bind _) (funext fun s => ?_)
    unfold TypeSystem.outcomeOf
    split
    · rw [Method.typeArgsOf]
      cases s.method.infer key with
      | error e => rfl
      | ok typeArgs =>
        show (j.types.closing s.method typeArgs >>= _) = (j.types.closing s.method typeArgs).map _
        cases j.types.closing s.method typeArgs <;> rfl
    · rfl
  | typeArguments =>
    rw [pipeline, Journal.answer_resolveTypeArguments, TypeSystem.typeArgumentOutcome]
    refine congrArg (Except.bind _) (funext fun s => ?_)
    unfold TypeSystem.outcomeOf
    split
    · show (j.types.closing s.method key >>= _) = (j.types.closing s.method key).map _
      cases j.types.closing s.method key <;> rfl
    · rfl

theorem warnings_after_pipeline :
    (after (p.pipeline key measure) j).warnings =
      j.warnings ++ p.group.notices measure key.length p.policy := by
  cases measure with
  | arguments => exact Journal.warnings_after_resolveArguments p.group p.policy j key
  | typeArguments => exact Journal.warnings_after_resolveTypeArguments p.group p.policy j key

/-! ## New proxies -/

variable (g : MethodGroup) (typing : ValueTyping) (policy : MissPolicy) (op : Operation)

theorem cache_new : (new g typing policy).cache measure = .empty := by
  cases measure <;> rfl

/-- A new proxy answers with the pipeline. -/
theorem answer_perform_new :
    answer op.perform (new g typing policy, j) =
      (g.pick op.measure (op.key typing).length policy >>= fun s =>
        j.types.outcomeOf op.measure s.method (op.key typing)).map
          ((new g typing policy).target op.receiver) := by
  rw [answer_perform, demanded, cache_new, OnceMap.answer_demandApart, OnceMap.get?_empty]
  exact congrArg _ (answer_pipeline (new g typing policy) j (op.key typing) op.measure)

theorem warnings_after_perform_new :
    (after op.perform (new g typing policy, j)).2.warnings =
      j.warnings ++ g.notices op.measure (op.key typing).length policy := by
  rw [after_perform]
  show (after ((new g typing policy).demanded op) _).2.warnings = _
  rw [demanded, cache_new, OnceMap.after_demandApart_snd, OnceMap.get?_empty]
  exact warnings_after_pipeline (new g typing policy) j (op.key typing) op.measure

/-! ## One policy and the other -/

/-- A resolution that fails for want of an overload. -/
def Misses (r : Except ResolutionError α) : Prop :=
  ∃ method measure wanted available, r = .error (.noOverload method measure wanted available)

/-- The answer to an operation is that of the overload at an index: the whole group if the overload
is plain, and what the proxy over this overload alone answers if it is generic. -/
def Uses (p : Proxy) (j : Journal) (op : Operation) (index : Nat)
    (r : Except ResolutionError Target) : Prop :=
  ∃ m sole, p.group.methods[index]? = some m ∧ p.overload index = .ok sole ∧
    r = if m.isGeneric then answer op.perform (sole, j)
      else .ok (.group { p.group with receiver := op.receiver })

variable {p g typing policy op j}

theorem not_misses_outcomeOf (ts : TypeSystem) (measure : Measure) (m : Method) (key : List Ty) :
    ¬ Misses (ts.outcomeOf measure m key) := by
  rintro ⟨method, measure', wanted, available, h⟩
  obtain ⟨-, hargs | ⟨typeArgs, source, -, -, hrefused⟩⟩ := TypeSystem.outcomeOf_eq_error h
  · obtain ⟨-, i, param, -, hunsolved, -⟩ := Method.typeArgsOf_eq_error hargs
    cases hunsolved
  · cases hrefused

theorem misses_map {r : Except ResolutionError α} {f : α → β} : Misses (r.map f) ↔ Misses r := by
  simp only [Misses, map_eq_error_iff]

/-- An overload that has been selected is used. -/
theorem uses_of_located {m : Method} {index : Nat} (hm : g.methods[index]? = some m) :
    (new g typing policy).Uses j op index
      ((j.types.outcomeOf op.measure m (op.key typing)).map
        ((new g typing policy).target op.receiver)) := by
  have hmethods : (new g typing policy).group.methods[index]? = some m := hm
  refine ⟨m, new (.single m) typing policy, hmethods, ?_, ?_⟩
  · rw [overload, hmethods]
    rfl
  · rw [answer_perform_new]
    show _ = if m.isGeneric then
      (j.types.outcomeOf op.measure m (op.key typing)).map
        ((new (.single m) typing policy).target op.receiver) else _
    unfold TypeSystem.outcomeOf
    split
    · cases m.typeArgsOf (op.key typing) op.measure >>= j.types.closing m <;> rfl
    · rfl

/-- The two policies on one group, for calls and for instantiations, with new proxies over one type
system.  Unless the strict proxy misses, the other answers the same and gives no notice, and both
use the selected overload, which is the only one or the first with the wanted count.  Where the
strict proxy misses on a group with overloads, there are at least two, none with the wanted count,
and the other proxy gives just one notice and uses the first overload.  On the empty group both
miss. -/
theorem policy_decides_misses (g : MethodGroup) (typing : ValueTyping) (j : Journal)
    (op : Operation) :
    let wanted := (op.key typing).length
    let strict := answer op.perform (new g typing .strict, j)
    let fallback := answer op.perform (new g typing .fallback, j)
    let warnings := (after op.perform (new g typing .fallback, j)).2.warnings
    (¬ Misses strict →
        fallback = strict ∧ warnings = j.warnings ∧
          ∃ s, g.pick op.measure wanted .strict = .ok s ∧ g.Fits op.measure wanted s ∧
            (new g typing .strict).Uses j op s.index strict) ∧
      (Misses strict → ∀ first rest, g.methods = first :: rest →
        g.Misfit op.measure wanted ∧
          (∃ w, w.method = g.name ∧ w.fallback = first.signature ∧
            warnings = j.warnings ++ [w]) ∧
          (new g typing .fallback).Uses j op 0 fallback) ∧
      (g.methods = [] → Misses strict ∧ Misses fallback) := by
  intro wanted strict fallback warnings
  have hstrict : strict = _ := answer_perform_new j g typing .strict op
  have hfallback : fallback = _ := answer_perform_new j g typing .fallback op
  have hwarnings : warnings = _ := warnings_after_perform_new j g typing .fallback op
  rcases g.select?_cases op.measure wanted with
    ⟨hnil, hselect⟩ | ⟨s, hselect, hmatched, hfits⟩ | ⟨first, rest, hmethods, hmisfit, hselect⟩
  · have hpick : ∀ policy, g.pick op.measure wanted policy = .error (g.miss op.measure wanted) := by
      intro policy
      rw [MethodGroup.pick, hselect]
    rw [hpick] at hstrict hfallback
    have hmisses : Misses strict ∧ Misses fallback :=
      ⟨⟨_, _, _, _, hstrict⟩, ⟨_, _, _, _, hfallback⟩⟩
    refine ⟨fun h => absurd hmisses.1 h, fun _ first rest hmethods => ?_, fun _ => hmisses⟩
    rw [hnil] at hmethods
    cases hmethods
  · obtain ⟨hpick, -⟩ := MethodGroup.pick_of_matched hselect hmatched .strict
    obtain ⟨hpick', hnotices⟩ := MethodGroup.pick_of_matched hselect hmatched .fallback
    rw [hpick] at hstrict
    rw [hpick'] at hfallback
    rw [hnotices, List.append_nil] at hwarnings
    have hhit : ¬ Misses strict := by
      rw [hstrict]
      exact fun h => not_misses_outcomeOf _ _ _ _ (misses_map.1 h)
    refine ⟨fun _ => ⟨hfallback.trans hstrict.symm, hwarnings, s, hpick, hfits, ?_⟩,
      fun h => absurd h hhit, fun hnil => ?_⟩
    · rw [hstrict]
      exact uses_of_located hfits.located
    · have hlocated := hfits.located
      rw [hnil] at hlocated
      cases hlocated
  · obtain ⟨hpick, hpick', w, hmethod, hsignature, hnotices⟩ :=
      MethodGroup.pick_of_unmatched hselect rfl
    rw [hpick] at hstrict
    rw [hpick'] at hfallback
    rw [hnotices] at hwarnings
    have hmisses : Misses strict := ⟨_, _, _, _, hstrict⟩
    refine ⟨fun h => absurd hmisses h, fun _ first' rest' hmethods' => ?_, fun hnil => ?_⟩
    · rw [hmethods] at hmethods'
      cases hmethods'
      refine ⟨hmisfit, ⟨w, hmethod, hsignature, hwarnings⟩, ?_⟩
      rw [hfallback]
      refine uses_of_located (m := first) ?_
      rw [hmethods]
      rfl
    · rw [hmethods] at hnil
      cases hnil

/-- A generic method beside a plain overload with two formals.  A call with one argument fits the
first, on both proxies, and one with three arguments fits neither: the strict proxy misses, and the
other closes the generic method. -/
theorem policy_decides_misses_threeArguments :
    let number : Ty := .con ⟨"Demo", "Number"⟩
    let t : Placeholder := ⟨"T", 0, .method⟩
    let wrap : Method := {
      name := "Wrap", handle := 1, formals := [⟨"x", .param t []⟩], generics := [⟨t, []⟩] }
    let plain : Method := {
      name := "Wrap", handle := 2, formals := [⟨"x", number⟩, ⟨"y", number⟩] }
    let group : MethodGroup := { name := "Wrap", methods := [wrap, plain] }
    let answered (policy : MissPolicy) (argTypes : List Ty) : Except ResolutionError Target :=
      answer (Operation.resolveTypes argTypes none).perform (new group default policy, {})
    let noticed (argTypes : List Ty) : List Warning :=
      (after (Operation.resolveTypes argTypes none).perform
        (new group default .fallback, {})).2.warnings
    ¬ Misses (answered .strict [number]) ∧
      answered .fallback [number] = answered .strict [number] ∧ noticed [number] = [] ∧
      Misses (answered .strict [number, number, number]) ∧
      answered .fallback [number, number, number] = .ok (.method (wrap.close [number]) none) ∧
      (noticed [number, number, number]).map (·.fallback) = [wrap.signature] := by
  intro number t wrap plain group answered noticed
  have hhit : answered .strict [number] = .ok (.method (wrap.close [number]) none) := by
    simp only [answered, group, wrap, plain, t, number]
    rfl
  have hmiss : answered .strict [number, number, number] =
      .error (.noOverload "Wrap" .arguments 3 [1, 2]) := by
    simp only [answered, group, wrap, plain, t, number]
    rfl
  have hclosed : answer (Operation.resolveTypes [number, number, number] none).perform
      (new (.single wrap) default .fallback, {}) = .ok (.method (wrap.close [number]) none) := by
    simp only [wrap, t, number]
    rfl
  have hnot : ¬ Misses (answered .strict [number]) := by
    rintro ⟨_, _, _, _, h⟩
    rw [hhit] at h
    cases h
  obtain ⟨hsame, -, -⟩ := policy_decides_misses group default {} (.resolveTypes [number] none)
  obtain ⟨hequal, hquiet, -⟩ := hsame hnot
  obtain ⟨-, hfirst, -⟩ :=
    policy_decides_misses group default {} (.resolveTypes [number, number, number] none)
  have hmisses : Misses (answered .strict [number, number, number]) := ⟨_, _, _, _, hmiss⟩
  obtain ⟨-, ⟨w, -, hw, hwarnings⟩, m, sole, hm, hsole, huse⟩ := hfirst hmisses wrap [plain] rfl
  cases hm
  cases hsole
  refine ⟨hnot, hequal, hquiet, hmisses, huse.trans hclosed, ?_⟩
  show (noticed [number, number, number]).map (·.fallback) = [wrap.signature]
  have hnoticed : noticed [number, number, number] = [w] := hwarnings
  rw [hnoticed, List.map_singleton, hw]

end Proxy

end LateBinding
