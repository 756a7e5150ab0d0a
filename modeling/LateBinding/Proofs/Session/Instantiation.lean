import LateBinding.Proofs.Session.Provenance

/-!
# Instantiation of members

A `SessionState.Chain` leads from a member by instantiations to further members, with any events in
between.  It keeps the receiver.  An instantiation that selects a generic overload gives a member
over that one method, closed over the type arguments, and this is final: everything that a chain
leads to from there is over the same method, cannot fail and substitutes nothing
(`SessionState.instantiation_is_final`).
-/

namespace LateBinding

/-- The object that a target is bound to. -/
def Target.receiver : Target → Option ForeignObject
  | group g => g.receiver
  | method _ receiver => receiver

namespace Proxy

variable {s : Proxy × Journal} {op : Operation}

/-- The target of an operation is bound to the receiver of the operation. -/
theorem receiver_of_perform {target : Target} (hok : answer op.perform s = .ok target) :
    target.receiver = op.receiver := by
  rw [answer_perform s.1 s.2 op] at hok
  obtain ⟨o, -, rfl⟩ := map_eq_ok_iff.1 hok
  cases o <;> rfl

end Proxy

/-! ## Overloads selected by type arguments -/

/-- A method that was generic is not generic any more when it has been closed. -/
theorem TypeSystem.Admits.isGeneric_close {ts : TypeSystem} {m : Method} {args : List Ty}
    (h : ts.Admits m args) (hgeneric : m.isGeneric = true) : (m.close args).isGeneric = false := by
  have hlength := h.length
  cases args with
  | nil =>
    rw [List.length_nil, Method.typeArity, eq_comm, List.length_eq_zero_iff] at hlength
    rw [Method.isGeneric, hlength] at hgeneric
    cases hgeneric
  | cons a as => simp [Method.close, Method.isGeneric]

/-- What an instantiation comes to: a generic overload is closed over the type arguments, any other
one stands for the group. -/
theorem TypeSystem.outcomeOf_typeArguments_cases {ts : TypeSystem} {m : Method} {key : List Ty}
    {o : Outcome} (h : ts.outcomeOf .typeArguments m key = .ok o) :
    (m.isGeneric = true ∧ (m.close key).isGeneric = false ∧ o = .closed (m.close key)) ∨
      (m.isGeneric = false ∧ o = .wholeGroup) := by
  unfold outcomeOf at h
  split at h
  · rename_i hgeneric
    obtain ⟨c, hclosing, rfl⟩ := map_eq_ok_iff.1 h
    obtain ⟨⟨-, hadmits⟩, rfl⟩ := closing_eq_ok_iff.1 hclosing
    exact .inl ⟨hgeneric, hadmits.isGeneric_close hgeneric, rfl⟩
  · rename_i hgeneric
    cases h
    exact .inr ⟨by simpa using hgeneric, rfl⟩

/-! ## Members in an engine -/

namespace Member

variable {e : Engine} {m m' : Member} {typeArgs : List Ty} {args : List Value}

theorem answer_call (m : Member) (args : List Value) (e : Engine) :
    answer (m.call args) e =
      (answer (Proxy.Operation.perform (.resolve (m.fullArgs args) m.boundReceiver))
        (e.proxy m.proxy, e.toJournal)).map fun target => { target, args := m.fullArgs args } := by
  rw [call, onProxy, answer_run, Proxy.call, answer_bind_pure]
  rfl

theorem after_call (m : Member) (args : List Value) (e : Engine) :
    (after (m.call args) e).toJournal =
      (after (Proxy.Operation.perform (.resolve (m.fullArgs args) m.boundReceiver))
        (e.proxy m.proxy, e.toJournal)).2 := by
  rw [call, onProxy, after_run, Proxy.call, after_bind_pure]
  rfl

/-- A call carries the receiver on its target if the member is declared, and before the arguments if
it is an extension. -/
theorem call_carries {c : Call} (hok : answer (m.call args) e = .ok c) :
    (m.kind = .declared → c.target.receiver = some m.receiver ∧ c.args = args) ∧
      (m.kind = .extension →
        c.target.receiver = none ∧ c.args = .foreign m.receiver :: args) := by
  rw [answer_call] at hok
  obtain ⟨target, htarget, rfl⟩ := map_eq_ok_iff.1 hok
  have hreceiver : target.receiver = m.boundReceiver := Proxy.receiver_of_perform htarget
  refine ⟨fun hkind => ?_, fun hkind => ?_⟩
  · rw [boundReceiver, hkind] at hreceiver
    exact ⟨hreceiver, by rw [fullArgs, hkind]⟩
  · rw [boundReceiver, hkind] at hreceiver
    exact ⟨hreceiver, by rw [fullArgs, hkind]⟩

/-- What the proxy of a member answers to an instantiation. -/
def typeTarget (m : Member) (typeArgs : List Ty) (e : Engine) : Except ResolutionError Target :=
  answer (Proxy.Operation.perform (.instantiate typeArgs none)) (e.proxy m.proxy, e.toJournal)

/-- An instantiation is as its target.  Its member has a new proxy over the target. -/
theorem answer_instantiate (m : Member) (typeArgs : List Ty) (e : Engine) :
    answer (m.instantiate typeArgs) e =
      (m.typeTarget typeArgs e).map fun _ => { m with proxy := ⟨e.proxies.size⟩ } := by
  have hanswer : answer (m.onProxy (Proxy.instantiate typeArgs none)) e = m.typeTarget typeArgs e :=
    answer_run _ _ _
  cases htarget : m.typeTarget typeArgs e with
  | error err =>
    rw [htarget] at hanswer
    exact answer_bind_of_error hanswer
  | ok target =>
    rw [htarget] at hanswer
    have hrest := Engine.instantiateMember_of_target hanswer
    rw [answer_congr hrest, answer_bind_pure, Engine.answer_add, Engine.size_after_onProxy]
    rfl

theorem proxy_after_instantiate {target : Target}
    (htarget : m.typeTarget typeArgs e = .ok target) :
    e.proxies.size < (after (m.instantiate typeArgs) e).proxies.size ∧
      (after (m.instantiate typeArgs) e).proxy ⟨e.proxies.size⟩ =
        (e.proxy m.proxy).forGroup target.toGroup := by
  have hanswer : answer (m.onProxy (Proxy.instantiate typeArgs none)) e = .ok target :=
    (answer_run _ _ _).trans htarget
  have hrest := Engine.instantiateMember_of_target hanswer
  have hsize := Engine.size_after_onProxy (Proxy.instantiate typeArgs none) m.proxy e
  rw [after_congr hrest, after_bind_pure, ← hsize]
  exact ⟨Engine.size_lt_after_add _ _, by rw [Engine.proxy_after_add, if_pos rfl]⟩

/-- What a successful instantiation gives: the member with a new proxy.  The group of that is the
generic overload that was selected, closed over the type arguments, or else it has not changed. -/
theorem instantiate_cases (he : e.Genuine) (hok : answer (m.instantiate typeArgs) e = .ok m') :
    let p := e.proxy m.proxy
    let group := ((after (m.instantiate typeArgs) e).proxy m'.proxy).group
    m' = { m with proxy := m'.proxy } ∧
      m'.proxy.index < (after (m.instantiate typeArgs) e).proxies.size ∧
      ∃ s, p.group.pick .typeArguments typeArgs.length p.policy = .ok s ∧
        ((s.method.isGeneric = true ∧ (s.method.close typeArgs).isGeneric = false ∧
            group = .single (s.method.close typeArgs)) ∨
          (s.method.isGeneric = false ∧ group = p.group)) := by
  intro p group
  rw [answer_instantiate] at hok
  obtain ⟨target, htarget, rfl⟩ := map_eq_ok_iff.1 hok
  obtain ⟨hsize, hproxy⟩ := proxy_after_instantiate htarget
  obtain ⟨o, hanswers, rfl⟩ := Proxy.Genuine.answers_of_perform (he m.proxy) htarget
  obtain ⟨s, ts, hpick, houtcome⟩ := hanswers.exists_selection
  refine ⟨rfl, hsize, s, hpick, ?_⟩
  have hgroup : group = (p.target none o).toGroup.unbind := congrArg Proxy.group hproxy
  rcases TypeSystem.outcomeOf_typeArguments_cases houtcome with
    ⟨hgeneric, hclosed, rfl⟩ | ⟨hgeneric, rfl⟩
  · exact .inl ⟨hgeneric, hclosed, hgroup⟩
  · refine .inr ⟨hgeneric, hgroup.trans ?_⟩
    have hunbind : p.group = p.group.unbind := by
      rw [MethodGroup.unbind, ← (he m.proxy).unbound]
    exact hunbind.symm

variable {c : Method}

theorem instantiate_of_settled (he : e.Genuine) (h : (e.proxy m.proxy).Settled c)
    (typeArgs : List Ty) :
    answer (m.instantiate typeArgs) e = .ok { m with proxy := ⟨e.proxies.size⟩ } ∧
      ((after (m.instantiate typeArgs) e).proxy ⟨e.proxies.size⟩).group = .single c := by
  have htarget : m.typeTarget typeArgs e =
      .ok (.group { MethodGroup.single c with receiver := none }) :=
    (Proxy.Settled.perform h (he m.proxy) (.instantiate typeArgs none)).1
  refine ⟨?_, ?_⟩
  · rw [answer_instantiate, htarget]
    rfl
  · rw [(proxy_after_instantiate htarget).2]
    rfl

theorem call_of_settled (he : e.Genuine) (h : (e.proxy m.proxy).Settled c) (args : List Value) :
    answer (m.call args) e = .ok {
        target := .group { MethodGroup.single c with receiver := m.boundReceiver }
        args := m.fullArgs args } ∧
      (after (m.call args) e).types.substitutions = e.types.substitutions := by
  obtain ⟨hanswer, hsubstitutions⟩ := Proxy.Settled.perform (s := (e.proxy m.proxy, e.toJournal)) h
    (he m.proxy) (.resolve (m.fullArgs args) m.boundReceiver)
  refine ⟨?_, ?_⟩
  · rw [answer_call, hanswer]
    rfl
  · rw [after_call, hsubstitutions]

end Member

/-! ## Chains of instantiations -/

namespace SessionState

open Session (onEngine)

/-- From a member in a session, instantiations lead to a member in a later session.  Between them
anything can happen to the session. -/
inductive Chain (m : Member) (s : SessionState) : Member → SessionState → Prop
  | start : Chain m s m s
  | event {m' : Member} {s' : SessionState} (h : Chain m s m' s') (e : Event) :
      Chain m s m' (s'.step e)
  | instantiate {m' m'' : Member} {s' : SessionState} (h : Chain m s m' s') {typeArgs : List Ty}
      (hok : answer (onEngine (m'.instantiate typeArgs)) s' = .ok m'') :
      Chain m s m'' (after (onEngine (m'.instantiate typeArgs)) s')

variable {s s' : SessionState} {m m' : Member} {c : Method}

theorem answer_onEngine (act : EStateM ResolutionError Engine α) (s : SessionState) :
    answer (onEngine act) s = answer act s.engine :=
  (answer_run _ _ _).trans (answer_run _ _ _)

theorem engine_after_onEngine (act : EStateM ResolutionError Engine α) (s : SessionState) :
    (after (onEngine act) s).engine = after act s.engine := by
  rw [onEngine, after_run, after_run]
  rfl

theorem develops_instantiate (hs : s.Lawful) (m : Member) (typeArgs : List Ty) :
    s.Develops (after (onEngine (m.instantiate typeArgs)) s) :=
  develops_onEngine (Engine.develops_instantiateMember hs.genuine m typeArgs)

namespace Chain

theorem develops (h : Chain m s m' s') (hs : s.Lawful) : s.Develops s' := by
  induction h with
  | start => exact hs.refl
  | event _ e ih => exact ih.trans (develops_step (ih.lawful hs) e)
  | instantiate _ _ ih => exact ih.trans (develops_instantiate (ih.lawful hs) _ _)

/-- A chain keeps all of a member but its proxy. -/
theorem eq_with_proxy (h : Chain m s m' s') (hs : s.Lawful) :
    m' = { m with proxy := m'.proxy } := by
  induction h with
  | start => rfl
  | event _ _ ih => exact ih
  | instantiate h hok ih =>
    rw [answer_onEngine] at hok
    obtain ⟨hm'', -⟩ := Member.instantiate_cases ((h.develops hs).lawful hs).genuine hok
    rw [hm'', ih]

end Chain

/-- The member has a proxy of the session, over the one method `c`, which is not generic. -/
structure Final (c : Method) (m : Member) (s : SessionState) : Prop where
  known : m.proxy.index < s.engine.proxies.size
  settled : (s.engine.proxy m.proxy).Settled c

theorem Final.develops (h : Final c m s) (hdevelops : s.Develops s') : Final c m s' where
  known := Nat.lt_of_lt_of_le h.known hdevelops.engine.size
  settled := ⟨(hdevelops.engine.group_eq h.known).trans h.settled.1, h.settled.2⟩

theorem Final.instantiate (h : Final c m s) (hs : s.Lawful) {typeArgs : List Ty}
    (hok : answer (onEngine (m.instantiate typeArgs)) s = .ok m') :
    Final c m' (after (onEngine (m.instantiate typeArgs)) s) := by
  rw [answer_onEngine] at hok
  obtain ⟨-, hknown, -⟩ := Member.instantiate_cases hs.genuine hok
  obtain ⟨hanswer, hgroup⟩ := Member.instantiate_of_settled hs.genuine h.settled typeArgs
  rw [hanswer] at hok
  cases hok
  rw [← engine_after_onEngine] at hknown hgroup
  exact ⟨hknown, hgroup, h.settled.2⟩

theorem Final.chain (h : Final c m s) (hs : s.Lawful) (hchain : Chain m s m' s') :
    Final c m' s' := by
  induction hchain with
  | start => exact h
  | event hchain e ih => exact ih.develops (develops_step ((hchain.develops hs).lawful hs) e)
  | instantiate hchain hok ih => exact ih.instantiate ((hchain.develops hs).lawful hs) hok

/-- What a chain leads to from there can be instantiated with anything and called with anything. -/
theorem Final.serves (h : Final c m s) (hs : s.Lawful) (hchain : Chain m s m' s') :
    (s'.engine.proxy m'.proxy).group = .single c ∧
      (∀ typeArgs, ∃ m'', answer (onEngine (m'.instantiate typeArgs)) s' = .ok m'') ∧
      ∀ args,
        answer (onEngine (m'.call args)) s' = .ok {
          target := .group { MethodGroup.single c with receiver := m.boundReceiver }
          args := m.fullArgs args } ∧
        (after (onEngine (m'.call args)) s').engine.types.substitutions =
          s'.engine.types.substitutions := by
  have hsettled := (h.chain hs hchain).settled
  have hgenuine := ((hchain.develops hs).lawful hs).genuine
  refine ⟨hsettled.1, fun typeArgs => ?_, fun args => ?_⟩
  · rw [answer_onEngine]
    exact ⟨_, (Member.instantiate_of_settled hgenuine hsettled typeArgs).1⟩
  · have hcall := Member.call_of_settled hgenuine hsettled args
    rw [answer_onEngine, engine_after_onEngine]
    -- What a call takes from the member does not depend on its proxy.
    rw [hchain.eq_with_proxy hs] at hcall ⊢
    exact hcall

/-- Instantiation is final and keeps the receiver.  A session is built from any plan with lawful
strategies, over any type system, goes through any events and then answers a request with a member;
a chain of instantiations leads on from there, with any events in between.  The receiver stays, and
a call carries it on its target for a declared member, and once before the arguments for an
extension member.  If one more instantiation selects an overload that is not generic, then the group
is the same from then on.  If it selects a generic one, then all that a chain leads to has the group
of this one method, closed over the type arguments; every instantiation succeeds, and every call
succeeds with this group and substitutes nothing. -/
theorem instantiation_is_final (plan : SessionPlan) (ts : TypeSystem)
    (hlawful : ∀ x ∈ (plan.build ts).strategies, x.Lawful) (events : List Event) (r : Request)
    (m : Member) :
    let start : SessionState := { session := plan.build ts, engine := { types := ts } }
    let s := start.follow events
    answer (Session.perform r) s = .ok (.member m) →
    ∀ m' s', Chain m (after (Session.perform r) s) m' s' →
      (m'.receiver = m.receiver ∧ m'.kind = m.kind) ∧
      (∀ args call, answer (onEngine (m'.call args)) s' = .ok call →
        (m.kind = .declared → call.target.receiver = some m.receiver ∧ call.args = args) ∧
        (m.kind = .extension →
          call.target.receiver = none ∧ call.args = .foreign m.receiver :: args)) ∧
      ∀ typeArgs m'', answer (onEngine (m'.instantiate typeArgs)) s' = .ok m'' →
        let s'' := after (onEngine (m'.instantiate typeArgs)) s'
        let p := s'.engine.proxy m'.proxy
        ∃ selected, p.group.pick .typeArguments typeArgs.length p.policy = .ok selected ∧
          (selected.method.isGeneric = false →
            ∀ later, ((s''.follow later).engine.proxy m''.proxy).group = p.group) ∧
          (selected.method.isGeneric = true →
            let closed := MethodGroup.single (selected.method.close typeArgs)
            ∀ m₁ s₁, Chain m'' s'' m₁ s₁ →
              (s₁.engine.proxy m₁.proxy).group = closed ∧
              (∀ more, ∃ m₂, answer (onEngine (m₁.instantiate more)) s₁ = .ok m₂) ∧
              ∀ args,
                answer (onEngine (m₁.call args)) s₁ = .ok {
                  target := .group { closed with receiver := m.boundReceiver }
                  args := m.fullArgs args } ∧
                (after (onEngine (m₁.call args)) s₁).engine.types.substitutions =
                  s₁.engine.types.substitutions) := by
  intro start s hm m' s' hchain
  have hstart : start.Lawful := lawful_new hlawful _
  have hs : s.Lawful := (develops_follow hstart events).lawful hstart
  have hfound := (develops_perform hs r).lawful hs
  have hs' : s'.Lawful := (hchain.develops hfound).lawful hfound
  have hkept := hchain.eq_with_proxy hfound
  refine ⟨by rw [hkept]; exact ⟨rfl, rfl⟩, fun args call hcall => ?_, fun typeArgs m'' hok => ?_⟩
  · rw [answer_onEngine] at hcall
    have hcarries := Member.call_carries hcall
    rw [hkept] at hcarries
    exact hcarries
  · intro s'' p
    have hdevelops : s'.Develops s'' := develops_instantiate hs' m' typeArgs
    have hs'' : s''.Lawful := hdevelops.lawful hs'
    have hengine : s''.engine = after (m'.instantiate typeArgs) s'.engine :=
      engine_after_onEngine _ _
    rw [answer_onEngine] at hok
    obtain ⟨hm'', hknown, selected, hpick, hcases⟩ := Member.instantiate_cases hs'.genuine hok
    rw [← hengine] at hknown hcases
    refine ⟨selected, hpick, fun hplain later => ?_, fun hgeneric => ?_⟩
    · rw [(develops_follow hs'' later).engine.group_eq hknown]
      rcases hcases with ⟨hgeneric, -⟩ | ⟨-, hgroup⟩
      · rw [hgeneric] at hplain
        cases hplain
      · exact hgroup
    · intro closed m₁ s₁ hchain₁
      rcases hcases with ⟨-, hclosed, hgroup⟩ | ⟨hplain, -⟩
      · have hfinal : Final _ m'' s'' := ⟨hknown, hgroup, hclosed⟩
        have hserves := hfinal.serves hs'' hchain₁
        rw [hm'', hkept] at hserves
        exact hserves
      · rw [hgeneric] at hplain
        cases hplain

/-- A plain overload beside a generic one.  No type arguments select the plain one, so the group of
the new member is as before; one selects the generic one, and the next member is final. -/
theorem instantiation_is_final_overloads :
    let box : Ty := .con ⟨"Demo", "Box"⟩
    let number : Ty := .con ⟨"System", "Int32"⟩
    let put : Signature := {
      name := "Put"
      formals := [⟨"x", .param ⟨"T", 0, .method⟩ []⟩]
      generics := [⟨⟨"T", 0, .method⟩, []⟩] }
    let ts := ((({} : TypeSystem).declare box { name := "Put" }).2.declare box put).2
    let plan : SessionPlan := {}
    let start : SessionState := { session := plan.build ts, engine := { types := ts } }
    let thing : ForeignObject := ⟨box, 1⟩
    let member (i : Nat) : Member := { kind := .declared, proxy := ⟨i⟩, receiver := thing }
    let found := after (Session.perform (.find thing "Put")) start
    let plain := after (onEngine ((member 0).instantiate [])) found
    let generic := after (onEngine ((member 1).instantiate [number])) plain
    (∀ x ∈ (plan.build ts).strategies, x.Lawful) ∧
      answer (Session.perform (.find thing "Put")) start = .ok (.member (member 0)) ∧
      answer (onEngine ((member 0).instantiate [])) found = .ok (member 1) ∧
      (∀ later, ((plain.follow later).engine.proxy ⟨1⟩).group =
        (found.engine.proxy ⟨0⟩).group) ∧
      answer (onEngine ((member 1).instantiate [number])) plain = .ok (member 2) ∧
      ∃ closed, (generic.engine.proxy ⟨2⟩).group = .single closed ∧ closed.typeArgs = [number] ∧
        (∀ more, ∃ m, answer (onEngine ((member 2).instantiate more)) generic = .ok m) ∧
        ∀ args, answer (onEngine ((member 2).call args)) generic = .ok {
          target := .group { MethodGroup.single closed with receiver := some thing }
          args } := by
  intro box number put ts plan start thing member found plain generic
  have hlawful : ∀ x ∈ (plan.build ts).strategies, x.Lawful := by
    intro x hx
    have hdefault : x ∈ Strategy.defaults plan.settings := hx
    exact Strategy.lawful_of_mem_defaults hdefault
  obtain ⟨hfound, hplain, hgeneric, hfirst, hsecond⟩ :
      answer (Session.perform (.find thing "Put")) start = .ok (.member (member 0)) ∧
        answer (onEngine ((member 0).instantiate [])) found = .ok (member 1) ∧
        answer (onEngine ((member 1).instantiate [number])) plain = .ok (member 2) ∧
        ((found.engine.proxy (member 0).proxy).group.pick .typeArguments ([] : List Ty).length
          (found.engine.proxy (member 0).proxy).policy).map (·.method.isGeneric) = .ok false ∧
        ((plain.engine.proxy (member 1).proxy).group.pick .typeArguments [number].length
          (plain.engine.proxy (member 1).proxy).policy).map (·.method.isGeneric) = .ok true := by
    simp only [plain, found, start, plan, member, thing, ts, put, box, number, SessionPlan.build,
      Strategy.defaults, Strategy.declared, TypeSystem.declaredMethods?,
      TypeSystem.baseChain_eq_within]
    exact ⟨rfl, rfl, rfl, rfl, rfl⟩
  have hchain := instantiation_is_final plan ts hlawful [] (.find thing "Put") (member 0) hfound
  obtain ⟨-, -, hfrom⟩ := hchain (member 0) found .start
  obtain ⟨-, -, hfrom'⟩ := hchain (member 1) plain (.instantiate .start hplain)
  obtain ⟨selected, hpick, hsame, -⟩ := hfrom [] (member 1) hplain
  obtain ⟨selected', hpick', -, hfinal⟩ := hfrom' [number] (member 2) hgeneric
  rw [hpick] at hfirst
  rw [hpick'] at hsecond
  obtain ⟨hgroup, hinstantiates, hcalls⟩ :=
    hfinal (Except.ok.inj hsecond) (member 2) generic .start
  exact ⟨hlawful, hfound, hplain, hsame (Except.ok.inj hfirst), hgeneric,
    selected'.method.close [number], hgroup, rfl, hinstantiates, fun args => (hcalls args).1⟩

end SessionState

end LateBinding
