import LateBinding.Proofs.Resolution.Policy
import LateBinding.Proofs.Session.Events

/-!
# Where the entries of proxies come from

A proxy is genuine if it is unbound and its caches hold nothing but what the pipeline has answered
for its group, on whatever tables there were at the time (`Proxy.Genuine`).  New proxies are, and
every operation keeps them so.  In a session whose strategies do no more than a holder of the
session could (`Strategy.Lawful`), every event leaves genuine proxies that retain what they have
(`SessionState.develops_follow`), and the tables may change in between.
-/

namespace LateBinding

/-! ## Genuine proxies -/

namespace Proxy

/-- What the pipeline answers for a key of a cache, on some tables. -/
def Answers (p : Proxy) (measure : Measure) (key : List Ty) (o : Outcome) : Prop :=
  ∃ j, answer (p.pipeline key measure) j = .ok o

/-- The proxy is unbound and its caches hold answers of the pipeline. -/
structure Genuine (p : Proxy) : Prop where
  unbound : p.group.receiver = none
  held : ∀ measure, (p.cache measure).Holds (p.Answers measure)

variable {p p' : Proxy} {measure : Measure} {key key' : List Ty} {o : Outcome}

theorem Answers.of_beq (h : p.Answers measure key o) (hkey : key == key') :
    p.Answers measure key' o := by
  obtain ⟨j, hj⟩ := h
  refine ⟨j, ?_⟩
  cases measure with
  | arguments =>
    rw [pipeline, Journal.answer_resolveArguments] at hj ⊢
    exact TypeSystem.argumentOutcome_of_beq hkey hj
  | typeArguments =>
    rw [pipeline, Journal.answer_resolveTypeArguments] at hj ⊢
    exact TypeSystem.typeArgumentOutcome_of_beq hkey hj

/-- The pipeline selects an overload and answers for that. -/
theorem Answers.exists_selection (h : p.Answers measure key o) :
    ∃ (s : Selection) (ts : TypeSystem), p.group.pick measure key.length p.policy = .ok s ∧
      ts.outcomeOf measure s.method key = .ok o := by
  obtain ⟨j, hj⟩ := h
  rw [answer_pipeline] at hj
  cases hpick : p.group.pick measure key.length p.policy with
  | error e =>
    rw [hpick] at hj
    cases hj
  | ok s =>
    rw [hpick] at hj
    exact ⟨s, j.types, rfl, hj⟩

theorem answers_of_forget (h : p'.forget = p.forget) : p'.Answers = p.Answers := by
  have hforget : ∀ q : Proxy, q.forget.Answers = q.Answers := fun q => by
    funext measure key o
    cases measure <;> rfl
  rw [← hforget, h, hforget]

theorem genuine_new (group : MethodGroup) (typing : ValueTyping) (policy : MissPolicy) :
    (new group typing policy).Genuine where
  unbound := rfl
  held measure := by cases measure <;> exact OnceMap.holds_empty _

theorem genuine_default : (default : Proxy).Genuine where
  unbound := rfl
  held measure := by cases measure <;> exact OnceMap.holds_empty _

theorem Genuine.wellFormed (h : p.Genuine) : p.WellFormed := fun measure =>
  (h.held measure).wellFormed

variable {s : Proxy × Journal} {op : Operation}

/-- What an operation demands is an answer of the pipeline, found in the cache or made now. -/
theorem Genuine.answers_of_demanded (h : s.1.Genuine)
    (hok : answer (s.1.demanded op) (s.1.cache op.measure, s.2) = .ok o) :
    s.1.Answers op.measure (op.key s.1.typing) o := by
  rw [demanded, OnceMap.answer_demandApart] at hok
  cases hget : (s.1.cache op.measure).get? (op.key s.1.typing) with
  | none =>
    rw [hget] at hok
    exact ⟨s.2, hok⟩
  | some o' =>
    rw [hget] at hok
    cases hok
    exact (h.held op.measure).holds _ _ hget

theorem Genuine.perform (h : s.1.Genuine) (op : Operation) : (after op.perform s).1.Genuine where
  unbound := by
    rw [group_eq_of_forget (forget_after_perform op s)]
    exact h.unbound
  held measure := by
    rw [answers_of_forget (forget_after_perform op s), cache_after_perform]
    split
    · rename_i hmeasure
      subst hmeasure
      exact (h.held op.measure).after_demandApart (fun _ _ _ hkey ho => ho.of_beq hkey) _ _ _
        fun _ ho => ⟨s.2, ho⟩
    · exact h.held measure

/-- A successful operation comes to an answer of the pipeline, bound to its receiver. -/
theorem Genuine.answers_of_perform (h : s.1.Genuine) {target : Target}
    (hok : answer op.perform s = .ok target) :
    ∃ o, s.1.Answers op.measure (op.key s.1.typing) o ∧ target = s.1.target op.receiver o := by
  rw [answer_perform s.1 s.2 op] at hok
  obtain ⟨o, hdemand, rfl⟩ := map_eq_ok_iff.1 hok
  exact ⟨o, h.answers_of_demanded hdemand, rfl⟩

/-! ### Groups of one method that is not generic -/

/-- The group consists of one method, which is not generic. -/
def Settled (p : Proxy) (m : Method) : Prop :=
  p.group = .single m ∧ m.isGeneric = false

variable {m : Method}

theorem Settled.answer_pipeline (h : p.Settled m) (key : List Ty) (measure : Measure)
    (j : Journal) : answer (p.pipeline key measure) j = .ok .wholeGroup := by
  obtain ⟨hgroup, hgeneric⟩ := h
  have hpick : (MethodGroup.single m).pick measure key.length p.policy = .ok ⟨m, 0, true⟩ :=
    (MethodGroup.pick_of_matched rfl rfl p.policy).1
  rw [Proxy.answer_pipeline, hgroup, hpick]
  show j.types.outcomeOf measure m key = _
  rw [TypeSystem.outcomeOf, hgeneric]
  rfl

/-- On such a proxy every operation succeeds with the group, and nothing is substituted. -/
theorem Settled.perform (h : s.1.Settled m) (hs : s.1.Genuine) (op : Operation) :
    answer op.perform s = .ok (.group { MethodGroup.single m with receiver := op.receiver }) ∧
      (after op.perform s).2.types.substitutions = s.2.types.substitutions := by
  let key := op.key s.1.typing
  have hpipeline := h.answer_pipeline key op.measure
  have hdemand : answer (s.1.demanded op) (s.1.cache op.measure, s.2) = .ok .wholeGroup := by
    rw [demanded, OnceMap.answer_demandApart]
    cases hget : (s.1.cache op.measure).get? key with
    | none => exact hpipeline s.2
    | some o =>
      obtain ⟨j, hj⟩ := (hs.held op.measure).holds _ _ hget
      rw [hpipeline] at hj
      exact hj.symm
  refine ⟨?_, ?_⟩
  · rw [answer_perform s.1 s.2 op, hdemand, ← h.1]
    rfl
  · have hpays := s.1.pays_pipeline key op.measure s.2
    rw [hpipeline] at hpays
    rw [after_perform s.1 s.2 op]
    show (after (s.1.demanded op) (s.1.cache op.measure, s.2)).2.types.substitutions = _
    rw [demanded, OnceMap.after_demandApart_snd]
    cases (s.1.cache op.measure).get? key with
    | none => exact hpays
    | some o => rfl

end Proxy

/-! ## Engines -/

namespace Engine

/-- All proxies are genuine. -/
def Genuine (e : Engine) : Prop := ∀ id, (e.proxy id).Genuine

/-- The later engine has the proxies of the earlier one with all that they remember, and all its
proxies are genuine. -/
structure Develops (e e' : Engine) : Prop extends Retains e e' where
  genuine : e'.Genuine

variable {e e' e'' : Engine}

theorem Genuine.wellFormed (h : e.Genuine) : e.WellFormed := fun id => (h id).wellFormed

theorem Develops.refl (he : e.Genuine) : e.Develops e := ⟨.refl e, he⟩

theorem Develops.trans (h : e.Develops e') (h' : e'.Develops e'') : e.Develops e'' :=
  ⟨h.toRetains.trans h'.toRetains, h'.genuine⟩

theorem Develops.group_eq (h : e.Develops e') {id : ProxyId} (hid : id.index < e.proxies.size) :
    (e'.proxy id).group = (e.proxy id).group :=
  Proxy.group_eq_of_forget (h.proxy id hid).forget

theorem develops_onProxy (he : e.Genuine)
    {act : EStateM ResolutionError (Proxy × Journal) α} (h : Proxy.Accumulates act)
    (hgenuine : ∀ s : Proxy × Journal, s.1.Genuine → (after act s).1.Genuine) (id : ProxyId) :
    e.Develops (after ((proxyPart id).run act) e) where
  toRetains := (continues_onProxy he.wellFormed h id).toRetains
  genuine k := by
    rw [after_run, proxy_put]
    split
    · exact hgenuine (e.proxy id, e.toJournal) (he id)
    · exact he k

theorem develops_perform (he : e.Genuine) (op : Proxy.Operation) (id : ProxyId) :
    e.Develops (after ((proxyPart id).run op.perform) e) :=
  develops_onProxy he (Proxy.accumulates_perform op) (fun _ hs => hs.perform op) id

theorem develops_callMember (he : e.Genuine) (m : Member) (args : List Value) :
    e.Develops (after (m.call args) e) := by
  refine develops_onProxy he (Proxy.accumulates_call _ _) (fun s hs => ?_) m.proxy
  rw [Proxy.call, after_bind_pure]
  exact hs.perform (.resolve (m.fullArgs args) m.boundReceiver)

theorem develops_add (he : e.Genuine) {p : Proxy} (hp : p.Genuine) :
    e.Develops (after (add p : EStateM ResolutionError Engine ProxyId) e) where
  toRetains := (continues_add he.wellFormed hp.wellFormed).toRetains
  genuine id := by
    rw [proxy_after_add]
    split
    · exact hp
    · exact he id

theorem develops_instantiateMember (he : e.Genuine) (m : Member) (typeArgs : List Ty) :
    e.Develops (after (m.instantiate typeArgs) e) := by
  have hproxy := develops_perform he (.instantiate typeArgs none) m.proxy
  refine rel_after_bind (r := Develops) Develops.trans hproxy fun target _ => ?_
  refine rel_after_bind (r := Develops) Develops.trans (.refl hproxy.genuine) fun e' _ => ?_
  rw [after_bind_pure]
  exact develops_add hproxy.genuine (Proxy.genuine_new _ _ _)

theorem develops_overload (he : e.Genuine) (id : ProxyId) (index : Nat) :
    e.Develops (after (overload id index) e) := by
  refine rel_after_bind (r := Develops) Develops.trans (.refl he) fun e' _ => ?_
  rw [after_get]
  refine rel_after_bind (r := Develops) Develops.trans ?_ fun p hp => ?_
  · rw [after_liftExcept]
    exact .refl he
  · rw [after_liftExcept]
    rw [answer_liftExcept, Proxy.overload] at hp
    split at hp
    · cases hp
      exact develops_add he (Proxy.genuine_new _ _ _)
    · cases hp

end Engine

/-! ## Strategies -/

namespace Workspace

/-- The engine of the later workspace develops that of the earlier one. -/
def Develops (w w' : Workspace) : Prop := w.engine.Develops w'.engine

variable {w w' w'' : Workspace}

theorem Develops.trans (h : w.Develops w') (h' : w'.Develops w'') : w.Develops w'' :=
  Engine.Develops.trans h h'

theorem Develops.refl (hw : w.engine.Genuine) : w.Develops w := Engine.Develops.refl hw

theorem develops_newProxy (hw : w.engine.Genuine) (g : MethodGroup) :
    w.Develops (after (newProxy g : EStateM ResolutionError Workspace ProxyId) w) := by
  rw [newProxy, after_bind, answer_get, after_get]
  simp only
  rw [after_run]
  exact Engine.develops_add hw (Proxy.genuine_new _ _ _)

theorem develops_proxyFor (hw : w.engine.Genuine) (key : ProxyKey) (g : MethodGroup) :
    w.Develops (after (proxyFor key g : EStateM ResolutionError Workspace ProxyId) w) := by
  rw [after_proxyFor]
  show w.engine.Develops (after _ (w.catalog.interned, w.engine)).2
  rw [OnceMap.after_demandApart_snd]
  cases w.catalog.interned.get? key with
  | some id => exact .refl hw
  | none => exact Engine.develops_add hw (Proxy.genuine_new _ _ _)

theorem develops_findExtension (hw : w.engine.Genuine) (receiver : ForeignObject)
    (member : String) : w.Develops (after (findExtension receiver member) w) := by
  unfold findExtension
  cases receiver.ty.name? with
  | none => exact .refl hw
  | some n =>
    refine rel_after_bind (r := Develops) Develops.trans (.refl hw) fun w' _ => ?_
    rw [after_get]
    have hlookup : w.Develops
        (after (memoPart.run (w'.catalog.index.resolveOnce w'.engine.types receiver.ty member))
          w) := by
      rw [after_run]
      exact Engine.Develops.refl hw
    refine rel_after_bind (r := Develops) Develops.trans hlookup fun methods _ => ?_
    rw [after_bind_pure]
    exact develops_proxyFor hlookup.genuine _ _

end Workspace

namespace Strategy

/-- A strategy that leaves genuine proxies genuine and takes nothing from them, whatever it is asked
for. -/
def Lawful (x : Strategy) : Prop := ∀ receiver member (w : Workspace), w.engine.Genuine →
  w.Develops (after (x.find receiver member) w)

open Workspace (Develops)

theorem lawful_declared : declared.Lawful := by
  intro receiver member w hw
  refine rel_after_bind (r := Develops) Develops.trans (.refl hw) fun w' _ => ?_
  rw [after_get]
  cases w'.engine.types.declaredMethods? receiver.ty member with
  | none => exact Develops.refl hw
  | some methods =>
    simp only
    rw [after_bind_pure]
    exact Workspace.develops_proxyFor hw _ _

theorem lawful_extension : extension.Lawful := by
  intro receiver member w hw
  rw [Workspace.after_extension_find]
  exact Workspace.develops_findExtension hw receiver member

theorem lawful_forMember (name answered : String) (answer : Except ResolutionError MethodGroup) :
    (forMember name answered answer).Lawful := by
  intro receiver member w hw
  unfold forMember
  simp only
  split
  · refine rel_after_bind (r := Develops) Develops.trans ?_ fun g _ => ?_
    · rw [after_liftExcept]
      exact .refl hw
    · rw [after_liftExcept, after_bind_pure]
      exact Workspace.develops_newProxy hw g
  · exact Develops.refl hw

theorem lawful_of_mem_defaults {settings : Settings} {x : Strategy} (hx : x ∈ defaults settings) :
    x.Lawful := by
  have hbuiltin : x = declared ∨ x = extension := by
    unfold defaults at hx
    split at hx <;> simp_all
  rcases hbuiltin with rfl | rfl
  · exact lawful_declared
  · exact lawful_extension

theorem develops_firstOf {strategies : List Strategy} (h : ∀ x ∈ strategies, x.Lawful)
    (receiver : ForeignObject) (member : String) {w : Workspace} (hw : w.engine.Genuine) :
    w.Develops (after (firstOf strategies receiver member) w) := by
  induction strategies generalizing w with
  | nil => exact Develops.refl hw
  | cons x xs ih =>
    obtain ⟨hx, hxs⟩ := List.forall_mem_cons.1 h
    have hfind := hx receiver member w hw
    refine rel_after_bind (r := Develops) Develops.trans hfind fun found _ => ?_
    cases found with
    | some m => exact Develops.refl hfind.genuine
    | none => exact ih hxs hfind.genuine

end Strategy

/-! ## Sessions -/

namespace SessionState

/-- All strategies are lawful, and all proxies are genuine. -/
structure Lawful (s : SessionState) : Prop where
  strategies : ∀ x ∈ s.session.strategies, x.Lawful
  genuine : s.engine.Genuine

/-- The later session has the strategies of the earlier one, and its engine develops that one's. -/
structure Develops (s s' : SessionState) : Prop where
  strategies : s'.session.strategies = s.session.strategies
  engine : s.engine.Develops s'.engine

variable {s s' s'' : SessionState}

theorem Develops.trans (h : s.Develops s') (h' : s'.Develops s'') : s.Develops s'' :=
  ⟨h'.strategies.trans h.strategies, h.engine.trans h'.engine⟩

theorem Lawful.refl (hs : s.Lawful) : s.Develops s := ⟨rfl, .refl hs.genuine⟩

theorem Develops.lawful (h : s.Develops s') (hs : s.Lawful) : s'.Lawful :=
  ⟨h.strategies ▸ hs.strategies, h.engine.genuine⟩

/-- A session with a new engine is lawful with its strategies. -/
theorem lawful_new {session : Session} (h : ∀ x ∈ session.strategies, x.Lawful)
    (journal : Journal) : ({ session, engine := { journal with } } : SessionState).Lawful :=
  ⟨h, fun _ => Proxy.genuine_default⟩

/-- An action that comes down to one on the workspace. -/
theorem develops_of_run {act : EStateM ResolutionError SessionState α}
    {onWorkspace : EStateM ResolutionError Workspace α}
    (hact : act s = Session.workspacePart.run onWorkspace s)
    (h : s.workspace.Develops (after onWorkspace s.workspace)) : s.Develops (after act s) := by
  rw [after_congr hact, after_run]
  exact ⟨rfl, h⟩

theorem develops_onEngine {act : EStateM ResolutionError Engine α}
    (h : s.engine.Develops (after act s.engine)) : s.Develops (after (Session.onEngine act) s) := by
  refine develops_of_run rfl ?_
  rw [after_run]
  exact h

theorem develops_perform (hs : s.Lawful) (r : Request) :
    s.Develops (after (Session.perform r) s) := by
  have he := hs.genuine
  have hfirst := fun receiver member =>
    Strategy.develops_firstOf hs.strategies receiver member (w := s.workspace) he
  cases r with
  | find receiver member =>
    rw [Session.perform, after_bind_pure]
    exact develops_of_run rfl (hfirst receiver member)
  | findExtension receiver member =>
    rw [Session.perform, after_bind_pure]
    exact develops_of_run rfl (Workspace.develops_findExtension he receiver member)
  | call receiver member args =>
    rw [Session.perform, after_bind_pure]
    refine develops_of_run (Session.run_bind _ _ s) ?_
    refine rel_after_bind (r := Workspace.Develops) Workspace.Develops.trans
      (hfirst receiver member) fun m _ => ?_
    rw [after_run]
    exact Engine.develops_callMember (hfirst receiver member).genuine m args
  | callMember m args =>
    rw [Session.perform, after_bind_pure]
    exact develops_onEngine (Engine.develops_callMember he m args)
  | instantiateMember m typeArgs =>
    rw [Session.perform, after_bind_pure]
    exact develops_onEngine (Engine.develops_instantiateMember he m typeArgs)
  | resolve id args receiver =>
    rw [Session.perform, after_bind_pure]
    exact develops_onEngine (Engine.develops_perform he (.resolve args receiver) id)
  | instantiate id typeArgs receiver =>
    rw [Session.perform, after_bind_pure]
    exact develops_onEngine (Engine.develops_perform he (.instantiate typeArgs receiver) id)
  | overload id index =>
    rw [Session.perform, after_bind_pure]
    exact develops_onEngine (Engine.develops_overload he id index)

theorem develops_step (hs : s.Lawful) (e : Event) : s.Develops (s.step e) := by
  cases e with
  | ask r => exact develops_perform hs r
  | load ns => exact ⟨rfl, .refl hs.genuine⟩
  | changeIndex c => exact ⟨rfl, .refl hs.genuine⟩
  | resolveWith ix ts ty member =>
    refine develops_of_run rfl ?_
    rw [after_run]
    exact Workspace.Develops.refl hs.genuine
  | changeTypes c => exact ⟨rfl, ⟨Nat.le_refl _, fun _ _ => .refl _⟩, hs.genuine⟩

theorem develops_follow (hs : s.Lawful) (events : List Event) : s.Develops (s.follow events) := by
  induction events generalizing s with
  | nil => exact hs.refl
  | cons e es ih =>
    have hstep := develops_step hs e
    exact hstep.trans (ih (hstep.lawful hs))

end SessionState

end LateBinding
