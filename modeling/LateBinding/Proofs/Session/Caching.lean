import LateBinding.Proofs.Session.Requests

/-!
# Sessions apart from their memory

Whatever a session with built-in strategies has been asked before, every further request shows what
it would show with nothing remembered (`Session.outcome_forget`).  Each request keeps a session
sound and shows what the tables say (`Session.perform_spec`), and forgetting does not change the
tables.
-/

namespace LateBinding

namespace SessionState

/-- The workspace of a session. -/
def workspace (s : SessionState) : Workspace := Session.workspacePart.get s

/-- The session with nothing remembered: no lookups, no interned proxies, empty caches in all
proxies. -/
def forget (s : SessionState) : SessionState := Session.workspacePart.put s.workspace.forget s

/-- The strategies are built-in ones of the given kinds, and what is remembered is true. -/
structure Sound (kinds : List MemberKind) (s : SessionState) : Prop where
  strategies : s.session.strategies = kinds.map MemberKind.strategy
  workspace : s.workspace.Sound

/-- The later state is sound, and its workspace extends that of the earlier one. -/
structure Grows (kinds : List MemberKind) (s s' : SessionState) : Prop where
  sound : s'.Sound kinds
  workspace : s.workspace.Extends s'.workspace

theorem Sound.forget {kinds : List MemberKind} {s : SessionState}
    (h : s.session.strategies = kinds.map MemberKind.strategy) : s.forget.Sound kinds :=
  ⟨h, Workspace.sound_forget s.workspace⟩

end SessionState

/-- A lookup and a call of what it finds. -/
theorem Workspace.yields_call {w : Workspace} (hw : w.Sound) (kinds : List MemberKind)
    (receiver : ForeignObject) (member : String) (args : List Value) :
    Yields w
      (Strategy.firstOf (kinds.map MemberKind.strategy) receiver member >>= fun m =>
        enginePart.run (m.call args))
      (fun _ c => c)
      (w.foundFirst receiver member kinds >>= fun m =>
        Member.called m.kind m.receiver w.engine.types m.proxy args) := by
  have hfind := yields_firstOf hw receiver member kinds
  have hanswer := hfind.answer
  rw [← hanswer]
  cases hresult : answer (Strategy.firstOf (kinds.map MemberKind.strategy) receiver member) w with
  | error e => exact hfind.toGrows.bind_of_error hresult
  | ok m =>
    refine hfind.toGrows.bind_of_ok hresult ?_
    show Yields _ (enginePart.run (m.call args)) _
      (Member.called m.kind m.receiver w.engine.types _ args)
    rw [← Member.called_congr hfind.grows.engine.tables]
    exact yields_onEngine hfind.sound (Engine.yields_onProxy hfind.sound.engine
      (Proxy.determined_call (m.fullArgs args) m.boundReceiver) m.proxy)

namespace Session

open SessionState

theorem run_bind (act : EStateM ε Workspace α) (next : α → EStateM ε Workspace β)
    (s : SessionState) :
    (workspacePart.run act >>= fun a => workspacePart.run (next a)) s =
      workspacePart.run (act >>= next) s := by
  simp only [bind, EStateM.bind, Part.run]
  cases act (workspacePart.get s) <;> rfl

variable {kinds : List MemberKind} {s : SessionState}

/-- A request that passes an action on to the workspace and wraps what it answers. -/
theorem spec_of_yields (hs : s.Sound kinds) {act : EStateM ResolutionError SessionState α}
    {onWorkspace : EStateM ResolutionError Workspace α} {view : Engine → α → β}
    {r : Except ResolutionError β} (h : Workspace.Yields s.workspace onWorkspace view r)
    (hact : act s = workspacePart.run onWorkspace s) (reply : α → Reply) (seen : β → Reply.View)
    (hview : ∀ e a, (reply a).view e = seen (view e a)) :
    Grows kinds s (after (act >>= fun a => pure (reply a)) s) ∧
      (answer (act >>= fun a => pure (reply a)) s).map
        (Reply.view (after (act >>= fun a => pure (reply a)) s).engine) = r.map seen := by
  have hanswer := h.answer
  rw [after_bind_pure, answer_bind_pure, after_congr hact, answer_congr hact, after_run, answer_run]
  refine ⟨⟨⟨hs.strategies, h.sound⟩, h.grows⟩, ?_⟩
  rw [← hanswer]
  show Except.map _ (Except.map _ (answer onWorkspace s.workspace)) = _
  cases answer onWorkspace s.workspace with
  | error e => rfl
  | ok a => exact congrArg Except.ok (hview _ a)

/-- What a request leaves and shows. -/
theorem perform_spec (hs : s.Sound kinds) (r : Request) :
    Grows kinds s (after (perform r) s) ∧ outcome r s = r.expected kinds s.workspace := by
  have hw := hs.workspace
  have he := hw.engine
  cases r with
  | find receiver member =>
    have hfind := Workspace.yields_firstOf hw receiver member kinds
    rw [← hs.strategies] at hfind
    exact spec_of_yields hs hfind rfl .member .member fun _ _ => rfl
  | findExtension receiver member =>
    have hfind := Workspace.yields_findExtension hw receiver member
    exact spec_of_yields hs hfind rfl .member .member fun _ _ => rfl
  | call receiver member args =>
    have hcall := Workspace.yields_call hw kinds receiver member args
    rw [← hs.strategies] at hcall
    have hspec := spec_of_yields hs hcall (run_bind _ _ s) .call .call fun _ _ => rfl
    refine ⟨hspec.1, hspec.2.trans ?_⟩
    rw [Request.expected]
    cases s.workspace.foundFirst receiver member kinds with
    | error e => rfl
    | ok m =>
      show Except.map _ (Member.called m.kind m.receiver _ m.proxy args) =
        Member.called m.kind m.receiver _ m.proxy args >>= _
      cases Member.called m.kind m.receiver s.workspace.engine.types m.proxy args <;> rfl
  | callMember m args =>
    have hcall := Engine.yields_onProxy he
      (Proxy.determined_call (m.fullArgs args) m.boundReceiver) m.proxy
    exact spec_of_yields hs (Workspace.yields_onEngine hw hcall) rfl .call .call fun _ _ => rfl
  | instantiateMember m typeArgs =>
    have hinstantiate := Engine.yields_instantiateMember he m typeArgs
    exact spec_of_yields hs (Workspace.yields_onEngine hw hinstantiate) rfl .member .member
      fun _ _ => rfl
  | resolve id args receiver =>
    have hresolve := Engine.yields_onProxy he (Proxy.determined_resolve args receiver) id
    exact spec_of_yields hs (Workspace.yields_onEngine hw hresolve) rfl .target .target
      fun _ _ => rfl
  | instantiate id typeArgs receiver =>
    have hinstantiate := Engine.yields_onProxy he
      (Proxy.determined_instantiate typeArgs receiver) id
    exact spec_of_yields hs (Workspace.yields_onEngine hw hinstantiate) rfl .target .target
      fun _ _ => rfl
  | overload id index =>
    have hoverload := Engine.yields_overload he id index
    exact spec_of_yields hs (Workspace.yields_onEngine hw hoverload) rfl .proxy .proxy
      fun _ _ => rfl

theorem grows_run (hs : s.Sound kinds) (requests : List Request) :
    Grows kinds s (run requests s) := by
  induction requests generalizing s with
  | nil => exact ⟨hs, .refl _⟩
  | cons r rs ih =>
    have hstep := (perform_spec hs r).1
    have hrest := ih hstep.sound
    exact ⟨hrest.sound, hstep.workspace.trans hrest.workspace⟩

theorem sound_run (hs : s.Sound kinds) (requests : List Request) :
    (run requests s).Sound kinds := (grows_run hs requests).sound

theorem exists_kinds {strategies : List Strategy}
    (h : ∀ x ∈ strategies, x = .declared ∨ x = .extension) :
    ∃ kinds : List MemberKind, strategies = kinds.map MemberKind.strategy := by
  induction strategies with
  | nil => exact ⟨[], rfl⟩
  | cons x xs ih =>
    obtain ⟨kinds, rfl⟩ := ih fun y hy => h y (List.mem_cons_of_mem x hy)
    rcases h x List.mem_cons_self with rfl | rfl
    · exact ⟨.declared :: kinds, rfl⟩
    · exact ⟨.extension :: kinds, rfl⟩

/-- Memory does not show.  A session with built-in strategies starts with nothing remembered, on any
tables and with any proxies, and is asked for anything in any order.  Then the next request shows
the same kind of member, group, receiver, target, arguments or failure as it does when everything
remembered so far is forgotten first. -/
theorem outcome_forget (s : SessionState) (hstart : s.forget = s)
    (hbuiltin : ∀ x ∈ s.session.strategies, x = .declared ∨ x = .extension)
    (requests : List Request) (r : Request) :
    outcome r (run requests s) = outcome r (run requests s).forget := by
  obtain ⟨kinds, hkinds⟩ := exists_kinds hbuiltin
  have hs : s.Sound kinds := by
    rw [← hstart]
    exact Sound.forget hkinds
  have ht := sound_run hs requests
  rw [(perform_spec ht r).2, (perform_spec (Sound.forget ht.strategies) r).2]
  exact (r.expected_forget kinds _).symm

/-- Two calls of a proxy over a generic method.  The second one has another receiver and finds the
entry of the first one in the cache. -/
theorem outcome_forget_identity :
    let t : Ty := .param ⟨"T", 0, .method⟩ []
    let m : Method := {
      name := "Same"
      generics := [⟨⟨"T", 0, .method⟩, []⟩]
      formals := [⟨"x", t⟩]
      returns := t }
    let thing : ForeignObject := ⟨.con ⟨"Demo", "Thing"⟩, 1⟩
    let other : ForeignObject := ⟨.con ⟨"Demo", "Thing"⟩, 2⟩
    let s : SessionState := {
      session := { catalog := default, strategies := [.declared, .extension] }
      engine := { proxies := #[.new (.single m) default .strict] } }
    let request (receiver : ForeignObject) : Request :=
      .resolve ⟨0⟩ [.foreign receiver] (some receiver)
    let closed := m.close [.con ⟨"Demo", "Thing"⟩]
    s.forget = s ∧
      outcome (request other) (run [request thing] s) =
        .ok (.target (.method closed (some other))) ∧
      outcome (request other) (run [request thing] s).forget =
        .ok (.target (.method closed (some other))) := by
  intro t m thing other s request closed
  have hstart : s.forget = s := by
    have hproxies : s.engine.proxies.map Proxy.forget = s.engine.proxies := List.map_toArray
    exact congrArg (fun ps => { s with engine := { s.engine with proxies := ps } }) hproxies
  have hbuiltin : ∀ x ∈ s.session.strategies, x = .declared ∨ x = .extension := by
    intro x hx
    rcases List.mem_cons.1 hx with rfl | hx
    · exact .inl rfl
    · exact .inr (List.mem_singleton.1 hx)
  have hforget := outcome_forget s hstart hbuiltin [request thing] (request other)
  have hanswer : outcome (request other) (run [request thing] s) =
      .ok (.target (.method closed (some other))) := rfl
  exact ⟨hstart, hanswer, hforget.symm.trans hanswer⟩

end Session

end LateBinding
