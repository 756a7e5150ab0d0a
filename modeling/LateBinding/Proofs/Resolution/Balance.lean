import LateBinding.Proofs.Session.Proxies
import LateBinding.Proofs.TypeSystem.History

/-!
# What a proxy pays for

Closing a method is the one step of the pipeline that costs a substitution.  A proxy pays for it on
the first success of a key in one of its caches and never again: over any run of operations the
substitutions are as many as the closed methods in the two caches, a failure leaves no trace in
them, and a key that has had a success is answered with its entry
(`Proxy.specialization_paid_once`).
-/

namespace LateBinding

/-- Whether an outcome holds a closed method. -/
def Outcome.isClosed : Outcome → Bool
  | wholeGroup => false
  | closed _ => true

/-! ## What the pipeline costs -/

theorem TypeSystem.pays_close (m : Method) (args : List Ty) :
    Pays (·.substitutions) (fun _ => true) (close m args) := by
  intro ts
  rw [after_close, answer_close]
  cases ts.violation? m args <;> rfl

namespace Journal

theorem pays_close (m : Method) (args : List Ty) :
    Pays (·.types.substitutions) (fun _ => true) (close m args) := by
  intro j
  rw [close, after_run, after_adaptExcept, answer_run, answer_adaptExcept]
  refine (TypeSystem.pays_close m args j.types).trans ?_
  show j.types.substitutions + _ = j.types.substitutions +
    price (fun _ => true) ((answer (TypeSystem.close m args) j.types).mapError _)
  cases answer (TypeSystem.close m args) j.types <;> rfl

theorem pays_closed (m : Method) (args : List Ty) :
    Pays (·.types.substitutions) Outcome.isClosed (return .closed (← close m args)) :=
  (pays_close m args).map fun _ => rfl

variable (g : MethodGroup) (policy : MissPolicy)

theorem keeps_substitutions_pick (measure : Measure) (wanted : Nat) :
    Keeps (·.types.substitutions) (pick g measure wanted policy) :=
  fun j => congrArg TypeSystem.substitutions (keeps_pick g policy measure wanted j)

theorem pays_resolveArguments (argTypes : List Ty) :
    Pays (·.types.substitutions) Outcome.isClosed (resolveArguments g policy argTypes) := by
  refine (keeps_substitutions_pick g policy _ _).pays_bind fun s => ?_
  split
  · exact (keeps_liftExcept _).pays_bind fun typeArgs => pays_closed s.method typeArgs
  · exact pays_pure rfl

theorem pays_resolveTypeArguments (typeArgs : List Ty) :
    Pays (·.types.substitutions) Outcome.isClosed (resolveTypeArguments g policy typeArgs) := by
  refine (keeps_substitutions_pick g policy _ _).pays_bind fun s => ?_
  split
  · exact pays_closed s.method typeArgs
  · exact pays_pure rfl

end Journal

theorem TypeSystem.substitutions_apply (ts : TypeSystem) (c : Change) :
    (ts.apply c).substitutions = ts.substitutions := by
  cases c with
  | define qualified clauses => rfl
  | declare owner s =>
    show (ts.ensure (ownerName owner)).substitutions = ts.substitutions
    unfold ensure
    split <;> rfl

namespace Proxy

/-! ## Operations and the caches they use -/

/-- An operation on a proxy: a call, with its arguments or with their types, or an instantiation. -/
inductive Operation where
  | resolve (args : List Value) (receiver : Option ForeignObject)
  | resolveTypes (argTypes : List Ty) (receiver : Option ForeignObject)
  | instantiate (typeArgs : List Ty) (receiver : Option ForeignObject)

namespace Operation

/-- What selects the overload, and the cache. -/
def measure : Operation → Measure
  | resolve _ _ | resolveTypes _ _ => .arguments
  | instantiate _ _ => .typeArguments

/-- The key in the cache. -/
def key (typing : ValueTyping) : Operation → List Ty
  | resolve args _ => args.map typing.typeOf
  | resolveTypes argTypes _ => argTypes
  | instantiate typeArgs _ => typeArgs

/-- The receiver of an operation. -/
def receiver : Operation → Option ForeignObject
  | resolve _ receiver | resolveTypes _ receiver | instantiate _ receiver => receiver

/-- Performs an operation. -/
def perform : Operation → EStateM ResolutionError (Proxy × Journal) Target
  | resolve args receiver => Proxy.resolve args receiver
  | resolveTypes argTypes receiver => Proxy.resolveTypes argTypes receiver
  | instantiate typeArgs receiver => Proxy.instantiate typeArgs receiver

end Operation

/-- The cache for calls or for instantiations. -/
def cache (p : Proxy) : Measure → OnceMap (List Ty) Outcome
  | .arguments => p.callCache
  | .typeArguments => p.typeCache

/-- The proxy with one cache replaced. -/
def withCache (p : Proxy) (c : OnceMap (List Ty) Outcome) : Measure → Proxy
  | .arguments => { p with callCache := c }
  | .typeArguments => { p with typeCache := c }

/-- The pipeline behind a cache. -/
def pipeline (p : Proxy) (key : List Ty) : Measure → EStateM ResolutionError Journal Outcome
  | .arguments => Journal.resolveArguments p.group p.policy key
  | .typeArguments => Journal.resolveTypeArguments p.group p.policy key

/-- The number of closed methods that the caches hold. -/
def closedEntries (p : Proxy) : Nat :=
  p.callCache.countValues Outcome.isClosed + p.typeCache.countValues Outcome.isClosed

/-- The demand that an operation makes on its cache. -/
def demanded (p : Proxy) (op : Operation) :
    EStateM ResolutionError (OnceMap (List Ty) Outcome × Journal) Outcome :=
  OnceMap.demandApart (op.key p.typing) (p.pipeline (op.key p.typing) op.measure)

variable (p : Proxy) (j : Journal) (op : Operation)

theorem cache_withCache (c : OnceMap (List Ty) Outcome) (measure measure' : Measure) :
    (p.withCache c measure).cache measure' = if measure' = measure then c else p.cache measure' := by
  cases measure <;> cases measure' <;> rfl

theorem withCache_cache (measure : Measure) : p.withCache (p.cache measure) measure = p := by
  cases measure <;> rfl

theorem closedEntries_withCache (c : OnceMap (List Ty) Outcome) (measure : Measure) :
    (p.withCache c measure).closedEntries + (p.cache measure).countValues Outcome.isClosed =
      p.closedEntries + c.countValues Outcome.isClosed := by
  cases measure with
  | arguments =>
    show c.countValues _ + p.typeCache.countValues _ + p.callCache.countValues _ =
      p.callCache.countValues _ + p.typeCache.countValues _ + c.countValues _
    omega
  | typeArguments =>
    show p.callCache.countValues _ + c.countValues _ + p.typeCache.countValues _ =
      p.callCache.countValues _ + p.typeCache.countValues _ + c.countValues _
    omega

theorem target_withCache (c : OnceMap (List Ty) Outcome) (measure : Measure) :
    (p.withCache c measure).target = p.target := by
  cases measure <;> rfl

theorem pays_pipeline (key : List Ty) (measure : Measure) :
    Pays (·.types.substitutions) Outcome.isClosed (p.pipeline key measure) := by
  cases measure with
  | arguments => exact Journal.pays_resolveArguments p.group p.policy key
  | typeArguments => exact Journal.pays_resolveTypeArguments p.group p.policy key

/-- What is answered through a part of the state, with a receiver bound to it. -/
theorem answer_bound (part : Part (Proxy × Journal) τ) (act : EStateM ResolutionError τ Outcome)
    (receiver : Option ForeignObject) (s : Proxy × Journal) :
    answer (part.run act >>= fun outcome => pure (p.target receiver outcome)) s =
      (answer act (part.get s)).map (p.target receiver) := by
  rw [answer_bind_pure, answer_run]

theorem answer_perform :
    answer op.perform (p, j) =
      (answer (p.demanded op) (p.cache op.measure, j)).map (p.target op.receiver) := by
  cases op with
  | resolve args receiver => exact answer_bound p callPart _ receiver (p, j)
  | resolveTypes argTypes receiver => exact answer_bound p callPart _ receiver (p, j)
  | instantiate typeArgs receiver => exact answer_bound p typePart _ receiver (p, j)

theorem after_perform :
    after op.perform (p, j) =
      let t := after (p.demanded op) (p.cache op.measure, j)
      (p.withCache t.1 op.measure, t.2) := by
  cases op with
  | resolve args receiver =>
    rw [Operation.perform, after_congr (resolve_apply args receiver p j), after_resolveTypes]
    rfl
  | resolveTypes argTypes receiver => exact after_resolveTypes p j receiver argTypes
  | instantiate typeArgs receiver => exact after_instantiate p j receiver typeArgs

/-- An operation answers alike whatever the other cache holds, and leaves the other cache alone. -/
theorem perform_withCache (c : OnceMap (List Ty) Outcome) {measure : Measure}
    (h : measure ≠ op.measure) :
    answer op.perform (p.withCache c measure, j) = answer op.perform (p, j) ∧
      after op.perform (p.withCache c measure, j) =
        let s := after op.perform (p, j)
        (s.1.withCache c measure, s.2) := by
  have hdemanded : (p.withCache c measure).demanded op = p.demanded op := by
    cases measure <;> rfl
  have hcache : (p.withCache c measure).cache op.measure = p.cache op.measure := by
    rw [cache_withCache, if_neg h.symm]
  rw [answer_perform, after_perform, hdemanded, hcache, target_withCache, answer_perform,
    after_perform]
  refine ⟨rfl, ?_⟩
  revert h
  cases measure <;> cases op.measure <;> intro h
  · exact absurd rfl h
  · rfl
  · rfl
  · exact absurd rfl h

/-! ## One operation -/

/-- Both caches are well-formed. -/
def WellFormed (p : Proxy) : Prop := ∀ measure, (p.cache measure).WellFormed

/-- A proxy beside a journal that has paid for the closed methods in its caches, on top of what had
been paid before.  Up to caches it is the proxy of the start. -/
structure Balanced (start : Proxy) (before : Nat) (s : Proxy × Journal) : Prop where
  forget : s.1.forget = start.forget
  wellFormed : s.1.WellFormed
  settled : ∀ measure key, ¬ (s.1.cache measure).HasEmptySlot key
  balance : s.2.types.substitutions = before + s.1.closedEntries

variable {p j op} {start : Proxy} {before : Nat} {s : Proxy × Journal}

theorem wellFormed_forget (p : Proxy) : p.forget.WellFormed := by
  intro measure
  cases measure <;> exact OnceMap.wellFormed_empty

theorem balanced_new (group : MethodGroup) (typing : ValueTyping) (policy : MissPolicy)
    (j : Journal) :
    Balanced (new group typing policy) j.types.substitutions (new group typing policy, j) where
  forget := rfl
  wellFormed := wellFormed_forget (new group typing policy)
  settled measure := by cases measure <;> exact OnceMap.not_hasEmptySlot_empty
  balance := rfl

theorem group_eq_of_forget {p q : Proxy} (h : p.forget = q.forget) : p.group = q.group := by
  have hgroup : p.forget.group = q.forget.group := by rw [h]
  exact hgroup

theorem Balanced.typing (h : Balanced start before s) : s.1.typing = start.typing := by
  have htyping : s.1.forget.typing = start.forget.typing := by rw [h.forget]
  exact htyping

theorem Balanced.target (h : Balanced start before s) : s.1.target = start.target := by
  have hgroup := group_eq_of_forget h.forget
  funext receiver o
  cases o with
  | wholeGroup => exact congrArg (fun g : MethodGroup => Target.group { g with receiver }) hgroup
  | closed m => rfl

/-- The other cache stays, and the one for the operation is what its demand leaves. -/
theorem cache_after_perform (op : Operation) (s : Proxy × Journal) (measure : Measure) :
    (after op.perform s).1.cache measure =
      if measure = op.measure then (after (s.1.demanded op) (s.1.cache op.measure, s.2)).1
      else s.1.cache measure := by
  rw [after_perform s.1 s.2 op, cache_withCache]

theorem forget_after_perform (op : Operation) (s : Proxy × Journal) :
    (after op.perform s).1.forget = s.1.forget := by
  rw [after_perform s.1 s.2 op]
  cases op.measure <;> rfl

theorem WellFormed.perform (h : s.1.WellFormed) (op : Operation) :
    (after op.perform s).1.WellFormed := by
  intro measure
  rw [cache_after_perform]
  split
  · exact (h op.measure).after_demandApart _ _ _
  · exact h measure

/-- What a cache holds, it holds after every operation. -/
theorem WellFormed.get?_perform (h : s.1.WellFormed) (op : Operation) {measure : Measure}
    {key : List Ty} {o : Outcome} (hget : (s.1.cache measure).get? key = some o) :
    ((after op.perform s).1.cache measure).get? key = some o := by
  rw [cache_after_perform]
  split
  · rename_i hmeasure
    subst hmeasure
    exact OnceMap.get?_after_demandApart_of_get? (h _) hget _ _ _
  · exact hget

theorem Balanced.perform (h : Balanced start before s) (op : Operation) :
    Balanced start before (after op.perform s) where
  forget := (forget_after_perform op s).trans h.forget
  wellFormed := h.wellFormed.perform op
  settled measure key := by
    rw [cache_after_perform]
    split
    · exact fun hkey => h.settled op.measure key
        (OnceMap.hasEmptySlot_of_after_demandApart (h.wellFormed op.measure) hkey)
    · exact h.settled measure key
  balance := by
    have hdemand : (after (s.1.demanded op) (s.1.cache op.measure, s.2)).2.types.substitutions +
        (s.1.cache op.measure).countValues Outcome.isClosed = s.2.types.substitutions +
          (after (s.1.demanded op) (s.1.cache op.measure, s.2)).1.countValues Outcome.isClosed :=
      OnceMap.balance_demandApart (s.1.pays_pipeline (op.key s.1.typing) op.measure)
        (h.wellFormed op.measure) (op.key s.1.typing) s.2
    have hcache := s.1.closedEntries_withCache
      (after (s.1.demanded op) (s.1.cache op.measure, s.2)).1 op.measure
    have hbefore := h.balance
    rw [after_perform s.1 s.2 op]
    simp only
    omega

/-- A key in its cache is answered with its entry, and nothing changes. -/
theorem Balanced.perform_of_get? (h : Balanced start before s) {o : Outcome}
    (hget : (s.1.cache op.measure).get? (op.key start.typing) = some o) :
    op.perform s = .ok (start.target op.receiver o) s := by
  rw [← h.typing] at hget
  have hdemand : s.1.demanded op (s.1.cache op.measure, s.2) = .ok o (s.1.cache op.measure, s.2) :=
    OnceMap.demand_of_get? hget
  have hanswer : answer op.perform s = .ok (start.target op.receiver o) := by
    rw [answer_perform s.1 s.2 op, answer, hdemand, ← h.target]
    rfl
  have hafter : after op.perform s = s := by
    rw [after_perform s.1 s.2 op, after, hdemand]
    exact Prod.ext (s.1.withCache_cache op.measure) rfl
  rw [eq_ok_of_answer hanswer, hafter]

/-- A success is an entry bound to the receiver, and the entry is there from then on. -/
theorem Balanced.get?_of_ok (h : Balanced start before s) {target : Target}
    (hok : answer op.perform s = .ok target) :
    ∃ o, ((after op.perform s).1.cache op.measure).get? (op.key start.typing) = some o ∧
      target = start.target op.receiver o := by
  rw [answer_perform s.1 s.2 op] at hok
  obtain ⟨o, hdemand, rfl⟩ := map_eq_ok_iff.1 hok
  refine ⟨o, ?_, by rw [h.target]⟩
  rw [cache_after_perform, if_pos rfl, ← h.typing]
  exact OnceMap.get?_after_demandApart_of_answer (h.wellFormed op.measure) hdemand

/-- A failure leaves the caches and the substitutions as they were. -/
theorem Balanced.perform_of_error (h : Balanced start before s) {e : ResolutionError}
    (herror : answer op.perform s = .error e) :
    (∀ measure, ((after op.perform s).1.cache measure).slots = (s.1.cache measure).slots ∧
        ∀ key, ((after op.perform s).1.cache measure).get? key = (s.1.cache measure).get? key) ∧
      (after op.perform s).2.types.substitutions = s.2.types.substitutions := by
  have hdemand : answer (s.1.demanded op) (s.1.cache op.measure, s.2) = .error e := by
    rwa [answer_perform s.1 s.2 op, map_eq_error_iff] at herror
  have hcaches : ∀ measure,
      ((after op.perform s).1.cache measure).slots = (s.1.cache measure).slots ∧
        ∀ key, ((after op.perform s).1.cache measure).get? key = (s.1.cache measure).get? key := by
    intro measure
    rw [cache_after_perform]
    split
    · rename_i hmeasure
      subst hmeasure
      exact ⟨OnceMap.slots_after_demandApart_of_error (h.settled _ _) hdemand,
        OnceMap.get?_after_demandApart_of_error (h.wellFormed _) hdemand⟩
    · exact ⟨rfl, fun _ => rfl⟩
  have hlater := h.perform op
  have hcount : ∀ measure, ((after op.perform s).1.cache measure).countValues Outcome.isClosed =
      (s.1.cache measure).countValues Outcome.isClosed := fun measure =>
    OnceMap.countValues_congr (h.wellFormed measure) (hlater.wellFormed measure)
      (hcaches measure).2 _
  have hclosed : (after op.perform s).1.closedEntries = s.1.closedEntries :=
    congrArg₂ (· + ·) (hcount .arguments) (hcount .typeArguments)
  exact ⟨hcaches, by rw [hlater.balance, h.balance, hclosed]⟩

/-! ## Runs -/

/-- An operation, or a change of the type tables. -/
inductive Event where
  | operate (op : Operation)
  | changeTypes (c : TypeSystem.Change)

/-- A proxy and its journal after one more event. -/
def step (s : Proxy × Journal) : Event → Proxy × Journal
  | .operate op => after op.perform s
  | .changeTypes c => (s.1, { s.2 with types := s.2.types.apply c })

/-- A proxy and its journal after events, one after the other. -/
def run (s : Proxy × Journal) (events : List Event) : Proxy × Journal := events.foldl step s

theorem Balanced.step (h : Balanced start before s) (e : Event) :
    Balanced start before (step s e) := by
  cases e with
  | operate op => exact h.perform op
  | changeTypes c =>
    exact ⟨h.forget, h.wellFormed, h.settled, (TypeSystem.substitutions_apply _ c).trans h.balance⟩

theorem Balanced.run (h : Balanced start before s) (events : List Event) :
    Balanced start before (run s events) := by
  induction events generalizing s with
  | nil => exact h
  | cons e es ih => exact ih (h.step e)

theorem Balanced.get?_run (h : Balanced start before s) (events : List Event) {measure : Measure}
    {key : List Ty} {o : Outcome} (hget : (s.1.cache measure).get? key = some o) :
    ((Proxy.run s events).1.cache measure).get? key = some o := by
  induction events generalizing s with
  | nil => exact hget
  | cons e es ih =>
    refine ih (h.step e) ?_
    cases e with
    | operate op => exact h.wellFormed.get?_perform op hget
    | changeTypes c => exact hget

/-- From a new proxy, with operations and changes of the type tables in any order, the substitutions
are those of the start and one for each closed method in the two caches.  An operation that fails
leaves the caches and the substitutions as they were.  Once an operation has succeeded, every later
one with its key, in the same cache, answers the entry of the first, bound to the receiver of its
own, and leaves proxy and journal as they are.  The cache of the other operations is never changed
and makes no difference. -/
theorem specialization_paid_once (group : MethodGroup) (typing : ValueTyping) (policy : MissPolicy)
    (j : Journal) (events : List Event) :
    let start := new group typing policy
    let s := run (start, j) events
    s.2.types.substitutions = j.types.substitutions +
        (s.1.callCache.countValues Outcome.isClosed + s.1.typeCache.countValues Outcome.isClosed) ∧
      (∀ (op : Operation) e, answer op.perform s = .error e →
        let s' := after op.perform s
        (∀ measure, (s'.1.cache measure).slots = (s.1.cache measure).slots ∧
            ∀ key, (s'.1.cache measure).get? key = (s.1.cache measure).get? key) ∧
          s'.2.types.substitutions = s.2.types.substitutions) ∧
      (∀ (op : Operation) target, answer op.perform s = .ok target →
        ∃ o, target = start.target op.receiver o ∧
          ∀ more (op' : Operation), op'.measure = op.measure → op.key typing == op'.key typing →
            let s' := run (after op.perform s) more
            (s'.1.cache op'.measure).get? (op'.key typing) = some o ∧
              op'.perform s' = .ok (start.target op'.receiver o) s') ∧
      ∀ (op : Operation) measure c, measure ≠ op.measure →
        let s' := after op.perform s
        s'.1.cache measure = s.1.cache measure ∧
          answer op.perform (s.1.withCache c measure, s.2) = answer op.perform s ∧
          after op.perform (s.1.withCache c measure, s.2) = (s'.1.withCache c measure, s'.2) := by
  intro start s
  have hs : Balanced start j.types.substitutions s :=
    (balanced_new group typing policy j).run events
  refine ⟨hs.balance, fun op e herror => hs.perform_of_error herror, fun op target hok => ?_,
    fun op measure c hmeasure => ?_⟩
  · obtain ⟨o, hget, htarget⟩ := hs.get?_of_ok hok
    refine ⟨o, htarget, fun more op' hmeasure hkey => ?_⟩
    have hlater := (hs.perform op).run more
    have hstored : ((run (after op.perform s) more).1.cache op'.measure).get? (op'.key typing) =
        some o := by
      rw [hmeasure, ← OnceMap.get?_congr _ hkey]
      exact (hs.perform op).get?_run more hget
    exact ⟨hstored, hlater.perform_of_get? hstored⟩
  · refine ⟨?_, perform_withCache s.1 s.2 op c hmeasure⟩
    rw [cache_after_perform, if_neg hmeasure]

/-- A generic method beside a plain overload.  Two closed methods are paid for, one in each cache,
while the plain overload costs nothing, and neither does a call that comes after a change of the
tables and a failure. -/
theorem specialization_paid_once_bothCaches :
    let number : Ty := .con ⟨"Demo", "Number"⟩
    let t : Placeholder := ⟨"T", 0, .method⟩
    let wrap : Method := {
      name := "Wrap", handle := 1, formals := [⟨"x", .param t []⟩], generics := [⟨t, []⟩] }
    let plain : Method := {
      name := "Wrap", handle := 2, formals := [⟨"x", number⟩, ⟨"y", number⟩] }
    let group : MethodGroup := { name := "Wrap", methods := [wrap, plain] }
    let receiver : Option ForeignObject := some ⟨number, 7⟩
    let call : Operation := .resolveTypes [number] none
    let refused : Operation := .instantiate [.host "int"] none
    let events : List Event := [
      .operate (.resolveTypes [number, number] none), .operate (.instantiate [number] none)]
    let more : List Event := events ++ [.operate refused, .changeTypes (.define "Demo.Late" [])]
    let s := run (new group default .strict, {}) (.operate call :: events)
    let late := run (after call.perform (new group default .strict, {})) more
    s.2.types.substitutions = 2 ∧
      s.2.types.substitutions = ({} : Journal).types.substitutions +
        (s.1.callCache.countValues Outcome.isClosed +
          s.1.typeCache.countValues Outcome.isClosed) ∧
      (after refused.perform s).2.types.substitutions = 2 ∧
      (Operation.resolveTypes [number] receiver).perform late =
        .ok (.method (wrap.close [number]) receiver) late := by
  intro number t wrap plain group receiver call refused events more s late
  have hfirst : answer call.perform (new group default .strict, {}) =
      .ok (.method (wrap.close [number]) none) := rfl
  have hsubstitutions : s.2.types.substitutions = 2 := by
    simp only [s, events, call, group, wrap, plain, t, number]
    rfl
  have hrefused : answer refused.perform s =
      .error (.refused "Wrap" (.inadmissible "Wrap" "T" (.host "int"))) := by
    simp only [refused, s, events, call, group, wrap, plain, t, number]
    rfl
  obtain ⟨hpaid, hfailure, -, -⟩ :=
    specialization_paid_once group default .strict {} (.operate call :: events)
  have hs : run (new group default .strict, {}) (.operate call :: events) = s := rfl
  rw [hs] at hpaid hfailure
  obtain ⟨-, -, hsuccess, -⟩ := specialization_paid_once group default .strict {} []
  obtain ⟨o, htarget, hlater⟩ := hsuccess call _ hfirst
  obtain ⟨-, hlate⟩ := hlater more (.resolveTypes [number] receiver) rfl (by decide)
  cases o with
  | wholeGroup => cases htarget
  | closed m =>
    cases htarget
    exact ⟨hsubstitutions, hpaid, (hfailure refused _ hrefused).2.trans hsubstitutions, hlate⟩

end Proxy

end LateBinding
