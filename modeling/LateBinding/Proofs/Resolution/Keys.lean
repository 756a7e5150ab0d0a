import LateBinding.Proofs.Resolution.Closing
import LateBinding.Proofs.Resolution.Inference

/-!
# Keys decide outcomes

The caches of a proxy take lists of types for the same key when they differ in constraints of
placeholders only.  Such lists have the same outcome whenever one of them has one
(`TypeSystem.argumentOutcome_of_beq`, `TypeSystem.typeArgumentOutcome_of_beq`): a method is never
closed over a type with placeholders, and without placeholders equal keys are equal types.
-/

namespace LateBinding

namespace Ty

theorem app_beq_app (n : TypeName) (as bs : List Ty) : (app n as == app n bs) = (as == bs) := by
  show same (app n as) (app n bs) = _
  rw [same, sameAll_eq_beq, decide_eq_true rfl, Bool.true_and]

/-- Lists of types are equal keys as the arguments of one definition are. -/
instance : EquivBEq (List Ty) where
  rfl {as} := by
    rw [← app_beq_app default]
    exact BEq.rfl
  symm {as bs} h := by
    rw [← app_beq_app default] at h ⊢
    exact BEq.symm h
  trans {as bs cs} hab hbc := by
    rw [← app_beq_app default] at hab hbc ⊢
    exact BEq.trans hab hbc

/-! ## Types without placeholders -/

theorem eq_of_beq_of_forall {as bs : List Ty}
    (h : ∀ a ∈ as, ∀ {b : Ty}, a == b → a.hasPlaceholder = false → a = b) (hab : as == bs)
    (has : ∀ a ∈ as, a.hasPlaceholder = false) : as = bs := by
  induction as generalizing bs with
  | nil =>
    cases bs with
    | nil => rfl
    | cons b bs => cases hab
  | cons a as ih =>
    cases bs with
    | nil => cases hab
    | cons b bs =>
      rw [List.cons_beq_cons, Bool.and_eq_true] at hab
      have hhead := h a List.mem_cons_self hab.1 (has a List.mem_cons_self)
      have htail := ih (fun c hc => h c (List.mem_cons_of_mem a hc)) hab.2
        fun c hc => has c (List.mem_cons_of_mem a hc)
      rw [hhead, htail]

theorem eq_of_beq {t u : Ty} (h : t == u) (ht : t.hasPlaceholder = false) : t = u := by
  change same t u = true at h
  induction t generalizing u with
  | con n =>
    cases u with
    | con m => rw [of_decide_eq_true h]
    | _ => cases h
  | host n =>
    cases u with
    | host m => rw [of_decide_eq_true h]
    | _ => cases h
  | param id cs => cases ht
  | app n as ih =>
    cases u with
    | app m bs =>
      simp only [same, sameAll_eq_beq, Bool.and_eq_true, decide_eq_true_eq] at h
      simp only [hasPlaceholder, anyHasPlaceholder_eq_any, List.any_eq_false, Bool.not_eq_true]
        at ht
      rw [h.1, eq_of_beq_of_forall (fun a ha b hab hp => ih a ha hp hab) h.2 ht]
    | _ => cases h

theorem list_eq_of_beq {as bs : List Ty} (h : as == bs)
    (has : ∀ a ∈ as, a.hasPlaceholder = false) : as = bs :=
  eq_of_beq_of_forall (fun _ _ => eq_of_beq) h has

/-! ## Inference from equal keys -/

theorem alignAll?_congr {p : Placeholder} {fs : List Ty}
    (h : ∀ f ∈ fs, ∀ {a b : Ty}, a == b → align? p f a == align? p f b) {as bs : List Ty}
    (hab : as == bs) : alignAll? p fs as == alignAll? p fs bs := by
  induction fs generalizing as bs with
  | nil => rfl
  | cons f fs ih =>
    cases as with
    | nil =>
      cases bs with
      | nil => rfl
      | cons b bs => cases hab
    | cons a as =>
      cases bs with
      | nil => cases hab
      | cons b bs =>
        rw [List.cons_beq_cons, Bool.and_eq_true] at hab
        have hhead := h f List.mem_cons_self hab.1
        have htail := ih (fun g hg => h g (List.mem_cons_of_mem f hg)) hab.2
        rw [alignAll?, alignAll?]
        cases ha : align? p f a with
        | none =>
          cases hb : align? p f b with
          | none => exact htail
          | some v => rw [ha, hb] at hhead; cases hhead
        | some u =>
          cases hb : align? p f b with
          | none => rw [ha, hb] at hhead; cases hhead
          | some v => rwa [ha, hb] at hhead

theorem align?_congr {p : Placeholder} (f : Ty) {a b : Ty} (h : a == b) :
    align? p f a == align? p f b := by
  induction f generalizing a b with
  | con n => rfl
  | host n => rfl
  | param q cs =>
    simp only [align?]
    split
    · exact h
    · rfl
  | app n fs ih =>
    change same a b = true at h
    cases a with
    | app m as =>
      cases b with
      | app l bs =>
        simp only [same, sameAll_eq_beq, Bool.and_eq_true, decide_eq_true_eq] at h
        have hlength := List.length_eq_of_beq h.2
        simp only [align?, ← h.1, ← hlength]
        split
        · exact alignAll?_congr (fun f hf a b hab => ih f hf hab) h.2
        · rfl
      | _ => cases h
    | con m => cases b <;> first | rfl | cases h
    | param q cs => cases b <;> first | rfl | cases h
    | host m => cases b <;> first | rfl | cases h

end Ty

theorem getElem?_beq [BEq α] {as bs : List α} (h : as == bs) (i : Nat) : as[i]? == bs[i]? := by
  induction as generalizing bs i with
  | nil =>
    cases bs with
    | nil => rfl
    | cons b bs => cases h
  | cons a as ih =>
    cases bs with
    | nil => cases h
    | cons b bs =>
      rw [List.cons_beq_cons, Bool.and_eq_true] at h
      cases i with
      | zero => exact h.1
      | succ i => exact ih h.2 i

namespace Method

variable {m : Method} {as bs args : List Ty}

theorem inferOne_congr (h : as == bs) (p : Placeholder) : m.inferOne p as == m.inferOne p bs := by
  unfold inferOne
  cases m.exactFormal? p with
  | some j => exact getElem?_beq h j
  | none => exact Ty.alignAll?_congr (fun f _ _ _ hab => Ty.align?_congr f hab) h

/-- Inference from another list of the same key, where it infers types without placeholders. -/
theorem infer_of_beq (h : as == bs) (hinfer : m.infer as = .ok args)
    (hargs : ∀ a ∈ args, a.hasPlaceholder = false) : m.infer bs = .ok args := by
  rw [infer_eq_ok_iff] at hinfer ⊢
  rw [← hinfer]
  refine List.map_congr_left fun p hp => ?_
  have hmem : m.inferOne p.id as ∈ args.map some := by
    rw [← hinfer]
    exact List.mem_map_of_mem hp
  obtain ⟨a, ha, hpa⟩ := List.mem_map.1 hmem
  have hsame := inferOne_congr h (m := m) p.id
  rw [← hpa] at hsame ⊢
  cases hb : m.inferOne p.id bs with
  | none => rw [hb] at hsame; cases hsame
  | some b =>
    rw [hb] at hsame
    rw [Ty.eq_of_beq hsame (hargs a ha)]

end Method

namespace TypeSystem

variable {ts : TypeSystem} {g : MethodGroup} {policy : MissPolicy} {m c : Method}
  {args as bs : List Ty} {o : Outcome}

/-- A method is closed over types without placeholders only. -/
theorem hasPlaceholder_of_closing (h : ts.closing m args = .ok c) :
    ∀ a ∈ args, a.hasPlaceholder = false := (closing_eq_ok_iff.1 h).1.2.closed

/-- Resolution selects by the length of a list, and passes the list on for generic methods only. -/
theorem pick_bind_of_forall {measure : Measure}
    {f : Method → List Ty → Except ResolutionError Outcome} (hlength : as.length = bs.length)
    (hf : ∀ m, f m as = .ok o → f m bs = .ok o)
    (hok : (do
      let s ← g.pick measure as.length policy
      if s.method.isGeneric then f s.method as else return .wholeGroup) = .ok o) :
    (do
      let s ← g.pick measure bs.length policy
      if s.method.isGeneric then f s.method bs else return .wholeGroup) = .ok o := by
  rw [← hlength]
  cases hpick : g.pick measure as.length policy with
  | error e => rw [hpick] at hok; cases hok
  | ok s =>
    rw [hpick] at hok
    change (if s.method.isGeneric then _ else _) = _ at hok
    show (if s.method.isGeneric then _ else _) = _
    split at hok
    · rename_i hgeneric
      rw [if_pos hgeneric]
      exact hf s.method hok
    · rename_i hgeneric
      rw [if_neg hgeneric]
      exact hok

theorem argumentOutcome_of_beq (h : as == bs) (hok : ts.argumentOutcome g policy as = .ok o) :
    ts.argumentOutcome g policy bs = .ok o := by
  refine pick_bind_of_forall (f := fun m argTypes => do
    return .closed (← ts.closing m (← m.infer argTypes))) (List.length_eq_of_beq h) ?_ hok
  intro m hm
  cases hinfer : m.infer as with
  | error e => rw [hinfer] at hm; cases hm
  | ok args =>
    rw [hinfer] at hm
    change (ts.closing m args >>= _) = _ at hm
    cases hc : ts.closing m args with
    | error e => rw [hc] at hm; cases hm
    | ok c =>
      rw [Method.infer_of_beq h hinfer (hasPlaceholder_of_closing hc)]
      exact hm

theorem typeArgumentOutcome_of_beq (h : as == bs)
    (hok : ts.typeArgumentOutcome g policy as = .ok o) :
    ts.typeArgumentOutcome g policy bs = .ok o := by
  refine pick_bind_of_forall (f := fun m typeArgs => do
    return .closed (← ts.closing m typeArgs)) (List.length_eq_of_beq h) ?_ hok
  intro m hm
  cases hc : ts.closing m as with
  | error e => rw [hc] at hm; cases hm
  | ok c => rwa [← Ty.list_eq_of_beq h (hasPlaceholder_of_closing hc)]

end TypeSystem

end LateBinding
