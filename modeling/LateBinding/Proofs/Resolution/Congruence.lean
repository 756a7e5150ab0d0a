import LateBinding.Proofs.Hierarchy
import LateBinding.Proofs.Resolution.Keys
import LateBinding.Proofs.Resolution.Representable

/-!
# Equal types are interchangeable

Two types are equal if nothing is left to tell them apart once the constraints of all placeholders
are dropped (`Ty.beq_iff`).  So whatever looks at a type without its constraints takes equal types
for one, and so do substitution, inference and the closing of methods, which pass types on but never
look at their constraints (`TypeSystem.equal_keys_interchangeable`).
-/

namespace LateBinding

namespace Ty

/-! ## Types without constraints -/

mutual

/-- The type with the constraints of all placeholders dropped, at every depth. -/
def unconstrained : Ty → Ty
  | con n => con n
  | app n args => app n (unconstrainedAll args)
  | param id _ => param id []
  | host n => host n

/-- `unconstrained` on each of several types. -/
def unconstrainedAll : List Ty → List Ty
  | [] => []
  | t :: ts => t.unconstrained :: unconstrainedAll ts

end

@[simp] theorem unconstrainedAll_eq_map (ts : List Ty) :
    unconstrainedAll ts = ts.map unconstrained := by
  induction ts with
  | nil => rfl
  | cons t ts ih => simp [unconstrainedAll, ih]

variable {t u : Ty} {as bs : List Ty}

theorem list_beq_iff_of_forall
    (h : ∀ a ∈ as, ∀ {b : Ty}, (a == b) = true ↔ a.unconstrained = b.unconstrained) :
    (as == bs) = true ↔ as.map unconstrained = bs.map unconstrained := by
  induction as generalizing bs with
  | nil =>
    cases bs with
    | nil => exact ⟨fun _ => rfl, fun _ => rfl⟩
    | cons b bs => exact ⟨nofun, nofun⟩
  | cons a as ih =>
    cases bs with
    | nil => exact ⟨nofun, nofun⟩
    | cons b bs =>
      rw [List.cons_beq_cons, Bool.and_eq_true, h a List.mem_cons_self,
        ih fun c hc => h c (List.mem_cons_of_mem a hc), List.map_cons, List.map_cons,
        List.cons.injEq]

/-- Equality leaves the constraints aside, and nothing else. -/
theorem beq_iff : (t == u) = true ↔ t.unconstrained = u.unconstrained := by
  show same t u = true ↔ _
  induction t generalizing u with
  | con n => cases u <;> simp [same, unconstrained]
  | host n => cases u <;> simp [same, unconstrained]
  | param id cs => cases u <;> simp [same, unconstrained]
  | app n as ih =>
    cases u with
    | app m bs =>
      simp only [same, sameAll_eq_beq, Bool.and_eq_true, decide_eq_true_eq, unconstrained,
        unconstrainedAll_eq_map, app.injEq]
      rw [list_beq_iff_of_forall fun a ha b => ih a ha]
    | _ => simp [same, unconstrained]

theorem list_beq_iff : (as == bs) = true ↔ as.map unconstrained = bs.map unconstrained :=
  list_beq_iff_of_forall fun _ _ => beq_iff

/-- A view of types that does not see constraints takes equal types for one. -/
theorem congr_of_unconstrained {f : Ty → β} (hf : ∀ t : Ty, f t.unconstrained = f t)
    (h : (t == u) = true) : f t = f u := by
  rw [← hf t, beq_iff.1 h, hf u]

/-! ## Views that do not see constraints -/

theorem display_unconstrained (t : Ty) : t.unconstrained.display = t.display := by
  induction t with
  | con n => rfl
  | host n => rfl
  | param id cs => rfl
  | app n as ih =>
    have hmap : (as.map unconstrained).map display = as.map display := by
      rw [List.map_map]
      exact List.map_congr_left ih
    simp only [unconstrained, display, unconstrainedAll_eq_map, displayAll_eq_map, hmap]

theorem any_unconstrained {test : Ty → Bool} (h : ∀ a ∈ as, test a.unconstrained = test a) :
    (as.map unconstrained).any test = as.any test := by
  induction as with
  | nil => rfl
  | cons a as ih =>
    rw [List.map_cons, List.any_cons, List.any_cons, h a List.mem_cons_self,
      ih fun c hc => h c (List.mem_cons_of_mem a hc)]

theorem hasPlaceholder_unconstrained (t : Ty) :
    t.unconstrained.hasPlaceholder = t.hasPlaceholder := by
  induction t with
  | con n => rfl
  | host n => rfl
  | param id cs => rfl
  | app n as ih =>
    simp only [unconstrained, hasPlaceholder, unconstrainedAll_eq_map, anyHasPlaceholder_eq_any]
    exact any_unconstrained ih

theorem mentions_unconstrained (p : Placeholder) (t : Ty) :
    t.unconstrained.mentions p = t.mentions p := by
  induction t with
  | con n => rfl
  | host n => rfl
  | param id cs => rfl
  | app n as ih =>
    simp only [unconstrained, mentions, unconstrainedAll_eq_map, anyMentions_eq_any]
    exact any_unconstrained ih

/-! ## Substitution -/

/-- Constraints that are dropped first are not missed by a substitution. -/
theorem unconstrained_subst (t : Ty) (args : List Ty) :
    (t.subst args).unconstrained = t.unconstrained.subst (args.map unconstrained) := by
  induction t with
  | con n => rfl
  | host n => rfl
  | param id cs =>
    simp only [unconstrained, subst]
    cases id.owner with
    | type => rfl
    | method =>
      simp only [List.getElem?_map]
      cases args[id.position]? <;> rfl
  | app n as ih =>
    simp only [unconstrained, subst, unconstrainedAll_eq_map, substAll_eq_map, List.map_map]
    exact congrArg (app n) (List.map_congr_left ih)

theorem subst_congr (h : (t == u) = true) (hargs : (as == bs) = true) :
    (t.subst as == u.subst bs) = true := by
  rw [beq_iff, unconstrained_subst, unconstrained_subst, beq_iff.1 h, list_beq_iff.1 hargs]

end Ty

/-! ## Inference and closing -/

namespace Method

theorem inferSlots_congr {as bs : List Ty} (h : (as == bs) = true) (m : Method) :
    (m.inferSlots as == m.inferSlots bs) = true := by
  unfold inferSlots
  induction m.generics with
  | nil => rfl
  | cons p ps ih =>
    rw [List.map_cons, List.map_cons, List.cons_beq_cons, Bool.and_eq_true]
    exact ⟨inferOne_congr h p.id, ih⟩

end Method

namespace TypeSystem

variable {ts : TypeSystem} {m c : Method} {as bs : List Ty}

/-- A method that is closed over types is closed over the same types under another spelling, as they
have no placeholders whose constraints could differ. -/
theorem close_of_beq (h : (as == bs) = true) (hok : answer (close m as) ts = .ok c) :
    answer (close m bs) ts = .ok c := by
  have hclosed := (answer_close_eq_ok_iff.1 hok).1.2.closed
  rwa [← Ty.list_eq_of_beq h hclosed]

/-- Types are equal exactly if they are the same but for the constraints of placeholders, and this
is an equivalence.  Equal types have the same text and the same definition and mention the same
placeholders, and substitution of equal arguments makes equal types of them.  Equal lists of types
fill the slots of every method with equal types, and every method is closed over the one list
exactly if it is closed over the other, with the very same result. -/
theorem equal_keys_interchangeable (ts : TypeSystem) :
    (∀ t u : Ty, (t == u) = true ↔ t.unconstrained = u.unconstrained) ∧
      Equivalence (fun t u : Ty => (t == u) = true) ∧
      (∀ t u : Ty, (t == u) = true →
        t.display = u.display ∧ t.name? = u.name? ∧ t.hasPlaceholder = u.hasPlaceholder ∧
          (∀ p, t.mentions p = u.mentions p) ∧
          ∀ as bs : List Ty, (as == bs) = true → (t.subst as == u.subst bs) = true) ∧
      ∀ as bs : List Ty, (as == bs) = true → ∀ m : Method,
        (m.inferSlots as == m.inferSlots bs) = true ∧
          ((∃ c, answer (close m as) ts = .ok c) ↔ ∃ c, answer (close m bs) ts = .ok c) ∧
          ∀ c c', answer (close m as) ts = .ok c → answer (close m bs) ts = .ok c' → c = c' := by
  refine ⟨fun t u => Ty.beq_iff, ⟨fun t => BEq.rfl, BEq.symm, BEq.trans⟩, fun t u h => ?_,
    fun as bs h m => ⟨Method.inferSlots_congr h m, ⟨?_, ?_⟩, fun c c' hc hc' => ?_⟩⟩
  · exact ⟨Ty.congr_of_unconstrained Ty.display_unconstrained h, Ty.name?_congr h,
      Ty.congr_of_unconstrained Ty.hasPlaceholder_unconstrained h,
      fun p => Ty.congr_of_unconstrained (Ty.mentions_unconstrained p) h,
      fun as bs => Ty.subst_congr h⟩
  · exact fun ⟨c, hc⟩ => ⟨c, close_of_beq h hc⟩
  · exact fun ⟨c, hc⟩ => ⟨c, close_of_beq (BEq.symm h) hc⟩
  · exact Except.ok.inj ((close_of_beq h hc).symm.trans hc')

/-- Two boxes of a placeholder that differ in its constraint are different types, but equal ones. -/
theorem equal_keys_interchangeable_boxed :
    let sized : Ty := .con ⟨"Demo", "Sized"⟩
    let box (ty : Ty) : Ty := .app ⟨"Demo", "Box"⟩ [ty]
    let t : Placeholder := ⟨"T", 0, .method⟩
    let bounded : Ty := box (.param t [sized])
    let free : Ty := box (.param t [])
    let wrap : Method := {
      name := "Wrap", generics := [⟨t, [sized]⟩], formals := [⟨"x", box (.param t [sized])⟩] }
    bounded ≠ free ∧ (bounded == free) = true ∧ bounded.display = free.display ∧
      (bounded.subst [box sized] == free.subst [box sized]) = true ∧
      wrap.inferSlots [bounded] = [some (.param t [sized])] ∧
      (wrap.inferSlots [bounded] == wrap.inferSlots [free]) = true ∧
      ((∃ c, answer (close wrap [bounded]) {} = .ok c) ↔
        ∃ c, answer (close wrap [free]) {} = .ok c) := by
  intro sized box t bounded free wrap
  have hequal : (bounded == free) = true := by decide
  have hkeys : ([bounded] == [free]) = true := by decide
  have hargs : ([box sized] == [box sized]) = true := by decide
  have hdistinct : bounded ≠ free := by simp [bounded, free, box]
  obtain ⟨-, -, htypes, hlists⟩ := equal_keys_interchangeable {}
  obtain ⟨hdisplay, -, -, -, hsubst⟩ := htypes bounded free hequal
  obtain ⟨hslots, hclose, -⟩ := hlists [bounded] [free] hkeys wrap
  exact ⟨hdistinct, hequal, hdisplay, hsubst _ _ hargs, rfl, hslots, hclose⟩

end TypeSystem

end LateBinding
