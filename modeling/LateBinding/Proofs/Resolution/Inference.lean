import Mathlib.Data.List.Forall2
import Mathlib.Order.Bounds.Basic
import LateBinding.Inference
import LateBinding.Proofs.Resolution.Signature

/-!
# Inference from substituted formals

Substitution puts type arguments by position, inference looks placeholders up by identity.  On a
formal type and its instance under `Ty.subst` the two meet (`Ty.align?_subst`), and inference from
the formals of a method with numbered parameters gives the substituted arguments back
(`Method.inferSlots_subst`).
-/

namespace LateBinding

namespace Ty

variable {p : Placeholder} {args : List Ty} {s : Ty}

theorem isParam_iff {t : Ty} : t.isParam p = true ↔ ∃ cs, t = .param p cs := by
  cases t with
  | param q cs =>
    rw [isParam, decide_eq_true_eq]
    constructor
    · rintro rfl
      exact ⟨cs, rfl⟩
    · rintro ⟨_, ⟨⟩⟩
      rfl
  | con n => exact ⟨nofun, nofun⟩
  | app n args => exact ⟨nofun, nofun⟩
  | host n => exact ⟨nofun, nofun⟩

theorem subst_param (howner : p.owner = .method) (hs : args[p.position]? = some s)
    (cs : List Ty) : (param p cs).subst args = s := by
  simp only [subst, howner, hs, Option.getD_some]

theorem alignAll?_subst {ts : List Ty}
    (h : ∀ t ∈ ts, align? p t (t.subst args) = if t.mentions p then some s else none) :
    alignAll? p ts (ts.map (subst args)) = if ts.any (mentions p) then some s else none := by
  induction ts with
  | nil => rfl
  | cons t ts ih =>
    have hrest := ih fun u hu => h u (List.mem_cons_of_mem t hu)
    rw [List.map_cons, alignAll?, h t List.mem_cons_self, hrest, List.any_cons]
    cases t.mentions p with
    | true => rfl
    | false => rfl

theorem align?_subst (howner : p.owner = .method) (hs : args[p.position]? = some s) (t : Ty) :
    align? p t (t.subst args) = if t.mentions p then some s else none := by
  induction t with
  | con n => rfl
  | host n => rfl
  | app n ts ih =>
    simp only [subst, align?, mentions, substAll_eq_map, anyMentions_eq_any, List.length_map,
      and_self, if_true]
    exact alignAll?_subst ih
  | param q cs =>
    simp only [align?, mentions, decide_eq_true_eq]
    by_cases hq : q = p
    · subst hq
      rw [if_pos rfl, if_pos rfl, subst_param howner hs]
    · rw [if_neg hq, if_neg hq]

end Ty

namespace Method

/-- The types of the formals, in order. -/
def formalTypes (m : Method) : List Ty := m.formals.map (·.ty)

@[simp] theorem length_formalTypes (m : Method) : m.formalTypes.length = m.arity :=
  List.length_map _

theorem formalTypes_close (m : Method) (args : List Ty) :
    (m.close args).formalTypes = m.formalTypes.map (Ty.subst args) := by
  simp only [formalTypes, close, List.map_map]
  rfl

variable {m : Method} {args : List Ty}

/-- The formal at position `j` is the parameter itself. -/
def ExactAt (m : Method) (p : Placeholder) (j : ℕ) : Prop :=
  ∃ cs, m.formalTypes[j]? = some (.param p cs)

theorem exactAt_iff {p : Placeholder} {j : ℕ} :
    m.ExactAt p j ↔ ∃ h : j < m.formals.length, m.formals[j].ty.isParam p = true := by
  simp only [ExactAt, formalTypes, Ty.isParam_iff, List.getElem?_eq_some_iff, List.length_map,
    List.getElem_map]
  exact exists_comm

theorem exactFormal?_eq_none_iff {p : Placeholder} :
    m.exactFormal? p = none ↔ ∀ j, ¬ m.ExactAt p j := by
  rw [exactFormal?, List.findIdx?_eq_none_iff, List.forall_mem_iff_getElem]
  simp only [exactAt_iff, not_exists, Bool.not_eq_true]

theorem isLeast_exactFormal? {p : Placeholder} {j : ℕ} (h : m.exactFormal? p = some j) :
    IsLeast {j | m.ExactAt p j} j := by
  obtain ⟨hj, hparam, hbefore⟩ := List.findIdx?_eq_some_iff_getElem.1 h
  refine ⟨exactAt_iff.2 ⟨hj, hparam⟩, fun i hi => not_lt.1 fun hij => ?_⟩
  exact hbefore i hij (exactAt_iff.1 hi).2

/-- Inference for one parameter.  A formal that is the parameter itself decides, but no other place
could give a different type. -/
theorem inferOne_subst {p : Placeholder} {s : Ty} (howner : p.owner = .method)
    (hs : args[p.position]? = some s) (hmentions : ∃ t ∈ m.formalTypes, t.mentions p) :
    m.inferOne p (m.formalTypes.map (Ty.subst args)) = some s := by
  unfold inferOne
  cases hexact : m.exactFormal? p with
  | some j =>
    obtain ⟨cs, hcs⟩ := (isLeast_exactFormal? hexact).1
    simp only [List.getElem?_map, hcs, Option.map_some, Ty.subst_param howner hs]
  | none =>
    have hany : m.formalTypes.any (Ty.mentions p) = true := List.any_eq_true.2 hmentions
    have halign : Ty.alignAll? p m.formalTypes (m.formalTypes.map (Ty.subst args)) = _ :=
      Ty.alignAll?_subst fun t _ => Ty.align?_subst howner hs t
    rw [hany, if_pos rfl] at halign
    exact halign

theorem inferSlots_subst (hnumbered : Numbered m.generics) (hlength : args.length = m.typeArity)
    (hmentions : ∀ p ∈ m.generics, ∃ t ∈ m.formalTypes, t.mentions p.id) :
    m.inferSlots (m.formalTypes.map (Ty.subst args)) = args.map some := by
  refine List.ext_getElem? fun i => ?_
  rw [inferSlots, List.getElem?_map, List.getElem?_map]
  cases hp : m.generics[i]? with
  | none =>
    have hi : args.length ≤ i := by
      have := List.getElem?_eq_none_iff.1 hp
      rw [hlength]
      exact this
    rw [List.getElem?_eq_none hi]
    rfl
  | some p =>
    obtain ⟨hposition, howner⟩ := hnumbered i p hp
    have hi : i < args.length := by
      have := (List.getElem?_eq_some_iff.1 hp).1
      rw [hlength]
      exact this
    have hs : args[p.id.position]? = some args[i] := by
      rw [hposition, List.getElem?_eq_getElem hi]
    rw [Option.map_some, inferOne_subst howner hs (hmentions p (List.mem_of_getElem? hp)),
      List.getElem?_eq_getElem hi, Option.map_some]

theorem mapM_eq_ok_iff {f : α → Except ε β} {xs : List α} {ys : List β} :
    xs.mapM f = .ok ys ↔ List.Forall₂ (fun x y => f x = .ok y) xs ys := by
  induction xs generalizing ys with
  | nil =>
    rw [List.mapM_nil, List.forall₂_nil_left_iff]
    exact ⟨fun h => (Except.ok.inj h).symm, fun h => congrArg _ h.symm⟩
  | cons x xs ih =>
    rw [List.mapM_cons, List.forall₂_cons_left_iff]
    constructor
    · intro h
      cases hx : f x with
      | error e =>
        rw [hx] at h
        cases h
      | ok y =>
        cases hxs : xs.mapM f with
        | error e =>
          rw [hx, hxs] at h
          cases h
        | ok ys' =>
          rw [hx, hxs] at h
          cases h
          exact ⟨y, ys', rfl, ih.1 hxs, rfl⟩
    · rintro ⟨y, ys', hx, hxs, rfl⟩
      rw [hx, ih.2 hxs]
      rfl

/-- A traversal fails with its first failure. -/
theorem exists_first_of_mapM_eq_error {f : α → Except ε β} {xs : List α} {e : ε}
    (h : xs.mapM f = .error e) :
    ∃ (i : ℕ) (x : α), xs[i]? = some x ∧ f x = .error e ∧
      ∀ k < i, ∀ y, xs[k]? = some y → ∃ b, f y = .ok b := by
  induction xs with
  | nil => cases h
  | cons x xs ih =>
    rw [List.mapM_cons] at h
    cases hx : f x with
    | error e' =>
      rw [hx] at h
      cases h
      exact ⟨0, x, rfl, hx, nofun⟩
    | ok b =>
      cases hxs : xs.mapM f with
      | ok bs =>
        rw [hx, hxs] at h
        cases h
      | error e' =>
        rw [hx, hxs] at h
        cases h
        obtain ⟨i, x', hi, hfx', hbefore⟩ := ih hxs
        refine ⟨i + 1, x', hi, hfx', fun k hk y hy => ?_⟩
        cases k with
        | zero =>
          cases hy
          exact ⟨b, hx⟩
        | succ k => exact hbefore k (Nat.lt_of_succ_lt_succ hk) y hy

/-- Inference succeeds if and only if all slots are filled. -/
theorem infer_eq_ok_iff {argTypes : List Ty} :
    m.infer argTypes = .ok args ↔ m.inferSlots argTypes = args.map some := by
  rw [infer, inferSlots, mapM_eq_ok_iff, ← List.forall₂_eq_eq_eq, List.forall₂_map_left_iff,
    List.forall₂_map_right_iff]
  constructor
  · refine List.Forall₂.imp fun p a h => ?_
    cases hp : m.inferOne p.id argTypes with
    | none =>
      rw [hp] at h
      cases h
    | some b =>
      rw [hp] at h
      cases h
      rfl
  · refine List.Forall₂.imp fun p a h => ?_
    rw [h]

theorem getElem?_inferSlots_eq_none_iff {argTypes : List Ty} {i : ℕ} :
    (m.inferSlots argTypes)[i]? = some none ↔
      ∃ p, m.generics[i]? = some p ∧ m.inferOne p.id argTypes = none := by
  rw [inferSlots, List.getElem?_map, Option.map_eq_some_iff]

/-- Inference fails for want of a type for the first parameter whose slot is empty, and for no other
reason. -/
theorem exists_unsolved_of_infer {argTypes : List Ty} {e : ResolutionError}
    (h : m.infer argTypes = .error e) :
    ∃ (i : ℕ) (p : GenericParam), m.generics[i]? = some p ∧ e = .unsolved m.name p.id.name ∧
      IsLeast {i | (m.inferSlots argTypes)[i]? = some none} i := by
  obtain ⟨i, p, hp, hfail, hbefore⟩ := exists_first_of_mapM_eq_error h
  cases hinfer : m.inferOne p.id argTypes with
  | some t =>
    rw [hinfer] at hfail
    cases hfail
  | none =>
    rw [hinfer] at hfail
    cases hfail
    refine ⟨i, p, hp, rfl, getElem?_inferSlots_eq_none_iff.2 ⟨p, hp, hinfer⟩, fun k hk => ?_⟩
    obtain ⟨q, hq, hnone⟩ := getElem?_inferSlots_eq_none_iff.1 hk
    refine not_lt.1 fun hki => ?_
    obtain ⟨t, ht⟩ := hbefore k hki q hq
    rw [hnone] at ht
    cases ht

end Method

end LateBinding
