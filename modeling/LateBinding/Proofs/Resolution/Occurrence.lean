import Mathlib.Data.List.Lex
import Mathlib.Data.Prod.Lex
import Mathlib.Order.Bounds.Basic
import LateBinding.Proofs.Resolution.Inference

/-!
# Inference by occurrences

A path leads from a type to one of its parts (`Ty.at?`).  An occurrence of a placeholder in a formal
type is aligned with an actual type if both are applications of the same definitions all along the
path (`Ty.Aligned`).  What inference puts into the slot of a parameter is told from paths alone: the
argument of the first formal that is the parameter, or else the part of an argument at the least
aligned occurrence (`Method.SlotFor`, `Method.inferSlots_eq_iff`).
-/

namespace LateBinding

namespace Ty

/-! ## Paths -/

/-- The arguments of an application. -/
def args : Ty → List Ty
  | app _ args => args
  | _ => []

/-- The part of a type at a path, which tells argument positions from the outside in. -/
def at? (t : Ty) : List ℕ → Option Ty
  | [] => some t
  | i :: path => t.args[i]?.bind fun a => a.at? path

/-- An occurrence of `p` in a formal type that is aligned with an actual type.  Wherever the path
goes on, both types have applications of the same definition to equally many arguments. -/
structure Aligned (p : Placeholder) (formal actual : Ty) (path : List ℕ) : Prop where
  occurs : ∃ cs, formal.at? path = some (.param p cs)
  agree : ∀ above i below, path = above ++ i :: below → ∃ n formals actuals,
    formal.at? above = some (.app n formals) ∧ actual.at? above = some (.app n actuals) ∧
      formals.length = actuals.length

/-- An aligned occurrence in the formal type at position `j`. -/
def AlignedIn (p : Placeholder) (formals actuals : List Ty) (j : ℕ) (path : List ℕ) : Prop :=
  ∃ formal actual, formals[j]? = some formal ∧ actuals[j]? = some actual ∧
    Aligned p formal actual path

variable {p : Placeholder} {formal actual : Ty} {formals actuals : List Ty} {path : List ℕ}

theorem aligned_nil_iff : Aligned p formal actual [] ↔ ∃ cs, formal = .param p cs := by
  constructor
  · intro h
    obtain ⟨cs, hcs⟩ := h.occurs
    exact ⟨cs, Option.some.inj hcs⟩
  · rintro ⟨cs, rfl⟩
    refine ⟨⟨cs, rfl⟩, fun above i below h => ?_⟩
    cases above <;> cases h

theorem at?_cons {t a : Ty} {i : ℕ} (ha : t.args[i]? = some a) : t.at? (i :: path) = a.at? path := by
  rw [at?, ha, Option.bind_some]

theorem aligned_cons_iff {j : ℕ} :
    Aligned p formal actual (j :: path) ↔ ∃ n formals actuals, formal = .app n formals ∧
      actual = .app n actuals ∧ formals.length = actuals.length ∧
        AlignedIn p formals actuals j path := by
  constructor
  · intro h
    obtain ⟨n, formals, actuals, hformal, hactual, hlength⟩ := h.agree [] j path rfl
    obtain rfl := Option.some.inj hformal
    obtain rfl := Option.some.inj hactual
    obtain ⟨cs, hcs⟩ := h.occurs
    obtain ⟨f, hf, hoccurs⟩ := Option.bind_eq_some_iff.1 hcs
    have hj : j < actuals.length := hlength ▸ (List.getElem?_eq_some_iff.1 hf).1
    have ha : actuals[j]? = some actuals[j] := List.getElem?_eq_getElem hj
    refine ⟨n, formals, actuals, rfl, rfl, hlength, f, actuals[j], hf, ha, ⟨cs, hoccurs⟩, ?_⟩
    intro above i below hpath
    have hagree := h.agree (j :: above) i below (congrArg (List.cons j) hpath)
    rwa [at?_cons (t := .app n formals) hf, at?_cons (t := .app n actuals) ha] at hagree
  · rintro ⟨n, formals, actuals, rfl, rfl, hlength, f, a, hf, ha, haligned⟩
    obtain ⟨cs, hcs⟩ := haligned.occurs
    refine ⟨⟨cs, Option.bind_eq_some_iff.2 ⟨f, hf, hcs⟩⟩, fun above i below hpath => ?_⟩
    cases above with
    | nil => exact ⟨n, formals, actuals, rfl, rfl, hlength⟩
    | cons k above =>
      obtain ⟨rfl, hbelow⟩ := List.cons.inj hpath
      rw [at?_cons (t := .app n formals) hf, at?_cons (t := .app n actuals) ha]
      exact haligned.agree above i below hbelow

/-! ## The first of several places -/

/-- What a search comes to that goes through places in order: the part at the least of them, or
nothing where there is no place. -/
inductive FoundFirst {ι : Type} [LE ι] (places : Set ι) (part : ι → Option Ty) : Option Ty → Prop
  | nothing (h : ∀ i, i ∉ places) : FoundFirst places part none
  | least {i : ι} {t : Ty} (hleast : IsLeast places i) (hpart : part i = some t) :
    FoundFirst places part (some t)

theorem FoundFirst.unique {ι : Type} [PartialOrder ι] {places : Set ι} {part : ι → Option Ty}
    {r r' : Option Ty} (h : FoundFirst places part r) (h' : FoundFirst places part r') : r = r' := by
  cases h with
  | nothing h =>
    cases h' with
    | nothing => rfl
    | least hleast _ => exact absurd hleast.1 (h _)
  | least hleast hpart =>
    cases h' with
    | nothing h => exact absurd hleast.1 (h _)
    | least hleast' hpart' => rw [← hpart, ← hpart', hleast.unique hleast']

/-- The places of aligned occurrences, ordered by the position of the formal and then by path. -/
def places (p : Placeholder) (formals actuals : List Ty) : Set (ℕ ×ₗ List ℕ) :=
  {place | AlignedIn p formals actuals (ofLex place).1 (ofLex place).2}

/-- The part at a place among several types. -/
def partIn (actuals : List Ty) (place : ℕ ×ₗ List ℕ) : Option Ty :=
  actuals[(ofLex place).1]?.bind fun a => a.at? (ofLex place).2

/-! ## The search through formals and arguments -/

section Cons

variable {j : ℕ}

theorem mem_places_zero :
    toLex (0, path) ∈ places p (formal :: formals) (actual :: actuals) ↔
      Aligned p formal actual path := by
  constructor
  · rintro ⟨_, _, ⟨⟩, ⟨⟩, h⟩
    exact h
  · intro h
    exact ⟨formal, actual, rfl, rfl, h⟩

theorem mem_places_succ :
    toLex (j + 1, path) ∈ places p (formal :: formals) (actual :: actuals) ↔
      toLex (j, path) ∈ places p formals actuals := Iff.rfl

/-- A search that goes through the first formal and then through the others. -/
theorem foundFirst_cons {r r' : Option Ty}
    (hhead : FoundFirst {path | Aligned p formal actual path} actual.at? r)
    (htail : FoundFirst (places p formals actuals) (partIn actuals) r') :
    FoundFirst (places p (formal :: formals) (actual :: actuals)) (partIn (actual :: actuals))
      (r.or r') := by
  cases hhead with
  | @least path t hleast hpart =>
    refine .least (i := toLex (0, path)) ⟨mem_places_zero.2 hleast.1, ?_⟩ hpart
    rintro ⟨j, path'⟩ hplace
    cases j with
    | zero => exact Prod.Lex.toLex_le_toLex.2 (.inr ⟨rfl, hleast.2 (mem_places_zero.1 hplace)⟩)
    | succ j => exact Prod.Lex.toLex_le_toLex.2 (.inl j.succ_pos)
  | nothing hhead =>
    cases htail with
    | nothing htail =>
      refine .nothing ?_
      rintro ⟨j, path⟩ hplace
      cases j with
      | zero => exact hhead path (mem_places_zero.1 hplace)
      | succ j => exact htail (toLex (j, path)) hplace
    | @least place t hleast hpart =>
      obtain ⟨j, path⟩ := place
      refine .least (i := toLex (j + 1, path)) ⟨mem_places_succ.2 hleast.1, ?_⟩ hpart
      rintro ⟨k, path'⟩ hplace
      cases k with
      | zero => exact absurd (mem_places_zero.1 hplace) (hhead path')
      | succ k =>
        refine Prod.Lex.toLex_le_toLex.2 ?_
        exact (Prod.Lex.toLex_le_toLex.1 (hleast.2 (mem_places_succ.1 hplace))).imp
          Nat.succ_lt_succ (And.imp_left (congrArg Nat.succ))

end Cons

theorem foundFirst_alignAll? (h : ∀ formal ∈ formals, ∀ actual,
      FoundFirst {path | Aligned p formal actual path} actual.at? (align? p formal actual))
    (actuals : List Ty) :
    FoundFirst (places p formals actuals) (partIn actuals) (alignAll? p formals actuals) := by
  induction formals generalizing actuals with
  | nil =>
    refine .nothing ?_
    rintro place ⟨formal, actual, hformal, -⟩
    cases hformal
  | cons formal formals ih =>
    cases actuals with
    | nil =>
      refine .nothing ?_
      rintro place ⟨formal, actual, -, hactual, -⟩
      cases hactual
    | cons actual actuals =>
      have hhead := h formal List.mem_cons_self actual
      have htail := ih (fun f hf => h f (List.mem_cons_of_mem formal hf)) actuals
      rw [alignAll?]
      exact foundFirst_cons hhead htail

/-- Two applications of the same definition are searched like their lists of arguments. -/
theorem FoundFirst.app {n : TypeName} (hlength : formals.length = actuals.length) {r : Option Ty}
    (h : FoundFirst (places p formals actuals) (partIn actuals) r) :
    FoundFirst {path | Aligned p (.app n formals) (.app n actuals) path}
      (Ty.app n actuals).at? r := by
  have hcons : ∀ {path}, Aligned p (.app n formals) (.app n actuals) path →
      ∃ place ∈ places p formals actuals, path = (ofLex place).1 :: (ofLex place).2 := by
    intro path haligned
    cases path with
    | nil =>
      obtain ⟨cs, ⟨⟩⟩ := aligned_nil_iff.1 haligned
    | cons j path =>
      obtain ⟨_, _, _, ⟨⟩, ⟨⟩, -, hin⟩ := aligned_cons_iff.1 haligned
      exact ⟨toLex (j, path), hin, rfl⟩
  cases h with
  | nothing h =>
    refine .nothing fun path haligned => ?_
    obtain ⟨place, hplace, -⟩ := hcons haligned
    exact h place hplace
  | @least place t hleast hpart =>
    have haligned : Aligned p (.app n formals) (.app n actuals)
        ((ofLex place).1 :: (ofLex place).2) :=
      aligned_cons_iff.2 ⟨n, formals, actuals, rfl, rfl, hlength, hleast.1⟩
    refine .least ⟨haligned, fun path hpath => ?_⟩ hpart
    obtain ⟨place', hplace', rfl⟩ := hcons hpath
    -- The order of places among the arguments is the order of paths that start with a position.
    obtain hlt | ⟨heq, hle⟩ := Prod.Lex.le_iff.1 (hleast.2 hplace')
    · exact le_of_lt (List.cons_lt_cons_iff.2 (.inl hlt))
    · rw [heq]
      exact List.cons_le_cons _ hle

theorem not_aligned (hparam : ∀ cs, formal ≠ .param p cs)
    (happ : ∀ n formals actuals, formal = .app n formals → actual = .app n actuals →
      formals.length ≠ actuals.length) : ¬ Aligned p formal actual path := by
  intro h
  cases path with
  | nil =>
    obtain ⟨cs, hcs⟩ := aligned_nil_iff.1 h
    exact hparam cs hcs
  | cons j path =>
    obtain ⟨n, formals, actuals, hformal, hactual, hlength, -⟩ := aligned_cons_iff.1 h
    exact happ n formals actuals hformal hactual hlength

theorem foundFirst_align? (p : Placeholder) (formal actual : Ty) :
    FoundFirst {path | Aligned p formal actual path} actual.at? (align? p formal actual) := by
  induction formal generalizing actual with
  | con n => exact .nothing fun _ => not_aligned (by simp) (by simp)
  | host n => exact .nothing fun _ => not_aligned (by simp) (by simp)
  | param q cs =>
    rw [align?]
    split
    case isTrue hq =>
      subst hq
      have hnil : Aligned q (.param q cs) actual [] := aligned_nil_iff.2 ⟨cs, rfl⟩
      exact .least ⟨hnil, fun path _ => not_lt.1 (List.not_lt_nil path)⟩ rfl
    case isFalse hq =>
      refine .nothing fun _ => not_aligned ?_ (by simp)
      rintro cs ⟨⟩
      exact hq rfl
  | app n formals ih =>
    cases actual with
    | app m actuals =>
      rw [align?]
      split
      case isTrue h =>
        obtain ⟨rfl, hlength⟩ := h
        exact (foundFirst_alignAll? ih actuals).app hlength
      case isFalse h =>
        -- The mismatch rules out every place in here and says nothing about the places outside.
        refine .nothing fun _ => not_aligned (by simp) ?_
        rintro _ _ _ ⟨⟩ ⟨⟩ hlength
        exact h ⟨rfl, hlength⟩
    | con m => exact .nothing fun _ => not_aligned (by simp) (by simp)
    | param q cs => exact .nothing fun _ => not_aligned (by simp) (by simp)
    | host m => exact .nothing fun _ => not_aligned (by simp) (by simp)

end Ty

namespace Method

variable {m : Method} {argTypes : List Ty} {p : Placeholder} {slot slot' : Option Ty}

/-- What belongs into the slot of a parameter.  Formals that are the parameter itself come before all
other occurrences. -/
inductive SlotFor (m : Method) (argTypes : List Ty) (p : Placeholder) : Option Ty → Prop
  | direct {j : ℕ} (hleast : IsLeast {j | m.ExactAt p j} j) : SlotFor m argTypes p argTypes[j]?
  | aligned {slot : Option Ty} (hexact : ∀ j, ¬ m.ExactAt p j)
    (hfound : Ty.FoundFirst (Ty.places p m.formalTypes argTypes) (Ty.partIn argTypes) slot) :
    SlotFor m argTypes p slot

theorem SlotFor.unique (h : m.SlotFor argTypes p slot) (h' : m.SlotFor argTypes p slot') :
    slot = slot' := by
  cases h with
  | direct hleast =>
    cases h' with
    | direct hleast' => rw [hleast.unique hleast']
    | aligned hexact _ => exact absurd hleast.1 (hexact _)
  | aligned hexact hfound =>
    cases h' with
    | direct hleast => exact absurd hleast.1 (hexact _)
    | aligned _ hfound' => exact hfound.unique hfound'

theorem slotFor_inferOne (m : Method) (argTypes : List Ty) (p : Placeholder) :
    m.SlotFor argTypes p (m.inferOne p argTypes) := by
  unfold inferOne
  cases hexact : m.exactFormal? p with
  | some j => exact .direct (isLeast_exactFormal? hexact)
  | none =>
    refine .aligned (exactFormal?_eq_none_iff.1 hexact) ?_
    exact Ty.foundFirst_alignAll? (fun formal _ actual => Ty.foundFirst_align? p formal actual) _

theorem slotFor_iff : m.SlotFor argTypes p slot ↔ m.inferOne p argTypes = slot := by
  constructor
  · exact (slotFor_inferOne m argTypes p).unique
  · rintro rfl
    exact slotFor_inferOne m argTypes p

/-- Inference returns the type at the first aligned occurrence.  The slots are the list with the one
right slot for every parameter. -/
theorem inferSlots_eq_iff (m : Method) (argTypes : List Ty) (slots : List (Option Ty)) :
    m.inferSlots argTypes = slots ↔
      List.Forall₂ (fun p slot => m.SlotFor argTypes p.id slot) m.generics slots := by
  simp only [slotFor_iff]
  rw [inferSlots, ← List.forall₂_eq_eq_eq, List.forall₂_map_left_iff]

/-- A mismatch in the first part of a pair does not end the search. -/
example :
    let t : Placeholder := ⟨"T", 0, .method⟩
    let pair (a b : Ty) : Ty := .app ⟨"Demo", "Pair"⟩ [a, b]
    let listed : Ty := .app ⟨"Demo", "List"⟩ [.param t []]
    let m : Method := {
      name := "Put", generics := [⟨t, []⟩], formals := [⟨"p", pair listed (.param t [])⟩] }
    m.inferSlots [pair (.con ⟨"Demo", "Key"⟩) (.con ⟨"Demo", "Item"⟩)] =
      [some (.con ⟨"Demo", "Item"⟩)] := by
  rfl

end Method

end LateBinding
