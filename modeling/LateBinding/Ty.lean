import LateBinding.TypeName

/-!
# Foreign types

A type is a closed definition (`con`), a generic definition applied to arguments (`app`), a
placeholder of a generic declaration (`param`) or a type of the caller's side without a foreign
counterpart (`host`).  Placeholders are told apart by name, position and owner alone: the
constraints they carry take no part in the equality `Ty.same`, at any depth.  `Ty.subst` closes
method-level placeholders over a list of arguments by position.
-/

namespace LateBinding

/-- The kind of declaration that introduces a placeholder. -/
inductive Owner where
  | type
  | method
deriving DecidableEq, Repr, Inhabited

/-- The identity of a placeholder. -/
structure Placeholder where
  name : String
  position : Nat
  owner : Owner
deriving DecidableEq, Repr, Inhabited

/-- Types of the foreign side.  The constraints of a placeholder are the types its argument must
implement. -/
inductive Ty where
  | con (name : TypeName)
  | app (name : TypeName) (args : List Ty)
  | param (id : Placeholder) (constraints : List Ty)
  | host (name : String)
deriving Repr, Inhabited

/-- A placeholder as a generic declaration lists it. -/
structure GenericParam where
  id : Placeholder
  constraints : List Ty
deriving Repr, Inhabited

/-- The type that stands for a generic parameter. -/
def GenericParam.toTy (p : GenericParam) : Ty := .param p.id p.constraints

namespace Ty

/-! ## Constructors by name -/

/-- The closed type with a dotted name. -/
def named (qualified : String) : Ty := .con (.parse qualified)

/-- The generic type with a dotted name, applied to `args`. -/
def generic (qualified : String) (args : List Ty) : Ty := .app (.parse qualified) args

/-- The type of lists of `elem`. -/
def list (elem : Ty) : Ty := generic "System.Collections.Generic.IList" [elem]

/-- The type of dictionaries from `key` to `value`. -/
def dictionary (key value : Ty) : Ty :=
  generic "System.Collections.Generic.IDictionary" [key, value]

/-- The universal object type. -/
def object : Ty := named "System.Object"

/-! ## Parts and text -/

/-- The name of the definition a type is made from; placeholders and host types have none. -/
def name? : Ty → Option TypeName
  | con n => some n
  | app n _ => some n
  | param _ _ => none
  | host _ => none

/-- Whether the type itself is a placeholder. -/
def isPlaceholder : Ty → Bool
  | param _ _ => true
  | _ => false

/-- Whether the type itself belongs to the caller's side. -/
def isHost : Ty → Bool
  | host _ => true
  | _ => false

mutual

/-- The text of a type: arguments in angle brackets, a placeholder by its name. -/
def display : Ty → String
  | con n => n.display
  | app n args => n.display ++ "<" ++ ", ".intercalate (displayAll args) ++ ">"
  | param id _ => id.name
  | host n => "<host " ++ n ++ ">"

/-- The texts of several types. -/
def displayAll : List Ty → List String
  | [] => []
  | t :: ts => t.display :: displayAll ts

end

/-! ## Equality up to constraints -/

mutual

/-- Equality of types that leaves the constraints of placeholders aside. -/
def same : Ty → Ty → Bool
  | con a, con b => a = b
  | app a as, app b bs => a = b && sameAll as bs
  | param p _, param q _ => p = q
  | host a, host b => a = b
  | _, _ => false

/-- Lists of equal length whose types are pairwise the same. -/
def sameAll : List Ty → List Ty → Bool
  | [], [] => true
  | a :: as, b :: bs => same a b && sameAll as bs
  | _, _ => false

end

instance : BEq Ty := ⟨same⟩

/-! ## Placeholders inside a type -/

mutual

/-- Whether a placeholder occurs anywhere inside the type. -/
def hasPlaceholder : Ty → Bool
  | con _ => false
  | app _ args => anyHasPlaceholder args
  | param _ _ => true
  | host _ => false

/-- Whether a placeholder occurs inside one of the types. -/
def anyHasPlaceholder : List Ty → Bool
  | [] => false
  | t :: ts => t.hasPlaceholder || anyHasPlaceholder ts

end

mutual

/-- Whether the placeholder `p` occurs anywhere inside the type. -/
def mentions (p : Placeholder) : Ty → Bool
  | con _ => false
  | app _ args => anyMentions p args
  | param q _ => q = p
  | host _ => false

/-- Whether the placeholder `p` occurs inside one of the types. -/
def anyMentions (p : Placeholder) : List Ty → Bool
  | [] => false
  | t :: ts => t.mentions p || anyMentions p ts

end

/-! ## Substitution -/

mutual

/-- Puts `args[i]` for every method-level placeholder of position `i`.  Type-level placeholders,
and those whose position has no argument, stay. -/
def subst (args : List Ty) : Ty → Ty
  | con n => con n
  | app n ts => app n (substAll args ts)
  | param id cs =>
    match id.owner with
    | .method => (args[id.position]?).getD (param id cs)
    | .type => param id cs
  | host n => host n

/-- `subst` on each of several types. -/
def substAll (args : List Ty) : List Ty → List Ty
  | [] => []
  | t :: ts => t.subst args :: substAll args ts

end

/-! ## Induction and the list forms -/

/-- Induction over types, with a hypothesis for every argument of an application. -/
@[induction_eliminator]
theorem ind {motive : Ty → Prop}
    (con : ∀ n, motive (.con n))
    (app : ∀ n args, (∀ a ∈ args, motive a) → motive (.app n args))
    (param : ∀ id cs, motive (.param id cs))
    (host : ∀ n, motive (.host n)) (t : Ty) : motive t := by
  refine @Ty.rec motive (fun ts => ∀ a ∈ ts, motive a)
    con app (fun id cs _ => param id cs) host ?_ ?_ t
  · intro a h
    cases h
  · intro t ts ht hts a h
    cases h with
    | head => exact ht
    | tail _ h => exact hts a h

@[simp] theorem displayAll_eq_map (ts : List Ty) : displayAll ts = ts.map display := by
  induction ts with
  | nil => rfl
  | cons t ts ih => simp [displayAll, ih]

@[simp] theorem anyHasPlaceholder_eq_any (ts : List Ty) :
    anyHasPlaceholder ts = ts.any hasPlaceholder := by
  induction ts with
  | nil => rfl
  | cons t ts ih => simp [anyHasPlaceholder, ih]

@[simp] theorem anyMentions_eq_any (p : Placeholder) (ts : List Ty) :
    anyMentions p ts = ts.any (mentions p) := by
  induction ts with
  | nil => rfl
  | cons t ts ih => simp [anyMentions, ih]

@[simp] theorem substAll_eq_map (args ts : List Ty) : substAll args ts = ts.map (subst args) := by
  induction ts with
  | nil => rfl
  | cons t ts ih => simp [substAll, ih]

@[simp] theorem sameAll_eq_beq (as bs : List Ty) : sameAll as bs = (as == bs) := by
  induction as generalizing bs with
  | nil => cases bs <;> rfl
  | cons a as ih =>
    cases bs with
    | nil => rfl
    | cons b bs => simp only [sameAll, ih]; rfl

/-! ## Equality is an equivalence -/

theorem same_refl (t : Ty) : same t t = true := by
  induction t with
  | con n => simp [same]
  | host n => simp [same]
  | param id cs => simp [same]
  | app n args ih =>
    have : sameAll args args = true := by
      induction args with
      | nil => rfl
      | cons a as ih' =>
        simp only [sameAll, Bool.and_eq_true]
        exact ⟨ih a (by simp), ih' fun b hb => ih b (by simp [hb])⟩
    simp only [same, decide_true, Bool.true_and, this]

theorem same_symm {t u : Ty} (h : same t u = true) : same u t = true := by
  induction t generalizing u with
  | con n => cases u <;> simp_all [same]
  | host n => cases u <;> simp_all [same]
  | param id cs => cases u <;> simp_all [same]
  | app n args ih =>
    cases u with
    | app m bs =>
      simp only [same, Bool.and_eq_true, decide_eq_true_eq] at h ⊢
      refine ⟨h.1.symm, ?_⟩
      have hab := h.2
      clear h
      induction args generalizing bs with
      | nil => cases bs <;> simp_all [sameAll]
      | cons a as ih' =>
        cases bs with
        | nil => simp [sameAll] at hab
        | cons b bs =>
          simp only [sameAll, Bool.and_eq_true] at hab ⊢
          exact ⟨ih a (by simp) hab.1, ih' (fun c hc => ih c (by simp [hc])) bs hab.2⟩
    | _ => simp [same] at h

theorem same_trans {t u v : Ty} (htu : same t u = true) (huv : same u v = true) :
    same t v = true := by
  induction t generalizing u v with
  | con n => cases u <;> cases v <;> simp_all [same]
  | host n => cases u <;> cases v <;> simp_all [same]
  | param id cs => cases u <;> cases v <;> simp_all [same]
  | app n args ih =>
    cases u with
    | app m bs =>
      cases v with
      | app l cs =>
        simp only [same, Bool.and_eq_true, decide_eq_true_eq] at htu huv ⊢
        refine ⟨htu.1.trans huv.1, ?_⟩
        have hab := htu.2
        have hbc := huv.2
        clear htu huv
        induction args generalizing bs cs with
        | nil => cases bs <;> cases cs <;> simp_all [sameAll]
        | cons a as ih' =>
          cases bs with
          | nil => simp [sameAll] at hab
          | cons b bs =>
            cases cs with
            | nil => simp [sameAll] at hbc
            | cons c cs =>
              simp only [sameAll, Bool.and_eq_true] at hab hbc ⊢
              exact ⟨ih a (by simp) hab.1 hbc.1,
                ih' (fun d hd => ih d (by simp [hd])) bs cs hab.2 hbc.2⟩
      | _ => simp [same] at huv
    | _ => simp [same] at htu

instance : EquivBEq Ty where
  rfl := same_refl _
  symm := same_symm
  trans := same_trans

end Ty

end LateBinding
