import LateBinding.Method

/-!
# Definitions and signatures

A `Definition` is one type of a type system: its parameters, direct interfaces and base type.  A
`Signature` is a method before it is declared on a type.  Both are written as a list of clauses,
read from left to right by `Definition.ofClauses` and `Signature.ofClauses`.
-/

namespace LateBinding

/-! ## Type definitions -/

/-- A type definition.  `parameters` is `none` for a plain type; a generic type may have an empty
parameter list. -/
structure Definition where
  name : TypeName
  parameters : Option (List String) := none
  interfaces : List Ty := []
  base : Option Ty := none
deriving Repr, Inhabited

namespace Definition

/-- The plain class with a dotted name. -/
def plain (qualified : String) : Definition := { name := .parse qualified }

/-- The type that the definition introduces, applied to its own parameters if it is generic. -/
def self (d : Definition) : Ty :=
  match d.parameters with
  | none => .con d.name
  | some ps => .app d.name (ps.zipIdx.map fun (p, i) => .param ⟨p, i, .type⟩ [])

/-- The direct parents in order: the interfaces, then the base type. -/
def parents (d : Definition) : List Ty := d.interfaces ++ d.base.toList

/-- One clause of a definition. -/
inductive Clause where
  | generic (parameters : List String)
  | base (ty : Ty)
  | interface (ty : Ty)
deriving Repr, Inhabited

/-- A definition with one more clause.  A later parameter list or base type replaces an earlier
one, interfaces accumulate. -/
def extend (d : Definition) : Clause → Definition
  | .generic ps => { d with parameters := some ps }
  | .base ty => { d with base := some ty }
  | .interface ty => { d with interfaces := d.interfaces ++ [ty] }

/-- The definition with a dotted name and the given clauses. -/
def ofClauses (qualified : String) (clauses : List Clause) : Definition :=
  clauses.foldl extend (plain qualified)

theorem name_ofClauses (qualified : String) (clauses : List Clause) :
    (ofClauses qualified clauses).name = .parse qualified := by
  suffices ∀ d : Definition, (clauses.foldl extend d).name = d.name from this _
  induction clauses with
  | nil => intro d; rfl
  | cons c cs ih => intro d; rw [List.foldl_cons, ih]; cases c <;> rfl

theorem name?_self (d : Definition) : d.self.name? = some d.name := by
  cases h : d.parameters <;> simp [self, h, Ty.name?]

end Definition

/-! ## Signatures -/

/-- A method that is not declared yet. -/
structure Signature where
  name : String
  generics : List GenericParam := []
  formals : List Formal := []
  returns : Ty := .named "System.Void"
  isStatic : Bool := false
  isExtension : Bool := false
deriving Repr, Inhabited

namespace Signature

/-- One clause of a signature. -/
inductive Clause where
  | generic (names : List String)
  | constrain (parameter : String) (constraint : Ty)
  | formal (name : String) (ty : Ty)
  | returns (ty : Ty)
  | static
  | extension
deriving Repr, Inhabited

/-- Adds a constraint to the first generic parameter called `name`, if there is one. -/
def constrain (name : String) (constraint : Ty) : List GenericParam → List GenericParam
  | [] => []
  | p :: ps =>
    if p.id.name = name then
      { p with constraints := p.constraints ++ [constraint] } :: ps
    else
      p :: constrain name constraint ps

/-- A signature with one more clause.  Generic parameters are numbered on from those before, and an
extension is static too. -/
def extend (s : Signature) : Clause → Signature
  | .generic names =>
    { s with generics := s.generics ++
        (names.zipIdx s.generics.length).map fun (n, i) => ⟨⟨n, i, .method⟩, []⟩ }
  | .constrain p c => { s with generics := constrain p c s.generics }
  | .formal n ty => { s with formals := s.formals ++ [⟨n, ty⟩] }
  | .returns ty => { s with returns := ty }
  | .static => { s with isStatic := true }
  | .extension => { s with isStatic := true, isExtension := true }

/-- The signature with a name and the given clauses. -/
def ofClauses (name : String) (clauses : List Clause) : Signature :=
  clauses.foldl extend { name }

end Signature

end LateBinding
