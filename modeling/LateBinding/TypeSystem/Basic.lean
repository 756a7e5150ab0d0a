import LateBinding.OrderedMap
import LateBinding.TypeSystem.Definition

/-!
# Type systems

A `TypeSystem` holds type definitions with the methods declared on each, and beside them, for every
namespace, the names that were defined in it, oldest first.  It counts the handles it has issued and
the generic methods it has closed.  It grows by `TypeSystem.define` and `TypeSystem.declare`;
everything it answers about a type depends on the name of the type's definition only.
-/

namespace LateBinding

/-- A definition together with the methods declared on it, oldest first. -/
structure TypeEntry where
  definition : Definition
  methods : List Method := []
deriving Repr, Inhabited

/-- Type and method tables of the foreign side, and the names defined in each namespace.  Closing a
method counts `substitutions` up and no operation reads it, so a counter of fixed width would show
this number modulo its range, and all else would be the same. -/
structure TypeSystem where
  types : OrderedMap TypeName TypeEntry := .empty
  namespaces : OrderedMap String (List TypeName) := .empty
  issued : UInt64 := 0
  substitutions : Nat := 0
deriving Repr, Inhabited

namespace TypeSystem

/-! ## Growth -/

/-- Adds a definition, or replaces the one of that name; declared methods stay.  Only a new name
goes to the end of its namespace. -/
def define (ts : TypeSystem) (d : Definition) : TypeSystem :=
  { ts with
    types := ts.types.alter d.name fun old =>
      { definition := d, methods := (old.map (·.methods)).getD [] }
    namespaces :=
      if ts.types.contains d.name then ts.namespaces
      else ts.namespaces.alter d.name.ns fun names => names.getD [] ++ [d.name] }

/-- The name under which methods of `owner` are kept. -/
def ownerName (owner : Ty) : TypeName := owner.name?.getD ⟨"", owner.display⟩

/-- The type system in which a class exists for `owner`.  A missing one is defined under the dotted
spelling of its name. -/
def ensure (ts : TypeSystem) (owner : TypeName) : TypeSystem :=
  if ts.types.contains owner then ts else ts.define (.plain owner.display)

/-- The method that `s` describes, on `owner` and with the next handle. -/
def newMethod (ts : TypeSystem) (owner : Ty) (s : Signature) : Method where
  handle := ts.issued + 1
  name := s.name
  declaring := owner
  formals := s.formals
  generics := s.generics
  returns := s.returns
  isStatic := s.isStatic
  isExtension := s.isExtension

/-- Declares a method on `owner` and returns it.  The method joins the entry of the owner's name,
if there is one once the owner has been provided for. -/
def declare (ts : TypeSystem) (owner : Ty) (s : Signature) : Method × TypeSystem :=
  let m := ts.newMethod owner s
  let name := ownerName owner
  let types := (ts.ensure name).types.modify name fun e => { e with methods := e.methods ++ [m] }
  (m, { ts.ensure name with types, issued := ts.issued + 1 })

/-! ## Questions -/

/-- The entry of a type's definition. -/
def entry? (ts : TypeSystem) (ty : Ty) : Option TypeEntry := ty.name?.bind ts.types.find?

/-- The interfaces a type lists itself, in order. -/
def interfaces (ts : TypeSystem) (ty : Ty) : List Ty :=
  ((ts.entry? ty).map (·.definition.interfaces)).getD []

/-- The base type of a type. -/
def base? (ts : TypeSystem) (ty : Ty) : Option Ty := (ts.entry? ty).bind (·.definition.base)

/-- The methods declared on a type itself, in order. -/
def methods (ts : TypeSystem) (ty : Ty) : List Method :=
  ((ts.entry? ty).map (·.methods)).getD []

/-- The names listed in a namespace. -/
def listed (ts : TypeSystem) (ns : String) : List TypeName := (ts.namespaces.find? ns).getD []

/-- The types behind the names listed in a namespace, as far as they have an entry. -/
def inNamespace (ts : TypeSystem) (ns : String) : List Ty :=
  (ts.listed ns).filterMap fun n => (ts.types.find? n).map (·.definition.self)

end TypeSystem

end LateBinding
