import LateBinding.Ty

/-!
# Methods and method groups

A `Method` is what the foreign side reports about one method: formals, generic parameters, return
type and flags.  A method closed over type arguments keeps the handle of its definition, so two
descriptions denote the same method when handle and type arguments agree (`Method.same`).  A
`MethodGroup` holds the overloads that share a name, bound or not to a `ForeignObject`.
-/

namespace LateBinding

/-- A formal parameter. -/
structure Formal where
  name : String
  ty : Ty
deriving Repr, Inhabited

/-- The description of one method.  `typeArgs` is empty until the method has been closed over type
arguments; the first formal of an extension method is its implicit receiver. -/
structure Method where
  handle : UInt64 := 0
  name : String
  declaring : Ty := .object
  formals : List Formal := []
  generics : List GenericParam := []
  typeArgs : List Ty := []
  returns : Ty := .named "System.Void"
  isStatic : Bool := false
  isExtension : Bool := false
deriving Repr, Inhabited

namespace Method

/-- Equality of methods: the same handle and the same type arguments. -/
def same (m n : Method) : Bool := m.handle == n.handle && m.typeArgs == n.typeArgs

instance : BEq Method := ⟨same⟩

/-- The number of formals, the receiver of an extension method included. -/
def arity (m : Method) : Nat := m.formals.length

/-- The number of generic parameters. -/
def typeArity (m : Method) : Nat := m.generics.length

/-- Whether generic parameters are still unbound. -/
def isGeneric (m : Method) : Bool := !m.generics.isEmpty && m.typeArgs.isEmpty

/-- The formal that stands for the implicit receiver of an extension method. -/
def receiverFormal? (m : Method) : Option Formal :=
  if m.isExtension then m.formals.head? else none

/-- What stands between the angle brackets of a signature: the type arguments, or else the names of
the generic parameters. -/
def typeList (m : Method) : List String :=
  if m.typeArgs.isEmpty then m.generics.map (·.id.name) else m.typeArgs.map Ty.display

/-- The text of a signature, such as Max<T>(T a, T b) -> T. -/
def signature (m : Method) : String :=
  let angle := if m.typeList.isEmpty then "" else "<" ++ ", ".intercalate m.typeList ++ ">"
  let formals := m.formals.map fun f => f.ty.display ++ " " ++ f.name
  m.name ++ angle ++ "(" ++ ", ".intercalate formals ++ ") -> " ++ m.returns.display

/-- The method closed over `args`, which replace its placeholders in formals and return type. -/
def close (m : Method) (args : List Ty) : Method :=
  { m with
    formals := m.formals.map fun f => { f with ty := f.ty.subst args }
    returns := m.returns.subst args
    typeArgs := args }

end Method

/-- An object of the foreign side: its type and a handle that the caller does not look into. -/
structure ForeignObject where
  ty : Ty
  handle : UInt64
deriving Repr, Inhabited

/-- The overloads that share one name, with the object they are bound to. -/
structure MethodGroup where
  name : String
  methods : List Method
  receiver : Option ForeignObject := none
deriving Repr, Inhabited

namespace MethodGroup

/-- The group of one method, under its own name. -/
def single (m : Method) : MethodGroup := { name := m.name, methods := [m] }

/-- The group bound to `receiver`. -/
def bind (g : MethodGroup) (receiver : ForeignObject) : MethodGroup :=
  { g with receiver := some receiver }

/-- The group without a receiver. -/
def unbind (g : MethodGroup) : MethodGroup := { g with receiver := none }

/-- The number of overloads. -/
def size (g : MethodGroup) : Nat := g.methods.length

/-- Whether the group has no overloads. -/
def isEmpty (g : MethodGroup) : Bool := g.methods.isEmpty

/-- Whether some overload has unbound generic parameters. -/
def containsGeneric (g : MethodGroup) : Bool := g.methods.any Method.isGeneric

end MethodGroup

end LateBinding
