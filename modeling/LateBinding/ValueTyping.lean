import LateBinding.Value

/-!
# Foreign types of caller values

A `ValueTyping` fixes which foreign types stand for the caller's categories of values; it is read
from dotted names, `ValueTypeNames`.  `ValueTyping.typeOf` types a value: integers by their width,
containers by the type their elements share (`ValueTyping.shared`), foreign objects by their own
type.  Other values keep a host type, which no foreign method accepts as a type argument.
-/

namespace LateBinding

/-- The dotted names of the foreign types that stand for categories of values. -/
structure ValueTypeNames where
  integer : String := "System.Int32"
  wideInteger : String := "System.Int64"
  float : String := "System.Double"
  text : String := "System.String"
  sequence : String := "System.Collections.Generic.IList"
  mapping : String := "System.Collections.Generic.IDictionary"
  object : String := "System.Object"
deriving Repr, Inhabited

/-- The foreign types that stand for categories of values.  Sequences and mappings are generic
definitions; `object` is the universal object type. -/
structure ValueTyping where
  integer : Ty
  wideInteger : Ty
  float : Ty
  text : Ty
  sequence : TypeName
  mapping : TypeName
  object : Ty
deriving Repr, Inhabited

namespace ValueTyping

/-- The typing with the given names. -/
def ofNames (names : ValueTypeNames) : ValueTyping where
  integer := .named names.integer
  wideInteger := .named names.wideInteger
  float := .named names.float
  text := .named names.text
  sequence := .parse names.sequence
  mapping := .parse names.mapping
  object := .named names.object

/-- Whether an integer fits in 32 bits. -/
def fits32 (n : Int64) : Bool := -2147483648 ≤ n.toInt && n.toInt ≤ 2147483647

/-- Whether `ty` stands for integers of some width. -/
def isInteger (τ : ValueTyping) (ty : Ty) : Bool := ty == τ.integer || ty == τ.wideInteger

/-- The type shared by elements of type `found` and one of type `ty`, if they share one. -/
def join? (τ : ValueTyping) (found ty : Ty) : Option Ty :=
  if found == ty then some found
  else if τ.isInteger found && τ.isInteger ty then some τ.wideInteger
  else none

/-- The type shared by elements of type `found` and of the given types.  Host types, and types
without a shared one, make it the object type. -/
def sharedFrom (τ : ValueTyping) (found : Ty) : List Ty → Ty
  | [] => found
  | ty :: tys =>
    if ty.isHost then τ.object
    else match τ.join? found ty with
      | some next => τ.sharedFrom next tys
      | none => τ.object

/-- The type shared by elements of the given types; without elements the object type. -/
def shared (τ : ValueTyping) : List Ty → Ty
  | [] => τ.object
  | ty :: tys => if ty.isHost then τ.object else τ.sharedFrom ty tys

mutual

/-- The foreign type of a value. -/
def typeOf (τ : ValueTyping) : Value → Ty
  | .integer n => if fits32 n then τ.integer else τ.wideInteger
  | .float _ => τ.float
  | .text _ => τ.text
  | .sequence items => .app τ.sequence [τ.shared (τ.typesOf items)]
  | .mapping entries =>
    let types := τ.entryTypesOf entries
    .app τ.mapping [τ.shared (types.map (·.1)), τ.shared (types.map (·.2))]
  | .foreign object => object.ty
  | .boolean _ => .host "bool"
  | .null => .host "null"
  | .host n => .host n

/-- The foreign types of several values. -/
def typesOf (τ : ValueTyping) : List Value → List Ty
  | [] => []
  | v :: vs => τ.typeOf v :: τ.typesOf vs

/-- The foreign types of the key and the value of an entry. -/
def entryType (τ : ValueTyping) : Value × Value → Ty × Ty
  | (k, v) => (τ.typeOf k, τ.typeOf v)

/-- The foreign types of the keys and values of several entries. -/
def entryTypesOf (τ : ValueTyping) : List (Value × Value) → List (Ty × Ty)
  | [] => []
  | e :: es => τ.entryType e :: τ.entryTypesOf es

end

@[simp] theorem typesOf_eq_map (τ : ValueTyping) (vs : List Value) :
    τ.typesOf vs = vs.map τ.typeOf := by
  induction vs with
  | nil => rfl
  | cons v vs ih => simp [typesOf, ih]

@[simp] theorem entryTypesOf_eq_map (τ : ValueTyping) (es : List (Value × Value)) :
    τ.entryTypesOf es = es.map fun e => (τ.typeOf e.1, τ.typeOf e.2) := by
  induction es with
  | nil => rfl
  | cons e es ih =>
    obtain ⟨k, v⟩ := e
    simp [entryTypesOf, entryType, ih]

end ValueTyping

end LateBinding
