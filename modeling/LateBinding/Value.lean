import LateBinding.Method

/-!
# Caller values

A `Value` is what the caller passes as an argument.  Only its category matters here, and for
containers the categories of what they hold.  Floats are carried as their bits.
-/

namespace LateBinding

/-- Values of the caller's side.  `mapping` keeps its entries in order, repeated keys included, and
`host` stands for any other object by the name of its type. -/
inductive Value where
  | integer (n : Int64)
  | float (bits : UInt64)
  | text (s : String)
  | sequence (items : List Value)
  | mapping (entries : List (Value × Value))
  | foreign (object : ForeignObject)
  | boolean (b : Bool)
  | null
  | host (typeName : String)
deriving Inhabited

/-- The name of a value's category. -/
def Value.category : Value → String
  | integer _ => "integer"
  | float _ => "float"
  | text _ => "text"
  | sequence _ => "sequence"
  | mapping _ => "mapping"
  | foreign _ => "foreign"
  | boolean _ => "bool"
  | null => "null"
  | host _ => "host"

end LateBinding
