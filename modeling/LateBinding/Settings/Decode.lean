import LateBinding.Settings.Basic
import LateBinding.Toml.Value

/-!
# Settings from TOML

`Settings.ofEntries` takes settings from the root table of a document: the sections `overloads`,
`type_map` and `extensions` with their fields.  What is missing has its default and what is unknown
is ignored.  A section is a table, or an array that gives its fields by position.
-/

namespace LateBinding

namespace Toml.Value

/-- The fields of a section by name; an array gives them by position.  A moment has no field that
could be known. -/
def fields? (names : List String) : Value → Option Entries
  | table _ entries => some entries
  | array items => some (names.zip items)
  | rows tables => some (names.zip (tables.map (table .header)))
  | moment => some []
  | _ => none

/-- The text of a string. -/
def text? : Value → Option String
  | text s => some s
  | _ => none

/-- The truth value of a boolean. -/
def boolean? : Value → Option Bool
  | boolean b => some b
  | _ => none

/-- The texts of an array of strings. -/
def texts? : Value → Option (List String)
  | array items => items.mapM text?
  | rows [] => some []
  | _ => none

/-- Whether a value is a container that holds nothing. -/
def isHollow : Value → Bool
  | array [] => true
  | table _ [] => true
  | rows [] => true
  | _ => false

/-- The name of a variant: a string, or the only key of a table whose value holds nothing. -/
def variant? : Value → Option String
  | text s => some s
  | table _ [(k, v)] => if v.isHollow then some k else none
  | _ => none

end Toml.Value

/-- The field `key`, read by `read?`, or its default. -/
def Toml.Entries.fieldD (entries : Toml.Entries) (key : String) (read? : Toml.Value → Option α)
    (default : α) : Option α :=
  match entries.lookup key with
  | some v => read? v
  | none => some default

/-- The policy that a variant names. -/
def MissPolicy.ofValue (v : Toml.Value) : Option MissPolicy :=
  match v.variant? with
  | some "fallback" => some .fallback
  | some "strict" => some .strict
  | _ => none

namespace Settings

/-- The section on overloads. -/
def policyOf (v : Toml.Value) : Option MissPolicy := do
  let fields ← v.fields? ["policy"]
  fields.fieldD "policy" MissPolicy.ofValue .fallback

/-- The section on type names. -/
def typeNamesOf (v : Toml.Value) : Option ValueTypeNames := do
  let fields ← v.fields?
    ["integer", "wide_integer", "float", "text", "sequence", "mapping", "object"]
  let default : ValueTypeNames := {}
  return {
    integer := ← fields.fieldD "integer" Toml.Value.text? default.integer
    wideInteger := ← fields.fieldD "wide_integer" Toml.Value.text? default.wideInteger
    float := ← fields.fieldD "float" Toml.Value.text? default.float
    text := ← fields.fieldD "text" Toml.Value.text? default.text
    sequence := ← fields.fieldD "sequence" Toml.Value.text? default.sequence
    mapping := ← fields.fieldD "mapping" Toml.Value.text? default.mapping
    object := ← fields.fieldD "object" Toml.Value.text? default.object }

/-- The section on extensions: whether they are enabled, and what to preload. -/
def extensionsOf (v : Toml.Value) : Option (Bool × List String) := do
  let fields ← v.fields? ["enabled", "preload"]
  return (← fields.fieldD "enabled" Toml.Value.boolean? true,
    ← fields.fieldD "preload" Toml.Value.texts? [])

/-- The settings in a root table. -/
def ofEntries (root : Toml.Entries) : Option Settings := do
  let (extensionsEnabled, preload) ← root.fieldD "extensions" extensionsOf (true, [])
  return {
    policy := ← root.fieldD "overloads" policyOf .fallback
    typeNames := ← root.fieldD "type_map" typeNamesOf {}
    extensionsEnabled
    preload }

end Settings

end LateBinding
