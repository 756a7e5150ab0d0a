import LateBinding.Toml.Scalar
import LateBinding.Toml.Value

/-!
# Documents of TOML

`value` reads a value with the values inside it; its argument says how deep containers may still be
nested.  A document is a list of `Statement`s, one a line, and `Entries.ofStatements` puts them
together: entries before the first header belong to the root, all others to the header before them.
`read` does both.
-/

namespace LateBinding.Toml

open Reader

/-! ## Values -/

/-- A path of keys before its last one, and the last one. -/
def splitPath : List String → Option (List String × String)
  | [] => none
  | parts => (parts.getLast?).map fun last => (parts.dropLast, last)

/-- A key with a value, given a reader of values. -/
def assignment (item : Reader Value) : Reader (List String × Value) := do
  let path ← key
  let _ ← char '='
  blanks
  return (path, ← item)

/-- Adds what an assignment says to a table. -/
def Entries.assign (entries : Entries) (assigned : List String × Value) : Option Entries := do
  let (path, last) ← splitPath assigned.1
  entries.putDotted path last assigned.2

/-- An array, given a reader of values.  Elements may stand on lines of their own, with comments, and
a comma may follow the last. -/
def array (item : Reader Value) : Reader Value := do
  let _ ← char '['
  let items ← optionally do
    let items ← sepBy1 (filler *> item <* filler) (char ',')
    let _ ← optionally (char ',')
    return items
  filler
  let _ ← char ']'
  return .array (items.getD [])

/-- A table between braces, given a reader of values.  It stands on one line. -/
def braces (item : Reader Value) : Reader Value := do
  let _ ← char '{'
  let assigned ← optionally (sepBy1 (assignment item <* blanks) (char ','))
  blanks
  let _ ← char '}'
  match (assigned.getD []).foldlM Entries.assign [] with
  | some entries => return .table .braces entries
  | none => failure

/-- A value that holds no other values. -/
def scalar : Reader Value :=
  .text <$> string
    <|> (do literal "true"; return .boolean true)
    <|> (do literal "false"; return .boolean false)
    <|> (do moment; return .moment)
    <|> (do float; return .float)
    <|> .integer <$> integer

/-- A value whose containers are nested at most `depth` deep. -/
def value : Nat → Reader Value
  | 0 => scalar
  | depth + 1 => scalar <|> array (value depth) <|> braces (value depth)

/-! ## Lines -/

/-- What one line says. -/
inductive Statement where
  | blank
  | assign (path : List String) (value : Value)
  | table (path : List String)
  | row (path : List String)
deriving Inhabited

/-- One line with its end. -/
def statement : Reader Statement :=
  (do comment; lineEnd; return .blank)
    <|> (do let _ ← newline; return .blank)
    <|> (do
      literal "[["
      let path ← key
      literal "]]"
      lineRest
      return .row path)
    <|> (do
      let _ ← char '['
      let path ← key
      let _ ← char ']'
      lineRest
      return .table path)
    <|> (do
      let (path, v) ← assignment (value (nestingLimit - 1))
      lineRest
      return .assign path v)

/-- All lines of a text, after a byte order mark if there is one. -/
def statements : Reader (List Statement) := do
  let _ ← optionally (char '\uFEFF')
  blanks
  let lines ← many (statement <* blanks)
  eof
  return lines

/-! ## Tables -/

/-- The lines under one header: the path of the table, whether it is a row of an array of tables, and
the assignments in order. -/
structure Section where
  path : List String
  isRow : Bool
  assigned : List (List String × Value)

/-- Adds the entries of a section to those of its table. -/
def Section.fill (s : Section) (entries : Entries) : Option Entries :=
  s.assigned.foldlM Entries.assign entries

/-- Adds the table of a section to the root; a section without a path is the root itself. -/
def Section.close (s : Section) (root : Entries) : Option Entries :=
  match splitPath s.path with
  | none => s.fill root
  | some (path, key) =>
    if s.isRow then root.putRow path key s.fill else root.putTable path key s.fill

/-- Divides the lines into sections, given the section they begin in. -/
def sections (current : Section) : List Statement → List Section
  | [] => [current]
  | .blank :: rest => sections current rest
  | .assign path v :: rest =>
    sections { current with assigned := current.assigned ++ [(path, v)] } rest
  | .table path :: rest => current :: sections ⟨path, false, []⟩ rest
  | .row path :: rest => current :: sections ⟨path, true, []⟩ rest

/-- The entries of the root table that lines describe. -/
def Entries.ofStatements (lines : List Statement) : Option Entries :=
  (sections ⟨[], false, []⟩ lines).foldlM (fun root s => s.close root) []

/-- The root table of a document; nothing for a text that is not TOML. -/
def read (text : String) : Option Entries := do
  let (lines, _) ← statements text.toList
  Entries.ofStatements lines

end LateBinding.Toml
