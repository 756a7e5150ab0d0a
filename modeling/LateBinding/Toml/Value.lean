/-!
# Values and tables of TOML

A table keeps with its entries how it came about, its `Origin`, because that decides what may be
added to it later.  Entries are added under a path of keys: `putDotted` adds a key with its value,
`putTable` a table with a header, `putRow` a table of an array of tables.  All three fail when the
path meets something that may not be extended.
-/

namespace LateBinding.Toml

/-- How a table came about: by a header of its own, implied by the header of a table inside it, by
a dotted key, or between braces. -/
inductive Origin where
  | header
  | implied
  | dotted
  | braces
deriving DecidableEq, Repr, Inhabited

/-- Values.  Of floats and moments only their being there is kept; `rows` is an array of tables
that was written with headers. -/
inductive Value where
  | text (s : String)
  | boolean (b : Bool)
  | integer (n : Int)
  | float
  | moment
  | array (items : List Value)
  | table (origin : Origin) (entries : List (String × Value))
  | rows (tables : List (List (String × Value)))
deriving Inhabited

/-- Keys with their values. -/
abbrev Entries := List (String × Value)

namespace Entries

/-- Puts `f` of the value of `key`, if it has one, in its place. -/
def alter (key : String) (f : Option Value → Option Value) : Entries → Option Entries
  | [] => (f none).map fun v => [(key, v)]
  | (k, v) :: rest =>
    if k = key then (f (some v)).map fun v => (k, v) :: rest
    else (alter key f rest).map ((k, v) :: ·)

/-- Adds a key that is not there yet. -/
def put (key : String) (value : Value) : Entries → Option Entries :=
  alter key fun
    | none => some value
    | some _ => none

/-- Applies `f` to the last of several tables. -/
def alterLast (f : Entries → Option Entries) (tables : List Entries) : Option (List Entries) :=
  match tables.getLast? with
  | none => none
  | some last => (f last).map fun last => tables.dropLast ++ [last]

/-- Adds `key` with its value to the table that `path` leads to.  Missing tables on the way are made
by the dotted key; tables with a header or between braces are closed to it, and the last table of a
path has to come from a dotted key too. -/
def putDotted (path : List String) (key : String) (value : Value) (entries : Entries) :
    Option Entries :=
  match path with
  | [] => entries.put key value
  | k :: rest =>
    entries.alter k fun
      | none => (putDotted rest key value []).map (.table .dotted)
      | some (.table .dotted inner) => (putDotted rest key value inner).map (.table .dotted)
      | some (.table .implied inner) =>
        if rest.isEmpty then none else (putDotted rest key value inner).map (.table .implied)
      | some (.rows tables) =>
        if rest.isEmpty then none else (alterLast (putDotted rest key value) tables).map .rows
      | some _ => none

/-- Changes the value of `key` in the table that the header path `path` leads to.  Missing tables on
the way are implied; of an array of tables the last one is meant. -/
def alterUnder (path : List String) (key : String) (f : Option Value → Option Value)
    (entries : Entries) : Option Entries :=
  match path with
  | [] => entries.alter key f
  | k :: rest =>
    entries.alter k fun
      | none => (alterUnder rest key f []).map (.table .implied)
      | some (.table .braces _) => none
      | some (.table origin inner) => (alterUnder rest key f inner).map (.table origin)
      | some (.rows tables) => (alterLast (alterUnder rest key f) tables).map .rows
      | some _ => none

/-- Adds a table with a header, whose entries `fill` adds to those it has.  Only an implied table may
be there already. -/
def putTable (path : List String) (key : String) (fill : Entries → Option Entries) :
    Entries → Option Entries :=
  alterUnder path key fun
    | none => (fill []).map (.table .header)
    | some (.table .implied inner) => (fill inner).map (.table .header)
    | some _ => none

/-- Adds a table, with entries from `fill`, to the end of an array of tables. -/
def putRow (path : List String) (key : String) (fill : Entries → Option Entries) :
    Entries → Option Entries :=
  alterUnder path key fun
    | none => (fill []).map fun t => .rows [t]
    | some (.rows tables) => (fill []).map fun t => .rows (tables ++ [t])
    | some _ => none

end Entries

end LateBinding.Toml
