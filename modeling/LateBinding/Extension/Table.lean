import LateBinding.TypeSystem.Basic

/-!
# Tables of extension methods

An extension method extends the type of its receiver formal, and a placeholder there extends the
universal object type (`Method.extendedType?`).  An `ExtensionTable` files extension methods under
the definition they extend and a member name, so that arguments of the extended type do not matter.
A table grows by appending to its lists of candidates (`append`, `merge`);
`insert` gives a member the list that a caller chose.
-/

namespace LateBinding

/-- The type that an extension method extends, given the universal object type. -/
def Method.extendedType? (m : Method) (object : Ty) : Option Ty :=
  m.receiverFormal?.map fun f => if f.ty.isPlaceholder then object else f.ty

/-- The definition that an extension method extends. -/
def Method.extendedName? (m : Method) (object : Ty) : Option TypeName :=
  (m.extendedType? object).bind Ty.name?

/-- The extension methods declared on `types`, each with the definition it extends, in order. -/
def TypeSystem.extensionsOf (ts : TypeSystem) (types : List Ty) (object : Ty) :
    List (TypeName × Method) :=
  (types.flatMap ts.methods).filterMap fun m => (m.extendedName? object).map (·, m)

/-- Candidates by extended definition and member name, in order of registration. -/
structure ExtensionTable where
  extended : OrderedMap TypeName (OrderedMap String (List Method)) := .empty
deriving Repr, Inhabited

/-- The candidates that a table lists for one definition and one member. -/
structure ExtensionRow where
  extended : TypeName
  member : String
  methods : List Method
deriving Repr, Inhabited

namespace ExtensionTable

/-- Gives a definition a place in the table. -/
def mention (t : ExtensionTable) (n : TypeName) : ExtensionTable :=
  ⟨t.extended.alter n fun old => old.getD .empty⟩

/-- Appends candidates for a member of a definition. -/
def append (t : ExtensionTable) (n : TypeName) (member : String) (methods : List Method) :
    ExtensionTable :=
  ⟨t.extended.alter n fun old =>
    (old.getD .empty).alter member fun old => old.getD [] ++ methods⟩

/-- Makes the candidates for a member of a definition exactly `methods`. -/
def insert (t : ExtensionTable) (n : TypeName) (member : String) (methods : List Method) :
    ExtensionTable :=
  ⟨t.extended.alter n fun old => (old.getD .empty).insert member methods⟩

/-- The table of methods with the definitions they extend, each filed under its own name. -/
def ofFound (found : List (TypeName × Method)) : ExtensionTable :=
  found.foldl (fun t (n, m) => t.append n m.name [m]) {}

/-- Appends everything in `u` to `t`. -/
def merge (t u : ExtensionTable) : ExtensionTable :=
  u.extended.entries.foldl (fun t (n, members) =>
    members.entries.foldl (fun t (member, methods) => t.append n member methods) (t.mention n)) t

/-- All candidates for a member of a definition. -/
def candidates (t : ExtensionTable) (n : TypeName) (member : String) : List Method :=
  (((t.extended.find? n).bind (·.find? member))).getD []

/-- The candidates for a member of a definition, if there are any. -/
def lookup? (t : ExtensionTable) (n : TypeName) (member : String) : Option (List Method) :=
  match t.candidates n member with
  | [] => none
  | methods => some methods

/-- Whether no definition has a place in the table. -/
def isEmpty (t : ExtensionTable) : Bool := t.extended.isEmpty

/-- The rows of a table as they are filed. -/
def filed (t : ExtensionTable) : List ExtensionRow :=
  t.extended.entries.flatMap fun (n, members) =>
    members.entries.map fun (member, methods) => ⟨n, member, methods⟩

/-- Rows are ordered by extended definition, then by member name. -/
def rowLe (a b : ExtensionRow) : Bool :=
  ((compare a.extended b.extended).then (compare a.member b.member)).isLE

/-- The rows of a table in order, rows without candidates included. -/
def rows (t : ExtensionTable) : List ExtensionRow := t.filed.mergeSort rowLe

end ExtensionTable

end LateBinding
