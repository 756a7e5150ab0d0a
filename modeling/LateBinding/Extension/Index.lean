import LateBinding.Extension.Table

/-!
# The extension index

An `ExtensionIndex` is a table of extension methods that is filled by scanning namespaces of a type
system, each at most once (`ExtensionIndex.scan`), and by direct registration.
-/

namespace LateBinding

/-- Known extension methods, with the universal object type and the namespaces scanned so far. -/
structure ExtensionIndex where
  object : Ty
  table : ExtensionTable := {}
  scanned : List String := []
deriving Repr, Inhabited

namespace ExtensionIndex

/-- Appends every extension method of a namespace and returns their number; nothing is done for a
namespace that was scanned before. -/
def scan (ix : ExtensionIndex) (ts : TypeSystem) (ns : String) : Nat × ExtensionIndex :=
  if ns ∈ ix.scanned then
    (0, ix)
  else
    let found := ts.extensionsOf (ts.inNamespace ns) ix.object
    (found.length,
      { ix with table := ix.table.merge (.ofFound found), scanned := ix.scanned ++ [ns] })

/-- Appends one candidate for a member of a definition. -/
def register (ix : ExtensionIndex) (n : TypeName) (member : String) (m : Method) :
    ExtensionIndex :=
  { ix with table := ix.table.append n member [m] }

/-- Appends everything in a table. -/
def merge (ix : ExtensionIndex) (t : ExtensionTable) : ExtensionIndex :=
  { ix with table := ix.table.merge t }

/-- The candidates registered for a member of a definition itself, if there are any. -/
def lookup? (ix : ExtensionIndex) (n : TypeName) (member : String) : Option (List Method) :=
  ix.table.lookup? n member

/-- The scanned namespaces in order. -/
def namespaces (ix : ExtensionIndex) : List String :=
  ix.scanned.mergeSort fun a b => (compare a b).isLE

end ExtensionIndex

end LateBinding
