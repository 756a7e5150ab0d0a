import LateBinding.Preorder
import LateBinding.TypeSystem.Basic

/-!
# The hierarchy of definitions

Definitions form a graph: the parents of a definition are its interfaces and its base type, taken
by name, and cycles and parents without a definition are allowed.  `TypeSystem.lineage` lists what
can be reached from a definition, interfaces before the base type; `TypeSystem.baseChain` follows
base types alone.  `TypeSystem.implements` asks for membership in the lineage.
-/

namespace LateBinding

namespace TypeSystem

/-- The names of a definition's parents: interfaces in order, then the base type. -/
def parentNames (ts : TypeSystem) (n : TypeName) : List TypeName :=
  ((ts.types.find? n).map fun e => e.definition.parents.filterMap Ty.name?).getD []

/-- The name of a definition's base type, as a list of at most one. -/
def baseName (ts : TypeSystem) (n : TypeName) : List TypeName :=
  (((ts.types.find? n).bind (·.definition.base)).bind Ty.name?).toList

/-- Every name that is defined or listed as a parent, each once, with `n` in front. -/
def namesFrom (ts : TypeSystem) (n : TypeName) : List TypeName :=
  (n :: ts.types.entries.flatMap fun (k, e) =>
    k :: e.definition.parents.filterMap Ty.name?).eraseDups

/-- The definitions reached from `n` through interfaces and base types, depth first. -/
def lineage (ts : TypeSystem) (n : TypeName) : List TypeName :=
  preorder ts.parentNames (ts.namesFrom n) [n]

/-- The definitions reached from `n` through base types, nearest first. -/
def baseChain (ts : TypeSystem) (n : TypeName) : List TypeName :=
  preorder ts.baseName (ts.namesFrom n) [n]

/-- Whether `ty` is, inherits from or implements the definition `target`. -/
def implements (ts : TypeSystem) (ty : Ty) (target : TypeName) : Bool :=
  ty.name?.any fun n => (ts.lineage n).contains target

end TypeSystem

end LateBinding
