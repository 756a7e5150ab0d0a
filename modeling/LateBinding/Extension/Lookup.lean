import LateBinding.Extension.Index
import LateBinding.OnceMap.Basic
import LateBinding.ResolutionError
import LateBinding.TypeSystem.Hierarchy

/-!
# Lookup of extension members

The extension methods a type answers to are those of the first definition of its lineage that has
candidates for the member: the type itself, its interfaces with theirs, then its base type.
Candidates for the universal object type come last (`ExtensionIndex.find?`).  Successful lookups are
remembered by definition and member in an `ExtensionMemo`; failures are not, so that a namespace
scanned later can still provide the member.
-/

namespace LateBinding

/-- Lookups that succeeded, by definition and member. -/
abbrev ExtensionMemo := OnceMap (TypeName × String) (List Method)

namespace ExtensionIndex

/-- The extension methods called `member` for types made from the definition `n`. -/
def find? (ix : ExtensionIndex) (ts : TypeSystem) (n : TypeName) (member : String) :
    Option (List Method) :=
  ((ts.lineage n).findSome? (ix.lookup? · member)).or
    (ix.object.name?.bind (ix.lookup? · member))

/-- The extension methods called `member` for the type `ty`. -/
def resolve (ix : ExtensionIndex) (ts : TypeSystem) (ty : Ty) (member : String) :
    Except ResolutionError (List Method) :=
  match ty.name?.bind (ix.find? ts · member) with
  | some methods => .ok methods
  | none => .error (.noExtension ty member)

/-- `resolve` with memory of earlier successes. -/
def resolveOnce (ix : ExtensionIndex) (ts : TypeSystem) (ty : Ty) (member : String) :
    EStateM ResolutionError ExtensionMemo (List Method) :=
  match ty.name? with
  | none => throw (.noExtension ty member)
  | some n => Part.alone.run (OnceMap.demandApart (n, member) (liftExcept (ix.resolve ts ty member)))

end ExtensionIndex

end LateBinding
