import LateBinding.Selection
import LateBinding.ValueTyping

/-!
# Settings of a session

`Settings` say what happens when no overload fits, which foreign types stand for caller values, and
whether and where extension methods are looked for.
-/

namespace LateBinding

/-- What a session is built from.  `preload` lists the namespaces that are scanned for extension
methods from the start. -/
structure Settings where
  policy : MissPolicy := .fallback
  typeNames : ValueTypeNames := {}
  extensionsEnabled : Bool := true
  preload : List String := []
deriving Repr, Inhabited

end LateBinding
