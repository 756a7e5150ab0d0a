import LateBinding.FileTree
import LateBinding.Settings.Decode
import LateBinding.Toml.Document

/-!
# Sources of settings

Settings are read from the text of a document (`Settings.ofText`) or from a file that holds one
(`Settings.ofFile`).  A `SettingsError` says whether the file or the document was at fault.
-/

namespace LateBinding

/-- Why settings could not be read. -/
inductive SettingsError where
  | unreadable (path : String) (fault : ReadFault)
  | malformed
deriving Repr, Inhabited

/-- The text of a failure to read settings. -/
def SettingsError.message : SettingsError → String
  | unreadable path fault => "failed to read " ++ path ++ ": " ++ fault.message
  | malformed => "failed to parse session config: "

namespace Settings

/-- The settings in the text of a document. -/
def ofText (text : String) : Except SettingsError Settings :=
  match (Toml.read text).bind ofEntries with
  | some settings => .ok settings
  | none => .error .malformed

/-- The settings in the file that a path names. -/
def ofFile (root : FileTree) (cwd : List String) (path : String) : Except SettingsError Settings :=
  match root.read cwd path with
  | .ok text => ofText text
  | .error fault => .error (.unreadable path fault)

end Settings

end LateBinding
