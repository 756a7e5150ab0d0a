/-!
# File trees

A `FileTree` is a directory tree held as a value.  `FileTree.read` finds the file that a path names,
from the root or from a working directory, and takes its content as text; a `ReadFault` says in the
words of the operating system why there is none.
-/

namespace LateBinding

/-- A file or a directory. -/
inductive FileTree where
  | file (content : ByteArray)
  | directory (entries : List (String × FileTree))
deriving Inhabited

/-- Why a file could not be read as text. -/
inductive ReadFault where
  | notFound
  | notDirectory
  | isDirectory
  | nameTooLong
  | nulInName
  | notText
deriving DecidableEq, Repr, Inhabited

/-- The text of a fault. -/
def ReadFault.message : ReadFault → String
  | notFound => "No such file or directory (os error 2)"
  | notDirectory => "Not a directory (os error 20)"
  | isDirectory => "Is a directory (os error 21)"
  | nameTooLong => "File name too long (os error 36)"
  | nulInName => "file name contained an unexpected NUL byte"
  | notText => "stream did not contain valid UTF-8"

namespace FileTree

/-- The longest name of a file and, with its end mark, the longest path, in bytes. -/
def nameLimit : Nat := 255

/-- One more than the length of the longest path, in bytes. -/
def pathLimit : Nat := 4096

/-- Divides characters at slashes. -/
def components : List Char → List (List Char)
  | [] => [[]]
  | c :: cs =>
    if c = '/' then [] :: components cs
    else match components cs with
      | [] => [[c]]
      | first :: rest => (c :: first) :: rest

/-- Follows names from a node whose parents, nearest first, are `above`.  An empty name and a dot
stay where they are, two dots lead to the parent, and all three want a directory. -/
def follow (above : List FileTree) (here : FileTree) : List String → Except ReadFault FileTree
  | [] => .ok here
  | name :: rest =>
    match here with
    | .file _ => .error .notDirectory
    | .directory entries =>
      if name = "" || name = "." then follow above here rest
      else if name = ".." then
        match above with
        | [] => follow [] here rest
        | parent :: above => follow above parent rest
      else if nameLimit < name.utf8ByteSize then .error .nameTooLong
      else match entries.lookup name with
        | some node => follow (here :: above) node rest
        | none => .error .notFound

/-- The node that a path names.  A relative path starts at the directory `cwd` below the root. -/
def locate (root : FileTree) (cwd : List String) (path : String) : Except ReadFault FileTree :=
  if path.toList.contains '\x00' then .error .nulInName
  else if path = "" then .error .notFound
  else if pathLimit ≤ path.utf8ByteSize then .error .nameTooLong
  else
    let names := (components path.toList).map String.ofList
    follow [] root (if path.toList.head? = some '/' then names else cwd ++ names)

/-- The text in the file that a path names. -/
def read (root : FileTree) (cwd : List String) (path : String) : Except ReadFault String :=
  match locate root cwd path with
  | .error fault => .error fault
  | .ok (.directory _) => .error .isDirectory
  | .ok (.file content) =>
    match String.fromUTF8? content with
    | some text => .ok text
    | none => .error .notText

end FileTree

end LateBinding
