import LateBinding.Toml.Reader

/-!
# Characters, blanks and strings of TOML

The lexical level: which characters may stand where, blanks and comments, the four forms of strings,
and keys.  A line ends in a line feed, possibly after a carriage return; neither a lone carriage
return nor another control character except the tab may stand anywhere.
-/

namespace LateBinding.Toml

open Reader

/-! ## Character classes -/

/-- A character outside ASCII. -/
def isWide (c : Char) : Bool := 0x80 ≤ c.val

/-- A blank within a line. -/
def isBlank (c : Char) : Bool := c == ' ' || c == '\t'

/-- A character of a comment: anything printable, and the tab. -/
def isCommentChar (c : Char) : Bool := c == '\t' || (0x20 ≤ c.val && c.val ≤ 0x7E) || isWide c

/-- A character of a string between double quotes that stands for itself. -/
def isBasicChar (c : Char) : Bool := isCommentChar c && c != '"' && c != '\\'

/-- A character of a string between single quotes. -/
def isLiteralChar (c : Char) : Bool := isCommentChar c && c != '\''

/-- A character of a key without quotes. -/
def isBareKeyChar (c : Char) : Bool := c.isAlphanum || c == '-' || c == '_'

/-- A hexadecimal digit. -/
def isHexDigit (c : Char) : Bool :=
  c.isDigit || ('a' ≤ c && c ≤ 'f') || ('A' ≤ c && c ≤ 'F')

/-- The value of a digit in a base up to sixteen. -/
def digitValue (c : Char) : Nat :=
  if c.isDigit then c.toNat - '0'.toNat
  else if 'a' ≤ c && c ≤ 'f' then c.toNat - 'a'.toNat + 10
  else c.toNat - 'A'.toNat + 10

/-- The number that digits denote in a base. -/
def ofDigits (base : Nat) (digits : List Char) : Nat :=
  digits.foldl (fun n c => n * base + digitValue c) 0

/-! ## Blanks and comments -/

/-- Blanks within a line. -/
def blanks : Reader Unit := do let _ ← run isBlank

/-- The end of a line, as one line feed. -/
def newline : Reader Char := char '\n' <|> (char '\r' *> char '\n')

/-- The end of a line or of the text. -/
def lineEnd : Reader Unit := (do let _ ← newline) <|> eof

/-- A comment, up to the end of its line. -/
def comment : Reader Unit := do
  let _ ← char '#'
  let _ ← run isCommentChar

/-- What may follow on a line after its content. -/
def lineRest : Reader Unit := do
  blanks
  let _ ← optionally comment
  lineEnd

/-- Blanks, comments and ends of lines. -/
def filler : Reader Unit := do
  let _ ← many ((do let _ ← run1 isBlank) <|> (do let _ ← optionally comment; let _ ← newline))

/-! ## Strings -/

/-- The character with a given code, if there is one. -/
def scalar? (n : Nat) : Option Char :=
  if n.isValidChar then some (Char.ofNat n) else none

/-- A character given by exactly `n` hexadecimal digits. -/
def hexEscape (n : Nat) : Reader Char := do
  let digits ← exactly n isHexDigit
  match scalar? (ofDigits 16 digits) with
  | some c => return c
  | none => failure

/-- A backslash with what it introduces. -/
def escape : Reader Char := do
  let _ ← char '\\'
  match ← satisfying fun _ => true with
  | 'b' => return '\x08'
  | 't' => return '\t'
  | 'n' => return '\n'
  | 'f' => return '\x0c'
  | 'r' => return '\r'
  | '"' => return '"'
  | '\\' => return '\\'
  | 'u' => hexEscape 4
  | 'U' => hexEscape 8
  | _ => failure

/-- A string between double quotes, on one line. -/
def basicString : Reader (List Char) := do
  let _ ← char '"'
  let cs ← many (satisfying isBasicChar <|> escape)
  let _ ← char '"'
  return cs

/-- A string between single quotes, on one line and without escapes. -/
def literalString : Reader (List Char) := do
  let _ ← char '\''
  let cs ← run isLiteralChar
  let _ ← char '\''
  return cs

/-- One or two quotes that do not close a string of several lines. -/
def innerQuotes (quote : Char) : Reader (List Char) := do
  let quotes ← run1 (· == quote)
  if quotes.length < 3 then return quotes else failure

/-- The quotes that close a string of several lines: three, after at most two that belong to it. -/
def closingQuotes (quote : Char) : Reader (List Char) := do
  let quotes ← run1 (· == quote)
  if 3 ≤ quotes.length && quotes.length ≤ 5 then return quotes.drop 3 else failure

/-- A backslash at the end of a line, with all blanks and ends of lines after it. -/
def continuedLine : Reader (List Char) := do
  let _ ← char '\\'
  blanks
  let _ ← newline
  let _ ← many (satisfying isBlank <|> newline)
  return []

/-- A string of several lines, given its quote and its pieces.  An end of line right after the
opening quotes does not belong to it. -/
def multiline (quote : Char) (piece : Reader (List Char)) : Reader (List Char) := do
  literal (String.ofList [quote, quote, quote])
  let _ ← optionally newline
  let pieces ← many (piece <|> innerQuotes quote)
  return pieces.flatten ++ (← closingQuotes quote)

/-- A string of several lines between double quotes. -/
def multilineBasic : Reader (List Char) :=
  multiline '"' (run1 isBasicChar <|> continuedLine <|> List.singleton <$> (escape <|> newline))

/-- A string of several lines between single quotes, without escapes. -/
def multilineLiteral : Reader (List Char) :=
  multiline '\'' (run1 isLiteralChar <|> List.singleton <$> newline)

/-- A string in any of its four forms. -/
def string : Reader String :=
  String.ofList <$> (multilineBasic <|> basicString <|> multilineLiteral <|> literalString)

/-! ## Keys -/

/-- The number of parts at which a key is too long, and of nested containers at which a value is
too deep. -/
def nestingLimit : Nat := 80

/-- One part of a key. -/
def keyPart : Reader String :=
  String.ofList <$> (basicString <|> literalString <|> run1 isBareKeyChar)

/-- A key: parts with dots between them, each with blanks around it. -/
def key : Reader (List String) := do
  let parts ← sepBy1 (blanks *> keyPart <* blanks) (char '.')
  if parts.length < nestingLimit then return parts else failure

end LateBinding.Toml
