/-!
# Readers of characters

A `Reader` takes characters off the front of a text and may fail; alternatives start over at the
same place.  The grammar of TOML is written with the readers of this module.
-/

namespace LateBinding.Toml

/-- A reader of an `α`, with what is left of the text as its state. -/
abbrev Reader := StateT (List Char) Option

namespace Reader

/-- The next character, which stays in the text. -/
def peek? : Reader (Option Char) := fun cs => some (cs.head?, cs)

/-- One character of a class. -/
def satisfying (p : Char → Bool) : Reader Char
  | c :: cs => if p c then some (c, cs) else none
  | [] => none

/-- One given character. -/
def char (c : Char) : Reader Char := satisfying (· == c)

/-- A given text. -/
def literal (s : String) : Reader Unit := fun cs =>
  if s.toList.isPrefixOf cs then some ((), cs.drop s.toList.length) else none

/-- The longest run of characters of a class, possibly empty. -/
def run (p : Char → Bool) : Reader (List Char) := fun cs => some (cs.takeWhile p, cs.dropWhile p)

/-- The longest run of characters of a class, at least one. -/
def run1 (p : Char → Bool) : Reader (List Char) := do
  let first ← satisfying p
  return first :: (← run p)

/-- The end of the text. -/
def eof : Reader Unit
  | [] => some ((), [])
  | _ :: _ => none

/-- What `r` reads, or nothing. -/
def optionally (r : Reader α) : Reader (Option α) := (some <$> r) <|> pure none

/-- Up to `n` repetitions of `r`, as many as there are. -/
def upTo (r : Reader α) : Nat → Reader (List α)
  | 0 => pure []
  | n + 1 =>
    (do
      let a ← r
      return a :: (← upTo r n)) <|> pure []

/-- All repetitions of `r`, which has to take at least one character each time. -/
def many (r : Reader α) : Reader (List α) := fun cs => upTo r cs.length cs

/-- One or more repetitions of `r` with separators between them. -/
def sepBy1 (r : Reader α) (sep : Reader β) : Reader (List α) := do
  let first ← r
  return first :: (← many (sep *> r))

/-- A run of exactly `n` characters of a class. -/
def exactly (n : Nat) (p : Char → Bool) : Reader (List Char)
  | cs =>
    if (cs.take n).length = n && (cs.take n).all p then some (cs.take n, cs.drop n) else none

end Reader

end LateBinding.Toml
