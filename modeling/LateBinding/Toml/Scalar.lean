import LateBinding.Toml.Lexical

/-!
# Numbers and moments of TOML

Integers have 64 bits and are written in base two, eight, ten or sixteen.  Floats are written in
base ten, as `inf` or as `nan`; a positive one must not be too large for binary64.  Moments are
dates, times or both, on days that exist.
-/

namespace LateBinding.Toml

open Reader

/-! ## Digits -/

/-- Digits with single underscores between them. -/
def digitGroups (isDigit : Char → Bool) : Reader (List Char) := do
  let first ← satisfying isDigit
  let rest ← many (satisfying isDigit <|> (char '_' *> satisfying isDigit))
  return first :: rest

/-- An optional sign; whether it is a minus. -/
def sign : Reader Bool :=
  (do let _ ← char '-'; return true) <|> (do let _ ← char '+'; return false) <|> pure false

/-- Decimal digits without a leading zero. -/
def wholeDigits : Reader (List Char) := do
  match ← peek? with
  | some '0' => return [← char '0']
  | _ => digitGroups Char.isDigit

/-! ## Integers -/

/-- Whether an integer has 64 bits. -/
def fits64 (n : Int) : Bool := -9223372036854775808 ≤ n && n ≤ 9223372036854775807

/-- The digits of an integer in a base, after what announces the base. -/
def basedInteger (announcement : String) (base : Nat) (isDigit : Char → Bool) : Reader Int := do
  literal announcement
  let n : Int := ofDigits base (← digitGroups isDigit)
  if fits64 n then return n else failure

/-- An integer in base ten. -/
def decimalInteger : Reader Int := do
  let negative ← sign
  let magnitude : Int := ofDigits 10 (← wholeDigits)
  let n := if negative then -magnitude else magnitude
  if fits64 n then return n else failure

/-- An integer. -/
def integer : Reader Int :=
  basedInteger "0x" 16 isHexDigit
    <|> basedInteger "0o" 8 (fun c => '0' ≤ c && c ≤ '7')
    <|> basedInteger "0b" 2 (fun c => c == '0' || c == '1')
    <|> decimalInteger

/-! ## Floats -/

/-- The least magnitude that binary64 rounds to infinity. -/
def overflowBound : Nat := Nat.pow 2 1024 - Nat.pow 2 970

/-- Whether digits times a power of ten reach `overflowBound`.  Magnitudes that their number of
digits puts far away from the bound are not computed. -/
def overflows (digits : Nat) (exponent : Int) : Bool :=
  let places : Int := (Nat.toDigits 10 digits).length + exponent
  if digits = 0 || places < 300 then false
  else if 320 < places then true
  else overflowBound * Nat.pow 10 (-exponent).toNat ≤ digits * Nat.pow 10 exponent.toNat

/-- The fraction of a float: its digits. -/
def fraction : Reader (List Char) := char '.' *> digitGroups Char.isDigit

/-- The exponent of a float. -/
def exponent : Reader Int := do
  let _ ← char 'e' <|> char 'E'
  let negative ← sign
  let magnitude : Int := ofDigits 10 (← digitGroups Char.isDigit)
  return if negative then -magnitude else magnitude

/-- A float in digits, with a fraction or an exponent or both. -/
def decimalFloat : Reader Unit := do
  let negative ← sign
  let whole ← wholeDigits
  let frac ← optionally fraction
  let exp ← if frac.isSome then optionally exponent else some <$> exponent
  let digits := whole ++ frac.getD []
  let scale := exp.getD 0 - (frac.getD []).length
  if negative || !overflows (ofDigits 10 digits) scale then return else failure

/-- A float. -/
def float : Reader Unit :=
  decimalFloat <|> (do let _ ← sign; literal "inf" <|> literal "nan")

/-! ## Moments -/

/-- A number of exactly `n` decimal digits within bounds. -/
def boundedNumber (n lo hi : Nat) : Reader Nat := do
  let value := ofDigits 10 (← exactly n Char.isDigit)
  if lo ≤ value && value ≤ hi then return value else failure

/-- Whether a year has a leap day. -/
def isLeapYear (year : Nat) : Bool := year % 4 == 0 && (year % 100 != 0 || year % 400 == 0)

/-- The number of days of a month. -/
def daysIn (year month : Nat) : Nat :=
  if month = 2 then (if isLeapYear year then 29 else 28)
  else if month = 4 ∨ month = 6 ∨ month = 9 ∨ month = 11 then 30
  else 31

/-- A date. -/
def date : Reader Unit := do
  let year ← boundedNumber 4 0 9999
  let _ ← char '-'
  let month ← boundedNumber 2 1 12
  let _ ← char '-'
  let _ ← boundedNumber 2 1 (daysIn year month)

/-- A time of day; a minute may have a leap second. -/
def time : Reader Unit := do
  let _ ← boundedNumber 2 0 23
  let _ ← char ':'
  let _ ← boundedNumber 2 0 59
  let _ ← char ':'
  let _ ← boundedNumber 2 0 60
  let _ ← optionally (char '.' *> run1 Char.isDigit)

/-- The offset of a time from universal time. -/
def offset : Reader Unit :=
  (do let _ ← char 'Z' <|> char 'z')
    <|> (do
      let _ ← char '+' <|> char '-'
      let _ ← boundedNumber 2 0 23
      let _ ← char ':'
      let _ ← boundedNumber 2 0 59)

/-- A date, a time, or a date with a time and possibly an offset. -/
def moment : Reader Unit :=
  (do
    date
    let _ ← optionally do
      let _ ← char 'T' <|> char 't' <|> char ' '
      time
      let _ ← optionally offset) <|> time

end LateBinding.Toml
