import PageInliner.Toml.Lexeme

/-!
Numbers and moments of a TOML text. A configuration has no use for what they are worth, so a reader only
finds out where one ends, and whether it is one at all: a whole number has to fit into 64 bits and a
fraction has to be finite.
-/

set_option autoImplicit false

namespace PageInliner.Toml

def isDigit (c : Char) : Bool :=
  '0' ≤ c && c ≤ '9'

/-- Digits, with single underscores between them, up to the first character that is neither. -/
def moreDigits (isDigit : Char → Bool) : List Char → List Char × List Char
  | [] => ([], [])
  | ['_'] => ([], ['_'])
  | '_' :: d :: rest =>
    if isDigit d then
      let (digits, left) := moreDigits isDigit rest
      (d :: digits, left)
    else ([], '_' :: d :: rest)
  | d :: rest =>
    if isDigit d then
      let (digits, left) := moreDigits isDigit rest
      (d :: digits, left)
    else ([], d :: rest)

/-- At least one digit, and underscores only between digits. -/
def digits (isDigit : Char → Bool) : Reader (List Char)
  | [] => none
  | d :: rest =>
    if isDigit d then
      let (more, left) := moreDigits isDigit rest
      some (d :: more, left)
    else none

/-- A sign, if there is one; the value tells whether it is a minus. -/
def sign : List Char → Bool × List Char
  | '-' :: rest => (true, rest)
  | '+' :: rest => (false, rest)
  | input => (false, input)

/-- A signed whole number: its sign and digits. It is zero or begins with another digit. -/
def whole : Reader (Bool × List Char) := fun input => do
  let (negative, rest) := sign input
  match rest with
  | '0' :: left => return ((negative, ['0']), left)
  | rest =>
    let (found, left) ← digits isDigit rest
    return ((negative, found), left)

/-- A whole number in a base that is told by two characters in front. -/
def based (base : Nat) : Reader Unit := fun input => do
  let isBaseDigit (c : Char) := (digitValue? c).any (· < base)
  let (found, left) ← digits isBaseDigit input
  let _ ← digitsValue? base (Nat.pow 2 63 - 1) 0 found
  return ((), left)

/-- A whole number of 64 bits, one of them for the sign. -/
def integer : Reader Unit
  | '0' :: 'x' :: rest => based 16 rest
  | '0' :: 'o' :: rest => based 8 rest
  | '0' :: 'b' :: rest => based 2 rest
  | input => do
    let ((negative, found), left) ← whole input
    let greatest := if negative then Nat.pow 2 63 else Nat.pow 2 63 - 1
    let _ ← digitsValue? 10 greatest 0 found
    return ((), left)

/-- What the digits of an exponent are worth. An exponent that is far beyond all numbers already does not
grow any more. -/
def exponentValue : (value : Nat) → List Char → Nat
  | value, [] => value
  | value, d :: rest =>
    if value < 0x10000 then exponentValue (value * 10 + (d.toNat - '0'.toNat)) rest else value

/-- The exponent of a fraction. -/
def exponent : Reader Int
  | e :: rest =>
    if e = 'e' ∨ e = 'E' then do
      let (negative, rest) := sign rest
      let (found, left) ← digits isDigit rest
      let value := exponentValue 0 found
      return (if negative then -(value : Int) else value, left)
    else none
  | [] => none

/-- The least number, as a whole number, that a floating-point number of 64 bits can no longer be
rounded to: half a step beyond the largest one. -/
def overflow : Nat := Nat.pow 2 1024 - Nat.pow 2 970

/-- The number whose digits have so many places before the point is too large for a floating-point number
of 64 bits. The least such number has 309 places, so the rest of the digits decides nothing. -/
def overflows (digits : List Char) (places : Int) : Bool :=
  let leading := digits.dropWhile (· == '0')
  let places := places - (digits.length - leading.length : Nat)
  if leading.isEmpty || places < 309 then false
  else if 309 < places then true
  else (digitsValue? 10 (overflow - 1) 0 ((leading.take 309).rightpad 309 '0')).isNone

/-- A number with a fraction, an exponent or both. -/
def decimal : Reader Unit := fun input => do
  let ((negative, found), rest) ← whole input
  let ((fraction, power), left) ← match rest with
    | '.' :: rest => do
      let (fraction, rest) ← digits isDigit rest
      match exponent rest with
      | some (power, left) => some ((fraction, power), left)
      | none => some ((fraction, 0), rest)
    | rest => (exponent rest).map fun (power, left) => (([], power), left)
  if !negative && overflows (found ++ fraction) (found.length + power) then none
  else some ((), left)

/-- Infinity, or what is no number. -/
def special : Reader Unit := fun input =>
  match (sign input).2 with
  | 'i' :: 'n' :: 'f' :: left => some ((), left)
  | 'n' :: 'a' :: 'n' :: left => some ((), left)
  | _ => none

/-- Exactly so many digits, whose value lies between two bounds. -/
def numeral (count least greatest : Nat) : Reader Nat := fun input => do
  let found := input.take count
  let value ← digitsValue? 10 greatest 0 found
  if found.length = count ∧ least ≤ value then some (value, input.drop count)
  else none

/-- What follows a character that has to be there. -/
def expect (c : Char) : Reader Unit
  | [] => none
  | d :: rest => if c = d then some ((), rest) else none

/-- The number of days of a month. -/
def daysIn (year month : Nat) : Nat :=
  if month = 2 then
    if year % 4 = 0 ∧ (year % 100 ≠ 0 ∨ year % 400 = 0) then 29 else 28
  else if month ∈ [4, 6, 9, 11] then 30
  else 31

def date : Reader Unit := fun input => do
  let (year, rest) ← numeral 4 0 9999 input
  let ((), rest) ← expect '-' rest
  let (month, rest) ← numeral 2 1 12 rest
  let ((), rest) ← expect '-' rest
  let (_, rest) ← numeral 2 1 (daysIn year month) rest
  return ((), rest)

/-- A time of day. A minute may have a second more, and a second any number of places. -/
def time : Reader Unit := fun input => do
  let (_, rest) ← numeral 2 0 23 input
  let ((), rest) ← expect ':' rest
  let (_, rest) ← numeral 2 0 59 rest
  let ((), rest) ← expect ':' rest
  let (_, rest) ← numeral 2 0 60 rest
  match rest with
  | '.' :: d :: left =>
    if isDigit d then return ((), left.dropWhile isDigit) else none
  | ['.'] => none
  | rest => return ((), rest)

/-- How far the time is off from that of Greenwich. -/
def offset : Reader Unit
  | 'Z' :: rest => some ((), rest)
  | 'z' :: rest => some ((), rest)
  | c :: rest =>
    if c = '+' ∨ c = '-' then do
      let (_, rest) ← numeral 2 0 23 rest
      let ((), rest) ← expect ':' rest
      let (_, rest) ← numeral 2 0 59 rest
      return ((), rest)
    else none
  | [] => none

/-- A date, a date with a time, or a time. -/
def moment : Reader Unit := fun input =>
  match date input with
  | none => time input
  | some ((), rest) =>
    match rest with
    | c :: behind =>
      if c = 'T' ∨ c = 't' ∨ c = ' ' then
        match time behind with
        | none => some ((), rest)
        | some ((), left) => some ((offset left).getD ((), left))
      else some ((), rest)
    | [] => some ((), [])

end PageInliner.Toml
