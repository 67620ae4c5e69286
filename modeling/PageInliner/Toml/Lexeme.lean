/-!
The characters of a TOML text: spaces, line ends and comments, quoted texts, and keys. A reader takes
what it reads from the front of the text and leaves the rest.
-/

set_option autoImplicit false

namespace PageInliner.Toml

/-- What takes a value from the front of a text, and leaves the rest. -/
abbrev Reader (α : Type) := List Char → Option (α × List Char)

/-- A space within a line. -/
def isSpace (c : Char) : Bool :=
  c == ' ' || c == '\t'

/-- A character that may stand anywhere in a comment: a tab, or one that is no ASCII control. -/
def isPlain (c : Char) : Bool :=
  c == '\t' || (' ' ≤ c && c ≤ '~') || 0x80 ≤ c.toNat

def skipSpaces (text : List Char) : List Char :=
  text.dropWhile isSpace

/-- What follows a line end. -/
def afterNewline? : List Char → Option (List Char)
  | '\n' :: rest => some rest
  | '\r' :: '\n' :: rest => some rest
  | _ => none

/-- What follows the line, if nothing but a comment is left on it. -/
def afterLine? (text : List Char) : Option (List Char) :=
  let rest := match skipSpaces text with
    | '#' :: comment => comment.dropWhile isPlain
    | rest => rest
  if rest.isEmpty then some [] else afterNewline? rest

/-- What follows spaces, line ends and comments. A comment has to end with its line. -/
def skipGaps : (inComment : Bool) → List Char → Option (List Char)
  | false, [] => some []
  | true, [] => none
  | _, '\n' :: rest => skipGaps false rest
  | _, '\r' :: '\n' :: rest => skipGaps false rest
  | false, '#' :: rest => skipGaps true rest
  | false, c :: rest => if isSpace c then skipGaps false rest else some (c :: rest)
  | true, c :: rest => if isPlain c then skipGaps true rest else none

/-- What a digit is worth, up to base sixteen. -/
def digitValue? (c : Char) : Option Nat :=
  if '0' ≤ c ∧ c ≤ '9' then some (c.toNat - '0'.toNat)
  else if 'a' ≤ c ∧ c ≤ 'f' then some (c.toNat - 'a'.toNat + 10)
  else if 'A' ≤ c ∧ c ≤ 'F' then some (c.toNat - 'A'.toNat + 10)
  else none

/-- What a row of digits is worth, unless it is more than `greatest`. `value` is what the digits read so
far are worth. -/
def digitsValue? (base greatest : Nat) : (value : Nat) → List Char → Option Nat
  | value, [] => some value
  | value, c :: rest => do
    let digit ← digitValue? c
    let value := value * base + digit
    if digit < base ∧ value ≤ greatest then digitsValue? base greatest value rest else none

/-- The character with a code of so many hexadecimal digits. -/
def codedChar (digits : Nat) : Reader Char := fun text => do
  let code := text.take digits
  let value ← digitsValue? 16 0x10FFFF 0 code
  if code.length = digits ∧ value.isValidChar then
    some (Char.ofNat value, text.drop digits)
  else none

/-- The character that is meant by what follows a backslash. -/
def escaped : Reader Char
  | 'b' :: rest => some (Char.ofNat 8, rest)
  | 't' :: rest => some ('\t', rest)
  | 'n' :: rest => some ('\n', rest)
  | 'f' :: rest => some (Char.ofNat 12, rest)
  | 'r' :: rest => some ('\r', rest)
  | '"' :: rest => some ('"', rest)
  | '\\' :: rest => some ('\\', rest)
  | 'u' :: rest => codedChar 4 rest
  | 'U' :: rest => codedChar 8 rest
  | _ => none

theorem codedChar_length_le {digits : Nat} {text rest : List Char} {c : Char}
    (found : codedChar digits text = some (c, rest)) : rest.length ≤ text.length := by
  obtain ⟨value, _, found⟩ := Option.bind_eq_some_iff.mp found
  split at found
  · cases found; simp
  · cases found

theorem escaped_length_lt {text rest : List Char} {c : Char}
    (found : escaped text = some (c, rest)) : rest.length < text.length := by
  unfold escaped at found
  split at found
  case h_8 => have := codedChar_length_le found; simp only [List.length_cons]; omega
  case h_9 => have := codedChar_length_le found; simp only [List.length_cons]; omega
  case h_10 => cases found
  all_goals cases found; simp

/-- What follows a run of spaces and line ends. -/
def skipFold : List Char → List Char
  | [] => []
  | '\r' :: '\n' :: rest => skipFold rest
  | c :: rest => if isSpace c || c == '\n' then skipFold rest else c :: rest

theorem skipFold_length_le (text : List Char) : (skipFold text).length ≤ text.length := by
  fun_induction skipFold text <;> simp_all only [List.length_cons, List.length_nil] <;> omega

/-- A quoted text up to its closing quote. -/
def quoted : Reader (List Char)
  | [] => none
  | '"' :: rest => some ([], rest)
  | '\\' :: rest =>
    match _ : escaped rest with
    | none => none
    | some (c, after) => (quoted after).map fun (text, left) => (c :: text, left)
  | c :: rest =>
    if isPlain c then (quoted rest).map fun (text, left) => (c :: text, left) else none
termination_by text => text.length
decreasing_by
  · have := escaped_length_lt ‹_›; simp only [List.length_cons]; omega
  · simp

/-- A literal text up to its closing apostrophe. -/
def literal : Reader (List Char)
  | [] => none
  | '\x27' :: rest => some ([], rest)
  | c :: rest =>
    if isPlain c then (literal rest).map fun (text, left) => (c :: text, left) else none

/-- The end of a text on several lines: three quotes, before which there may be two more that belong to
the text. -/
def tripleEnd (quote : Char) : Reader (List Char)
  | a :: b :: c :: d :: e :: rest =>
    if a = quote ∧ b = quote ∧ c = quote then
      if d = quote then
        if e = quote then some ([quote, quote], rest) else some ([quote], e :: rest)
      else some ([], d :: e :: rest)
    else none
  | [a, b, c, d] =>
    if a = quote ∧ b = quote ∧ c = quote then
      if d = quote then some ([quote], []) else some ([], [d])
    else none
  | [a, b, c] => if a = quote ∧ b = quote ∧ c = quote then some ([], []) else none
  | _ => none

/-- A quoted text on several lines up to its closing quotes. A backslash at the end of a line takes away
all spaces and line ends behind it. -/
def quotedLines (text : List Char) : Option (List Char × List Char) :=
  match tripleEnd '"' text with
  | some found => some found
  | none =>
    match text with
    | [] => none
    | '\n' :: rest => (quotedLines rest).map fun (lines, left) => ('\n' :: lines, left)
    | '\r' :: '\n' :: rest => (quotedLines rest).map fun (lines, left) => ('\n' :: lines, left)
    | '\\' :: rest =>
      if (afterNewline? (skipSpaces rest)).isSome then quotedLines (skipFold rest)
      else
        match _ : escaped rest with
        | none => none
        | some (c, after) => (quotedLines after).map fun (lines, left) => (c :: lines, left)
    | c :: rest =>
      if isPlain c then (quotedLines rest).map fun (lines, left) => (c :: lines, left) else none
termination_by text.length
decreasing_by
  · simp
  · simp only [List.length_cons]; omega
  · have := skipFold_length_le rest; simp only [List.length_cons]; omega
  · have := escaped_length_lt ‹_›; simp only [List.length_cons]; omega
  · simp

/-- A literal text on several lines up to its closing apostrophes. -/
def literalLines (text : List Char) : Option (List Char × List Char) :=
  match tripleEnd '\x27' text with
  | some found => some found
  | none =>
    match text with
    | [] => none
    | '\n' :: rest => (literalLines rest).map fun (lines, left) => ('\n' :: lines, left)
    | '\r' :: '\n' :: rest => (literalLines rest).map fun (lines, left) => ('\n' :: lines, left)
    | c :: rest =>
      if isPlain c then (literalLines rest).map fun (lines, left) => (c :: lines, left) else none

/-- A text in quotes or apostrophes, on one line or on several. A line end right behind three opening
quotes does not belong to the text. -/
def text : Reader String := fun input => do
  let (content, rest) ← match input with
    | '"' :: '"' :: '"' :: rest => quotedLines ((afterNewline? rest).getD rest)
    | '\x27' :: '\x27' :: '\x27' :: rest => literalLines ((afterNewline? rest).getD rest)
    | '"' :: rest => quoted rest
    | '\x27' :: rest => literal rest
    | _ => none
  return (.ofList content, rest)

/-- A character of a key without quotes. -/
def isKeyChar (c : Char) : Bool :=
  c.isAlphanum || c == '-' || c == '_'

/-- One key, with or without quotes. -/
def simpleKey : Reader String
  | '"' :: rest => (quoted rest).map fun (key, left) => (.ofList key, left)
  | '\x27' :: rest => (literal rest).map fun (key, left) => (.ofList key, left)
  | input =>
    let key := input.takeWhile isKeyChar
    if key.isEmpty then none else some (.ofList key, input.dropWhile isKeyChar)

/-- Keys with dots between them, at most `limit` of them, with spaces around each. -/
def dottedKeys : (limit : Nat) → Reader (List String)
  | 0, _ => none
  | limit + 1, input => do
    let (key, rest) ← simpleKey (skipSpaces input)
    match skipSpaces rest with
    | '.' :: after =>
      let (keys, left) ← dottedKeys limit after
      return (key :: keys, left)
    | left => return ([key], left)

/-- How deep values and tables may lie within each other. -/
def depthLimit : Nat := 79

/-- The keys that lead to a value or a table. -/
def keyPath : Reader (List String) :=
  dottedKeys depthLimit

end PageInliner.Toml
