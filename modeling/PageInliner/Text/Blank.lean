/-!
Blank characters: the twenty-five characters with the Unicode property `White_Space`, and a text
freed of them at its two ends.
-/

set_option autoImplicit false

namespace PageInliner.Text

/-- A character with the Unicode property `White_Space`. -/
def isBlank (c : Char) : Bool :=
  let n := c.toNat
  (0x09 ≤ n && n ≤ 0x0D) || n == 0x20 || n == 0x85 || n == 0xA0 || n == 0x1680 ||
    (0x2000 ≤ n && n ≤ 0x200A) || n == 0x2028 || n == 0x2029 || n == 0x202F || n == 0x205F ||
    n == 0x3000

/-- The text from its first character that is not blank. -/
def trimStart (text : List Char) : List Char :=
  text.dropWhile isBlank

/-- The text up to its last character that is not blank. -/
def trimEnd (text : List Char) : List Char :=
  (text.reverse.dropWhile isBlank).reverse

/-- The text without the blanks at its two ends. -/
def trim (text : List Char) : List Char :=
  trimEnd (trimStart text)

/-- The next character that is not blank satisfies `p`. -/
def nextSatisfies (p : Char → Bool) (text : List Char) : Bool :=
  match trimStart text with
  | [] => false
  | c :: _ => p c

/-- Nothing in the text but blanks. -/
def allBlank (text : List Char) : Bool :=
  text.all isBlank

theorem isBlank_newline : isBlank '\n' = true := by decide

end PageInliner.Text
