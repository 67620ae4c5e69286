/-!
Text compared without regard to case. Two characters agree when their simple case foldings do; the
words that are looked for are ASCII, so of the folding only the part that ends in an ASCII character
is needed.
-/

set_option autoImplicit false

namespace PageInliner.Text

/-- The simple case folding of a character, as far as it yields an ASCII letter: the capitals fold to
their small letters, the long s to `s` and the kelvin sign to `k`. Any other character is left alone. -/
def foldCase (c : Char) : Char :=
  if c = Char.ofNat 0x17F then 's'
  else if c = Char.ofNat 0x212A then 'k'
  else c.toLower

/-- The text begins with `word`, whatever its case. The word is in small letters. -/
def startsFolded : (word text : List Char) → Bool
  | [], _ => true
  | _ :: _, [] => false
  | w :: word, c :: text => foldCase c == w && startsFolded word text

/-- The text holds `word` somewhere, whatever its case. -/
def containsFolded (word : List Char) : List Char → Bool
  | [] => startsFolded word []
  | c :: text => startsFolded word (c :: text) || containsFolded word text

end PageInliner.Text
