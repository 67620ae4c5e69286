import PageInliner.Toml.Number
import PageInliner.Toml.Table

/-!
TOML documents read into trees. There is one answer for all that is wrong with a text: it is no document.
-/

set_option autoImplicit false

namespace PageInliner.Toml

/-- A number or a moment. -/
def numeric : Reader Tree := fun input =>
  match moment input with
  | some ((), rest) => some (.moment, rest)
  | none => (decimal input <|> special input <|> integer input).map fun ((), rest) =>
    (.number, rest)

/-- A value that has no others in it. -/
def scalar : Reader Tree := fun input =>
  match input with
  | '"' :: _ => (text input).map fun (value, rest) => (.text value, rest)
  | '\x27' :: _ => (text input).map fun (value, rest) => (.text value, rest)
  | 't' :: 'r' :: 'u' :: 'e' :: rest => some (.boolean true, rest)
  | 'f' :: 'a' :: 'l' :: 's' :: 'e' :: rest => some (.boolean false, rest)
  | 'i' :: _ => numeric input
  | 'n' :: _ => numeric input
  | c :: _ => if isDigit c || c == '+' || c == '-' then numeric input else none
  | [] => none

/-- The items of a list behind its opening bracket. There may be a comma behind the last one. Each takes
some of the text, so there are at most `fuel` of them. -/
def items (value : Reader Tree) : (fuel : Nat) → Reader (List Tree)
  | 0, _ => none
  | fuel + 1, input => do
    match ← skipGaps false input with
    | ']' :: rest => return ([], rest)
    | found =>
      let (item, rest) ← value found
      match ← skipGaps false rest with
      | ',' :: rest =>
        let (more, left) ← items value fuel rest
        return (item :: more, left)
      | ']' :: rest => return ([item], rest)
      | _ => none

/-- Keys, an equals sign and a value. -/
def pair (value : Reader Tree) : Reader (List String × Tree) := fun input => do
  let (keys, rest) ← keyPath input
  let ((), rest) ← expect '=' rest
  let (tree, rest) ← value (skipSpaces rest)
  return ((keys, tree), rest)

/-- The pairs of a table in braces, behind the opening one. There is no comma behind the last one. Each
takes some of the text, so there are at most `fuel` of them. -/
def pairs (value : Reader Tree) : (fuel : Nat) → Reader (List (List String × Tree))
  | 0, _ => none
  | fuel + 1, input => do
    let (found, rest) ← pair value input
    match skipSpaces rest with
    | ',' :: rest =>
      let (more, left) ← pairs value fuel rest
      return (found :: more, left)
    | '}' :: rest => return ([found], rest)
    | _ => none

/-- A table in braces, behind the opening one, of at most `limit` pairs. -/
def inlineTable (value : Reader Tree) (limit : Nat) : Reader Tree := fun input => do
  let (found, rest) ← match skipSpaces input with
    | '}' :: rest => some ([], rest)
    | inside => pairs value limit inside
  let entries ← Entries.addAll [] found
  return (entries.tree, rest)

/-- A value with at most `depth` others around the innermost one, of which none has more than `limit`
items or pairs. -/
def value (limit : Nat) : (depth : Nat) → Reader Tree
  | 0, input => scalar input
  | depth + 1, input =>
    match input with
    | '[' :: rest => (items (value limit depth) limit rest).map fun (trees, left) =>
      (.list trees, left)
    | '{' :: rest => inlineTable (value limit depth) limit rest
    | input => scalar input

/-- A line of a document, or several of them, that is more than a comment. -/
inductive Line where
  /-- The header of a table, or of an item of a list of tables. -/
  | header (isItem : Bool) (keys : List String)
  | pair (keys : List String) (tree : Tree)

/-- A header behind its opening brackets: one of them or, for an item of a list of tables, two. -/
def header (isItem : Bool) : Reader Line := fun input => do
  let (keys, rest) ← keyPath input
  let ((), rest) ← expect ']' rest
  if isItem then
    let ((), rest) ← expect ']' rest
    return (.header true keys, rest)
  else return (.header false keys, rest)

/-- What the front of a text that is not blank holds, up to the end of its line. -/
def line (limit : Nat) : Reader Line
  | '[' :: '[' :: rest => header true rest
  | '[' :: rest => header false rest
  | rest => (pair (value limit depthLimit) rest).map fun ((keys, tree), rest) =>
    (.pair keys tree, rest)

/-- The lines of a document. Each takes some of the text, so there are at most `fuel` of them; `limit`
bounds the values in them. -/
def lines (limit : Nat) : (fuel : Nat) → List Char → Option (List Line)
  | 0, _ => none
  | fuel + 1, input =>
    match skipSpaces input with
    | [] => some []
    | '#' :: rest => do lines limit fuel (← afterLine? ('#' :: rest))
    | '\n' :: rest => lines limit fuel rest
    | '\r' :: rest => do lines limit fuel (← afterNewline? ('\r' :: rest))
    | rest => do
      let (found, rest) ← line limit rest
      return found :: (← lines limit fuel (← afterLine? rest))

/-- A part of a document: a header and the pairs under it. -/
structure Section where
  isItem : Bool
  keys : List String
  pairs : List (List String × Tree)

/-- The parts of a document, and the pairs before the first of them. -/
def sections : List Line → List (List String × Tree) × List Section
  | [] => ([], [])
  | .pair keys tree :: lines =>
    let (pairs, parts) := sections lines
    ((keys, tree) :: pairs, parts)
  | .header isItem keys :: lines =>
    let (pairs, parts) := sections lines
    ([], ⟨isItem, keys, pairs⟩ :: parts)

/-- The document with one more section. -/
def addSection (entries : Entries) (part : Section) : Option Entries :=
  if part.isItem then entries.addItem part.keys part.pairs
  else entries.addTable part.keys part.pairs

/-- The text without the mark that tells the order of its bytes. -/
def withoutMark : List Char → List Char
  | c :: rest => if c = Char.ofNat 0xFEFF then rest else c :: rest
  | [] => []

/-- The tree of a document. -/
def parse? (input : String) : Option Tree := do
  let input := withoutMark input.toList
  let limit := input.length + 1
  let (pairs, parts) := sections (← lines limit limit input)
  let entries ← parts.foldlM addSection (← Entries.addAll [] pairs)
  return entries.tree

end PageInliner.Toml
