/-!
Paths as texts with `/` between names. Nothing is looked up here and nothing is simplified: `.` and
`..` stay where they are, and joining only puts one text behind another.
-/

set_option autoImplicit false

namespace PageInliner

/-- A path, as it is written. -/
structure Path where
  text : String
  deriving Repr, DecidableEq, Inhabited

namespace Path

instance : ToString Path := ⟨Path.text⟩

/-- The path without any name, which leads nowhere. -/
def empty : Path := ⟨""⟩

def isEmpty (path : Path) : Bool :=
  path.text.isEmpty

theorem isEmpty_iff {path : Path} : path.isEmpty = true ↔ path.text = "" :=
  String.isEmpty_iff

/-- The path begins at the root. -/
def isAbsolute (path : Path) : Bool :=
  path.text.toList.head? == some '/'

/-- The path ends in a separator. -/
def endsOpen (path : Path) : Bool :=
  path.text.toList.getLast? == some '/'

/-- `path` seen from the directory `base`: an absolute path stays what it is, any other is put behind
the base and a separator. -/
def join (base path : Path) : Path :=
  if path.isAbsolute then path
  else if base.isEmpty || base.endsOpen then ⟨base.text ++ path.text⟩
  else ⟨base.text ++ "/" ++ path.text⟩

/-- The pieces of a text between its separators; there is always one more of them than separators. -/
def splitSeparators : List Char → List (List Char)
  | [] => [[]]
  | c :: rest =>
    if c = '/' then [] :: splitSeparators rest
    else match splitSeparators rest with
      | [] => [[c]]
      | piece :: pieces => (c :: piece) :: pieces

/-- The pieces put together again. -/
def joinSeparators : List (List Char) → List Char
  | [] => []
  | [piece] => piece
  | piece :: pieces => piece ++ '/' :: joinSeparators pieces

theorem splitSeparators_ne_nil (text : List Char) : splitSeparators text ≠ [] := by
  cases text with
  | nil => simp [splitSeparators]
  | cons c rest =>
    simp only [splitSeparators]
    split
    · simp
    · split <;> simp

theorem joinSeparators_splitSeparators (text : List Char) :
    joinSeparators (splitSeparators text) = text := by
  induction text with
  | nil => rfl
  | cons c rest ih =>
    have nonempty := splitSeparators_ne_nil rest
    simp only [splitSeparators]
    cases pieces : splitSeparators rest with
    | nil => exact absurd pieces nonempty
    | cons piece more =>
      rw [pieces] at ih
      split
      case isTrue separator => simp [joinSeparators, ih, separator]
      case isFalse => cases more <;> simp_all [joinSeparators]

/-- A piece that names nothing: an empty one between two separators, or a single dot. -/
def isIdle (piece : List Char) : Bool :=
  piece == [] || piece == ['.']

/-- The start of a path that is not a name: the root, or a leading dot. -/
def lead : List Char → List Char
  | '/' :: _ => ['/']
  | ['.'] => ['.']
  | '.' :: '/' :: _ => ['.']
  | _ => []

/-- The pieces of the path behind its lead, the last one first. -/
def piecesBack (path : Path) : List (List Char) :=
  let text := path.text.toList
  (splitSeparators (text.drop (lead text).length)).reverse

/-- A lead and pieces, the last one first, as a path. -/
def ofPiecesBack (lead : List Char) (pieces : List (List Char)) : Path :=
  ⟨.ofList (lead ++ joinSeparators pieces.reverse)⟩

/-- The paths above one whose pieces are given with the last one first. Idle pieces count for nothing;
a leading dot has the empty path above it, the root has none. -/
def above (lead : List Char) : List (List Char) → List Path
  | [] => if lead = ['.'] then [empty] else []
  | piece :: pieces =>
    if isIdle piece then above lead pieces
    else ofPiecesBack lead (pieces.dropWhile isIdle) :: above lead pieces

/-- The path itself and every path above it, nearest first. -/
def ancestors (path : Path) : List Path :=
  path :: above (lead path.text.toList) path.piecesBack

/-- The path with its last name taken off. -/
def parent? (path : Path) : Option Path :=
  let lead := lead path.text.toList
  match path.piecesBack.dropWhile isIdle with
  | [] => if lead = ['.'] then some empty else none
  | _ :: pieces => some (ofPiecesBack lead (pieces.dropWhile isIdle))

/-- The parent is the nearest of the paths above. -/
theorem parent?_eq_head?_above (path : Path) :
    path.parent? = (above (lead path.text.toList) path.piecesBack).head? := by
  unfold parent?
  induction path.piecesBack with
  | nil => simp only [List.dropWhile_nil, above]; split <;> rfl
  | cons piece pieces ih =>
    by_cases idle : isIdle piece = true
    · simpa [above, idle] using ih
    · simp [above, idle]

/-- The last name of the path, unless it ends in `..`. -/
def fileName? (path : Path) : Option String :=
  match path.piecesBack.dropWhile isIdle with
  | [] => none
  | piece :: _ => if piece = ['.', '.'] then none else some (.ofList piece)

/-- The names a walk along the path takes one after the other. Empty pieces are passed over, but a
separator at the end of the path asks for one more step that stays in place. -/
def steps (path : Path) : List String :=
  let pieces := (splitSeparators path.text.toList).filter (· ≠ [])
  let names := pieces.map String.ofList
  if path.endsOpen && !names.isEmpty then names ++ ["."] else names

end Path

end PageInliner
