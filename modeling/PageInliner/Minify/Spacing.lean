import PageInliner.Text.Blank

/-!
Blanks taken out of a text. Each function makes one decision about each character, from what stands
before it and what comes next; a run of blanks is not collected first.
-/

set_option autoImplicit false

namespace PageInliner.Minify

open Text

/-- Every run of characters that satisfy `p` becomes one space. `inRun` tells that the character before
was part of a run. -/
def squeezeRuns (p : Char → Bool) : (inRun : Bool) → List Char → List Char
  | _, [] => []
  | inRun, c :: rest =>
    if p c then
      if inRun then squeezeRuns p true rest else ' ' :: squeezeRuns p true rest
    else c :: squeezeRuns p false rest

/-- A space for every run of blanks. -/
def squeezeBlanks (text : List Char) : List Char :=
  squeezeRuns isBlank false text

/-- A space for every run of spaces and tabs. -/
def squeezeSpacing (text : List Char) : List Char :=
  squeezeRuns (fun c => c == ' ' || c == '\t') false text

/-- The text without the blanks that touch a punctuation mark on either side, and whether the first
character that is not blank is such a mark. `touching` tells that nothing but blanks stands between here
and the mark before. -/
def tightenFrom (isMark : Char → Bool) : (touching : Bool) → List Char → List Char × Bool
  | _, [] => ([], false)
  | touching, c :: rest =>
    if isBlank c then
      let (tight, ahead) := tightenFrom isMark touching rest
      (if touching || ahead then tight else c :: tight, ahead)
    else (c :: (tightenFrom isMark (isMark c) rest).1, isMark c)

/-- What `tightenFrom` tells of the text ahead. -/
theorem tightenFrom_ahead (isMark : Char → Bool) (touching : Bool) (text : List Char) :
    (tightenFrom isMark touching text).2 = nextSatisfies isMark text := by
  induction text generalizing touching with
  | nil => rfl
  | cons c rest ih =>
    simp only [tightenFrom]
    split
    case isTrue blank => simpa [nextSatisfies, trimStart, blank] using ih touching
    case isFalse dark => simp [nextSatisfies, trimStart, dark]

/-- The text without the blanks next to the punctuation marks. -/
def tighten (isMark : Char → Bool) (text : List Char) : List Char :=
  (tightenFrom isMark false text).1

/-- A line break follows before anything that is not blank. -/
def newlineAhead (text : List Char) : Bool :=
  (text.takeWhile isBlank).contains '\n'

/-- What stands between the first and the last line break of a run of blanks is taken out, and one of
the two with it. The second result tells that the run the text begins with has a line break; `broken`
tells that it has had one already. -/
def joinBlankLinesFrom : (broken : Bool) → List Char → List Char × Bool
  | _, [] => ([], false)
  | broken, c :: rest =>
    if isBlank c then
      let breaks := c == '\n'
      let (joined, ahead) := joinBlankLinesFrom (broken || breaks) rest
      (if (broken || breaks) && ahead then joined else c :: joined, breaks || ahead)
    else (c :: (joinBlankLinesFrom false rest).1, false)

/-- What `joinBlankLinesFrom` tells of the text ahead. -/
theorem joinBlankLinesFrom_ahead (broken : Bool) (text : List Char) :
    (joinBlankLinesFrom broken text).2 = newlineAhead text := by
  induction text generalizing broken with
  | nil => rfl
  | cons c rest ih =>
    simp only [joinBlankLinesFrom]
    split
    case isTrue blank =>
      have ahead := ih (broken || c == '\n')
      simp only [newlineAhead] at ahead
      simp only [ahead, newlineAhead, List.takeWhile_cons_of_pos blank, List.contains_cons]
      rw [BEq.comm]
    case isFalse dark => simp [newlineAhead, dark]

/-- The text without its blank lines. -/
def joinBlankLines (text : List Char) : List Char :=
  (joinBlankLinesFrom false text).1

/-- The text on one line: each line break is taken out, together with a carriage return before it. -/
def joinLines : List Char → List Char
  | [] => []
  | c :: rest =>
    if c = '\n' || (c = '\r' && rest.head? = some '\n') then joinLines rest
    else c :: joinLines rest

/-- The text without the semicolons that stand right before a closing brace. -/
def dropLastSemicolons : List Char → List Char
  | [] => []
  | c :: rest =>
    if c = ';' && rest.head? = some '}' then dropLastSemicolons rest
    else c :: dropLastSemicolons rest

end PageInliner.Minify
