import PageInliner.Asset
import PageInliner.Minify.Comments
import PageInliner.Minify.Spacing

/-!
Shorter stylesheets and scripts. A text goes through a fixed row of passes over its characters; no
pass knows of literals, so blanks and comment openers inside them are treated like any others.
-/

set_option autoImplicit false

namespace PageInliner.Minify

open Text

/-- The marks a stylesheet needs no blanks around. -/
def isStyleMark (c : Char) : Bool :=
  ['{', '}', ';', ':', ',', '>'].contains c

/-- The marks a script needs no blanks around. -/
def isScriptMark (c : Char) : Bool :=
  ['{', '}', ';', ':', ',', '=', '+', '-', '*', '/', '<', '>', '!', '&', '|', '?'].contains c

/-- A stylesheet without comments, without needless blanks and without the semicolon that ends a
block. -/
def style (text : List Char) : List Char :=
  trim (dropLastSemicolons (tighten isStyleMark (squeezeBlanks (dropBlockComments text))))

/-- A script on one line, without comments and needless blanks. A line break that ended a statement is
lost with the others. -/
def script (text : List Char) : List Char :=
  let code := dropLineComments (dropBlockComments text)
  trim (tighten isScriptMark (joinLines (squeezeSpacing (joinBlankLines code))))

/-- The short form of an asset; markup is left as it is. -/
def shortForm (kind : Asset.Kind) (text : String) : String :=
  match kind with
  | .markup => text
  | .style => .ofList (style text.toList)
  | .script => .ofList (script text.toList)

end PageInliner.Minify
