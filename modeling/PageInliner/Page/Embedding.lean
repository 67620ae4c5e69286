import PageInliner.Asset
import PageInliner.BuildError
import PageInliner.Text.Letter

/-!
Texts inside the elements of a page. A script or a stylesheet ends where its closing tag begins, so a
text that holds that tag cannot be put in as it is: a script can be written differently, a stylesheet
cannot and is refused.
-/

set_option autoImplicit false

namespace PageInliner.Page

open Text

/-- The word that, behind `<`, closes a script. -/
def scriptClose : List Char :=
  "/script".toList

/-- What closes a stylesheet. -/
def styleClose : List Char :=
  "</style".toList

/-- A backslash put between `<` and `/` wherever a script would be closed. Inside the literals of a
script `\/` means the same as `/`. -/
def escapeScriptClose : List Char → List Char
  | [] => []
  | c :: rest =>
    if c == '<' && startsFolded scriptClose rest then c :: '\\' :: escapeScriptClose rest
    else c :: escapeScriptClose rest

/-- The text of an asset in a form that does not end the element it is put into. -/
def embeddable (asset : Asset) : Except BuildError String :=
  match asset.kind with
  | .markup => .ok asset.text
  | .script => .ok (.ofList (escapeScriptClose asset.text.toList))
  | .style =>
    if containsFolded styleClose asset.text.toList then .error (.endsOwnBlock asset.path "</style")
    else .ok asset.text

/-- The text in the element for its kind, on lines of its own. Markup needs no element. -/
def element (kind : Asset.Kind) (text : String) : String :=
  match kind.tag? with
  | none => text
  | some tag => "<" ++ tag ++ ">\n" ++ text ++ "\n</" ++ tag ++ ">"

/-- How a character is written in the text of a page. -/
def escapeChar : Char → List Char
  | '&' => "&amp;".toList
  | '<' => "&lt;".toList
  | '>' => "&gt;".toList
  | c => [c]

/-- The characters that have to be escaped in the text of a page. -/
def isSpecial (c : Char) : Bool :=
  c == '&' || c == '<' || c == '>'

/-- A text as it is written in a page; one without special characters is written as it is. -/
def escaped (text : String) : String :=
  if text.toList.any isSpecial then .ofList (text.toList.flatMap escapeChar) else text

end PageInliner.Page
