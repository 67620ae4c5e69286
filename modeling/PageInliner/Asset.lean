import PageInliner.Path

/-!
Text assets: the three kinds of them, the files they are asked for from, and the assets themselves.
-/

set_option autoImplicit false

namespace PageInliner

/-- What a text asset is, and so what becomes of it in a page. -/
inductive Asset.Kind where
  /-- A page or a piece of one. -/
  | markup
  | style
  | script
  deriving Repr, DecidableEq, Inhabited

namespace Asset.Kind

/-- The word for the kind in configurations and reports. -/
def name : Kind → String
  | markup => "markup"
  | style => "style"
  | script => "script"

/-- The kind a word stands for. -/
def ofName? : String → Option Kind
  | "markup" => some markup
  | "style" => some style
  | "script" => some script
  | _ => none

/-- The tag of the element that holds such an asset inside a page. Markup stands in the page by itself. -/
def tag? : Kind → Option String
  | markup => none
  | style => some "style"
  | script => some "script"

theorem ofName?_name (kind : Kind) : ofName? kind.name = some kind := by
  cases kind <;> rfl

end Asset.Kind

/-- A file to be read as an asset. Its path is seen from some directory. -/
structure Asset.Source where
  kind : Asset.Kind
  path : Path
  deriving Repr, DecidableEq

/-- A text of some kind, and where it came from. -/
structure Asset where
  kind : Asset.Kind
  path : Path
  text : String
  deriving Repr, DecidableEq

end PageInliner
