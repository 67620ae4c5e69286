/-!
The tree a configuration file is read into: texts, truth values, lists and tables, and what else the
notation of the file knows. Tables keep the order of their keys. A configuration has no use for what a
number or a moment is worth, so the tree only tells that there is one.
-/

set_option autoImplicit false

namespace PageInliner

/-- A value as it stands in a file. -/
inductive Tree where
  | null
  | boolean (value : Bool)
  | number
  /-- A date, a time or both. -/
  | moment
  | text (value : String)
  | list (items : List Tree)
  | table (entries : List (String × Tree))
  deriving Inhabited

end PageInliner
