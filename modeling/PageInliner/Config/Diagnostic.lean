import PageInliner.Console.Display

/-!
Faults found in a configuration, and the report of all of them together. The report has its colours
wherever it is shown.
-/

set_option autoImplicit false

namespace PageInliner

/-- A fault in one field of a configuration, perhaps with a hint how to mend it. -/
structure Diagnostic where
  field : String
  message : String
  hint : Option String
  deriving Repr, DecidableEq

namespace Diagnostic

open Ansi

/-- The field on a line of its own, below it what is wrong and below that the hint. -/
def render (diagnostic : Diagnostic) : String :=
  dimmed "[" ++ cyan diagnostic.field ++ dimmed "]" ++ "\n" ++
    red "→" ++ " " ++ diagnostic.message ++
    match diagnostic.hint with
    | none => ""
    | some hint => "\n  " ++ yellow "hint:" ++ " " ++ hint

/-- All diagnostics below a heading, with empty lines between them and, if there are several, their
number at the end. -/
def report (diagnostics : List Diagnostic) : String :=
  bold (red "config validation failed:") ++ "\n\n" ++
    "\n\n".intercalate (diagnostics.map render) ++
    if diagnostics.length > 1 then
      "\n\n" ++ dimmed "found" ++ " " ++ bold (red (toString diagnostics.length)) ++ " " ++
        dimmed "errors"
    else ""

end Diagnostic

end PageInliner
