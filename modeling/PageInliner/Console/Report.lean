import PageInliner.Console.Display

/-!
The report of a failure: the failure in a sentence, and below it what caused it. A single cause is only
indented, several are numbered from zero.
-/

set_option autoImplicit false

namespace PageInliner.Report

/-- A text with `first` before its first line and `further` before every other. -/
def indented (first further : List Char) (text : String) : String :=
  .ofList (first ++ text.toList.flatMap fun c => if c = '\n' then '\n' :: further else [c])

/-- Room for what stands before the text of a cause. -/
def margin (width : Nat) : List Char :=
  List.replicate width ' '

/-- A number right-aligned before the text of a cause. -/
def numbering (number : Nat) : List Char :=
  let digits := (toString number).toList
  margin (5 - digits.length) ++ digits ++ [':', ' ']

/-- The lines of several causes, counted from `number`. -/
def numbered : (number : Nat) → List String → String
  | _, [] => ""
  | number, cause :: causes =>
    "\n" ++ indented (numbering number) (margin 7) cause ++ numbered (number + 1) causes

/-- What follows the first sentence of a report. -/
def causes : List String → String
  | [] => ""
  | [cause] => "\n\nCaused by:\n" ++ indented (margin 4) (margin 4) cause
  | causes => "\n\nCaused by:" ++ numbered 0 causes

/-- The report of a chain of sentences. -/
def text : List String → String
  | [] => ""
  | failure :: below => "Error: " ++ failure ++ causes below ++ "\n"

end PageInliner.Report
