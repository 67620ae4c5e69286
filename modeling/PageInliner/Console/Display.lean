import PageInliner.Console.Event
import PageInliner.Size

/-!
How reports look on a terminal: a section in brackets before each message, bold and in the colour of the
section if colours are wanted.
-/

set_option autoImplicit false

namespace PageInliner

/-- What a terminal is to show of the reports, and how. -/
structure Display where
  colored : Bool
  verbose : Bool
  deriving Repr, DecidableEq, Inhabited

/-- Text for the two outputs of the program. -/
structure Output where
  out : String
  err : String
  deriving Repr, DecidableEq, Inhabited

namespace Output

/-- Nothing on either output. -/
def empty : Output := ⟨"", ""⟩

def append (first second : Output) : Output :=
  ⟨first.out ++ second.out, first.err ++ second.err⟩

instance : Append Output := ⟨append⟩

/-- One line on the standard output. -/
def line (text : String) : Output := ⟨text ++ "\n", ""⟩

end Output

namespace Ansi

/-- The sequence that changes how the text behind it looks. -/
def sequence (code : Nat) : String :=
  "\x1b[" ++ toString code ++ "m"

/-- A text in a colour, and behind it the colour of the terminal again. -/
def colored (code : Nat) (text : String) : String :=
  sequence code ++ text ++ sequence 39

/-- A text in another style, and behind it the plain style again. -/
def styled (code : Nat) (text : String) : String :=
  sequence code ++ text ++ sequence 0

def bold : String → String := styled 1
def dimmed : String → String := styled 2
def red : String → String := colored 31
def yellow : String → String := colored 33
def cyan : String → String := colored 36

end Ansi

namespace Display

/-- The colour of a section, told by its name in whatever case: green for what is done, red for errors,
magenta for warnings and yellow for all else, each of them bright. -/
def sectionColor (name : String) : Nat :=
  match name.map Char.toLower with
  | "done" => 92
  | "error" => 91
  | "warning" => 95
  | _ => 93

/-- The name of a section in brackets. -/
def tag (colored : Bool) (name : String) : String :=
  let tag := "[" ++ name ++ "]"
  if colored then Ansi.bold (Ansi.colored (sectionColor name) tag) else tag

/-- A message in a section, as one line. -/
def message (colored : Bool) (name text : String) : Output :=
  .line (tag colored name ++ " " ++ text)

/-- A text with spaces behind it, up to a width. The width counts all characters, those of colours
too. -/
def padded (width : Nat) (text : String) : String :=
  text ++ .ofList (List.replicate (width - text.length) ' ')

/-- The line of a listing for one bundle. -/
def listingLine (colored : Bool) (name strategy : String) (inputs : List Path) (output : Path) :
    String :=
  let shownName := if colored then Ansi.bold name else name
  padded 12 shownName ++ " " ++ padded 9 strategy ++ " " ++
    ", ".intercalate (inputs.map Path.text) ++ " -> " ++ output.text

/-- An event as it is shown. -/
def render (colored : Bool) : Event → Output
  | .configUsed path => message colored "config" s!"using {path}"
  | .configMissing name => message colored "config" s!"{name} not found, using built-in bundles"
  | .unknownFields file fields =>
    message colored "warning" s!"unknown fields in {file}, ignoring:" ++
      ⟨"", String.join (fields.map fun field => "- " ++ field ++ "\n")⟩
  | .bundleStarted name directory => message colored "build" s!"bundle `{name}` from {directory}"
  | .loaded kind path bytes => message colored "load" s!"{kind.name} {path} ({bytes} bytes)"
  | .minified path before after => message colored "minify" s!"{path} {before} -> {after} bytes"
  | .markerSkipped marker template asset =>
    message colored "warning" s!"marker `{marker}` not found in {template}, skipping {asset}"
  | .wrote path => message colored "build" s!"wrote {path}"
  | .sized bytes => message colored "build" s!"size: {Size.text bytes}"
  | .builtAll count => message colored "done" s!"built {count} bundles"
  | .listingFrom none => message colored "config" "no config file, using built-in bundles"
  | .listingFrom (some path) => message colored "config" path.text
  | .listed name strategy inputs output => .line (listingLine colored name strategy inputs output)

/-- What is shown of an event; details only if they are asked for. -/
def shown (display : Display) (event : Event) : Output :=
  if event.isDetail && !display.verbose then .empty else render display.colored event

/-- What is shown of a row of events. -/
def showAll (display : Display) (events : List Event) : Output :=
  events.foldl (fun before event => before ++ display.shown event) .empty

end Display

end PageInliner
