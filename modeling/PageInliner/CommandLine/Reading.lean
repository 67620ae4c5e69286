import PageInliner.CommandLine.Request
import PageInliner.CommandLine.Setting

/-!
Command lines read from left to right, each argument in the light of those before it. The value of an
option is examined only when the next option or name has been reached, so an unknown option behind it is
complained of first.
-/

set_option autoImplicit false

namespace PageInliner.CommandLine

/-- What the options and names of one level have said. -/
structure Given where
  color : Option ColorChoice
  config : Option Path
  minify : Option Bool
  lenient : Bool
  verbose : Bool
  names : List String
  deriving Repr, DecidableEq

namespace Given

/-- Nothing said yet. -/
def nothing : Given := ⟨none, none, none, false, false, []⟩

/-- The truth value a word stands for. -/
def truth? : String → Option Bool
  | "true" => some true
  | "false" => some false
  | _ => none

/-- One more option, with its value if it has one. No option is given twice, and that is looked at
before the value is. -/
def set (given : Given) : Setting → Option String → Except Refusal Given
  | .color, none | .config, none => .error .invalidValue
  | .color, some word =>
    if given.color.isSome then .error .repeated
    else match ColorChoice.ofName? word with
      | none => .error .invalidValue
      | some choice => .ok { given with color := some choice }
  | .config, some text =>
    if given.config.isSome then .error .repeated
    else if text.isEmpty then .error .invalidValue
    else .ok { given with config := some ⟨text⟩ }
  | .minify, value =>
    if given.minify.isSome then .error .repeated
    else match truth? (value.getD "true") with
      | none => .error .invalidValue
      | some minify => .ok { given with minify := some minify }
  | .lenient, _ => if given.lenient then .error .repeated else .ok { given with lenient := true }
  | .verbose, _ => if given.verbose then .error .repeated else .ok { given with verbose := true }
  | .help, _ => .error .help
  | .version, _ => .error .version

/-- One more name. -/
def addName (given : Given) (name : String) : Given :=
  { given with names := given.names ++ [name] }

/-- The settings of a build. -/
def buildOptions (given : Given) : BuildOptions :=
  ⟨given.minify, given.lenient, given.verbose⟩

end Given

/-- An option whose value has not been examined, or is still to come. -/
structure Pending where
  setting : Setting
  value : Option String
  deriving Repr, DecidableEq

/-- How far the arguments of one level have been read. -/
structure Progress where
  given : Given
  pending : Option Pending
  deriving Repr, DecidableEq

namespace Progress

/-- Nothing read yet. -/
def start : Progress := ⟨.nothing, none⟩

/-- Everything that has been said, the last option included. -/
def settle (progress : Progress) : Except Refusal Given :=
  match progress.pending with
  | none => .ok progress.given
  | some pending => progress.given.set pending.setting pending.value

/-- An option that needs nothing more from the arguments behind it. -/
def take (progress : Progress) (setting : Setting) (value : Option String) :
    Except Refusal Progress := do
  let given ← progress.settle
  return ⟨← given.set setting value, none⟩

/-- An option whose value is still to come. -/
def expect (progress : Progress) (setting : Setting) : Except Refusal Progress := do
  return ⟨← progress.settle, some ⟨setting, none⟩⟩

/-- The last option with the text as its value, if it waits for one. -/
def answer? (progress : Progress) (text : String) : Option Progress :=
  match progress.pending with
  | some ⟨setting, none⟩ => some { progress with pending := some ⟨setting, some text⟩ }
  | _ => none

/-- A name, behind which nothing is pending. -/
def addName (progress : Progress) (name : String) : Except Refusal Progress := do
  let given ← progress.settle
  return ⟨given.addName name, none⟩

/-- An option that is written out. -/
def readWord (level : Level) (progress : Progress) (word : String) (value : Option String) :
    Except Refusal Progress :=
  match level.ofWord? word with
  | none => .error .unknownArgument
  | some setting =>
    match setting.valueUse, value with
    | .never, some _ => .error .surplusValue
    | .always, none => progress.expect setting
    | _, value => progress.take setting value

/-- Options of one letter each. One that has a value takes it from what is left of the argument. -/
def readLetters (level : Level) (progress : Progress) : List Char → Except Refusal Progress
  | [] => .ok progress
  | letter :: rest =>
    match level.ofLetter? letter with
    | none => .error .unknownArgument
    | some setting =>
      match setting.valueUse, rest with
      | .always, [] => progress.expect setting
      | .always, '=' :: value | .ifAttached, '=' :: value =>
        progress.take setting (some (.ofList value))
      | .always, value => progress.take setting (some (.ofList value))
      | _, rest => do readLetters level (← progress.take setting none) rest

end Progress

/-- The arguments of a command, whose names are those of bundles; a listing has none. `separated` tells
that there are no options any more. -/
def readCommand (level : Level) : (separated : Bool) → Progress → List String → Except Refusal Given
  | _, progress, [] => progress.settle
  | separated, progress, argument :: arguments =>
    match if separated then .plain argument else Shape.of argument with
    | .separator => readCommand level true progress arguments
    | .word word value => do
      readCommand level false (← progress.readWord level word value) arguments
    | .letters letters => do
      readCommand level false (← progress.readLetters level letters) arguments
    | .plain text =>
      match if separated then none else progress.answer? text with
      | some progress => readCommand level false progress arguments
      | none =>
        if level = .build then do
          readCommand level separated (← progress.addName text) arguments
        else .error .unknownArgument

/-- Help asked for by name: on the program, on one of its commands or on help itself. -/
def readHelp : List String → Refusal
  | [] => .help
  | [name] => if (Verb.ofName? name).isSome then .help else .unknownSubcommand
  | _ => .unknownSubcommand

/-- The request of a command, and of the program it was given to. What the command says of colours and
the configuration goes before what the program was told. -/
def request (own : Given) (command : Option (Command × Given)) : Request where
  color := ((command.bind (·.2.color)) <|> own.color).getD .auto
  config := (command.bind (·.2.config)) <|> own.config
  command := command.map Prod.fst

/-- The arguments of the program. What is left when the command has been found belongs to the command. -/
def readProgram : (separated : Bool) → Progress → List String → Except Refusal Request
  | _, progress, [] => do return request (← progress.settle) none
  | separated, progress, argument :: arguments =>
    match if separated then .plain argument else Shape.of argument with
    | .separator => readProgram true progress arguments
    | .word word value => do
      readProgram false (← progress.readWord .program word value) arguments
    | .letters letters => do
      readProgram false (← progress.readLetters .program letters) arguments
    | .plain text =>
      match if separated then none else progress.answer? text with
      | some progress => readProgram false progress arguments
      | none =>
        match Verb.ofName? text with
        | none => .error .unknownSubcommand
        | some verb =>
          if separated then .error .unknownArgument
          else match verb with
            | .help => .error (readHelp arguments)
            | .build => do
              let given ← readCommand .build false .start arguments
              return request (← progress.settle) (some (.build given.names given.buildOptions, given))
            | .list => do
              let given ← readCommand .list false .start arguments
              return request (← progress.settle) (some (.list, given))

/-- The request in the arguments of a command line. -/
def read (arguments : List String) : Except Refusal Request :=
  readProgram false .start arguments

end PageInliner.CommandLine
