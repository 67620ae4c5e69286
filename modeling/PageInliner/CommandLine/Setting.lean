/-!
The options of a command line. The program has options of its own and so has each of its commands; some
are understood everywhere.
-/

set_option autoImplicit false

namespace PageInliner.CommandLine

/-- Whose options are understood. -/
inductive Level where
  | program
  | build
  | list
  deriving Repr, DecidableEq

/-- What an option sets or asks for. -/
inductive Setting where
  | color
  | config
  | minify
  | lenient
  | verbose
  | help
  | version
  deriving Repr, DecidableEq

/-- How an option gets a value. -/
inductive ValueUse where
  /-- It has none. -/
  | never
  /-- Only behind an equals sign; it does without if there is none. -/
  | ifAttached
  /-- In the same argument or as the next one. -/
  | always
  deriving Repr, DecidableEq

namespace Setting

def valueUse : Setting → ValueUse
  | color | config => .always
  | minify => .ifAttached
  | lenient | verbose | help | version => .never

end Setting

namespace Level

/-- The options that are written out. -/
def words : Level → List (String × Setting)
  | program => [("color", .color), ("config", .config), ("help", .help), ("version", .version)]
  | build => [("color", .color), ("config", .config), ("minify", .minify),
      ("lenient-markers", .lenient), ("verbose", .verbose), ("help", .help)]
  | list => [("color", .color), ("config", .config), ("help", .help)]

/-- The options that are written as one letter. -/
def letters : Level → List (Char × Setting)
  | program => [('C', .config), ('h', .help), ('V', .version)]
  | build => [('C', .config), ('m', .minify), ('l', .lenient), ('V', .verbose), ('h', .help)]
  | list => [('C', .config), ('h', .help)]

def ofWord? (level : Level) (word : String) : Option Setting :=
  level.words.lookup word

def ofLetter? (level : Level) (letter : Char) : Option Setting :=
  level.letters.lookup letter

end Level

/-- What stands in the place of a command. -/
inductive Verb where
  | build
  | list
  | help
  deriving Repr, DecidableEq

/-- The verb a word stands for; the commands have a short form of one letter. -/
def Verb.ofName? : String → Option Verb
  | "build" | "b" => some build
  | "list" | "l" => some list
  | "help" => some help
  | _ => none

/-- An argument by what it looks like. -/
inductive Shape where
  /-- Behind `--` there are no options any more. -/
  | separator
  /-- An option written out, perhaps with a value behind an equals sign. -/
  | word (name : String) (value : Option String)
  /-- Options of one letter each, behind a single dash. -/
  | letters (letters : List Char)
  | plain (text : String)
  deriving Repr, DecidableEq

/-- What a text looks like as an argument. A single dash is a text like any other. -/
def Shape.of (argument : String) : Shape :=
  match argument.toList with
  | ['-', '-'] => separator
  | '-' :: '-' :: rest =>
    let value := match rest.dropWhile (· ≠ '=') with
      | [] => none
      | _ :: value => some (String.ofList value)
    word (.ofList (rest.takeWhile (· ≠ '='))) value
  | '-' :: letter :: rest => letters (letter :: rest)
  | _ => plain argument

end PageInliner.CommandLine
