import PageInliner.Build
import PageInliner.CommandLine.Reading
import PageInliner.Config.Loading
import PageInliner.Console.Report
import PageInliner.Files.Machine

/-!
A whole run of the program, from its arguments to its exit code and what it has printed.
-/

set_option autoImplicit false

namespace PageInliner

/-- The request carried out. -/
def Request.perform {m : Type → Type} [Monad m] [Host m] (request : Request) :
    m (Except Failure Unit) := do
  match ← Config.load request.config with
  | .error failure => return .error failure
  | .ok config =>
    match request.resolved with
    | .build names options => (config.withOptions options).build names
    | .list =>
      config.listing.forM Host.report
      return .ok ()

/-- How the reports of the run are shown. The outputs are taken for files, so colours are only used if
they are insisted on. -/
def Request.display (request : Request) : Display :=
  Display.withOptions ⟨request.color == .always, false⟩ request.options

/-- What the program answers when it is asked for its version. -/
def versionText : String :=
  "monohtml 0.1.0\n"

/-- What the program answers when it is asked for help. -/
def helpText : String :=
  "inline stylesheets and scripts into self-contained single-file HTML bundles\n" ++
  "\n" ++
  "Usage: monohtml [OPTIONS] [COMMAND]\n" ++
  "\n" ++
  "Commands:\n" ++
  "  build  Build bundles (all of them when no name is given) [aliases: b]\n" ++
  "  list   List configured bundles [aliases: l]\n" ++
  "  help   Print this message\n" ++
  "\n" ++
  "Options:\n" ++
  "      --color <COLOR>    Control colored output (auto, always, never) [default: auto] [possible values: auto, always, never]\n" ++
  "  -C, --config <CONFIG>  Config file path, searched upward from the current directory [default: monohtml.toml]\n" ++
  "  -h, --help             Print help\n" ++
  "  -V, --version          Print version\n" ++
  "\n" ++
  "Options of build:\n" ++
  "  -m, --minify[=<MINIFY>]  Minify inlined stylesheets and scripts (best-effort, not literal-aware) [possible values: true, false]\n" ++
  "  -l, --lenient-markers    Skip artifacts whose marker is missing from the template instead of failing\n" ++
  "  -V, --verbose            Enable verbose output for debugging\n"

/-- What is printed in place of a run. -/
def Refusal.output : Refusal → Output
  | help => ⟨helpText, ""⟩
  | version => ⟨versionText, ""⟩
  | unknownSubcommand => ⟨"", "error: unrecognized subcommand\n"⟩
  | unknownArgument => ⟨"", "error: unexpected argument\n"⟩
  | invalidValue => ⟨"", "error: invalid value for an option\n"⟩
  | repeated => ⟨"", "error: an option cannot be used multiple times\n"⟩
  | surplusValue => ⟨"", "error: unexpected value for an option\n"⟩

/-- How a run ended. -/
inductive Ending where
  | done
  | refused (refusal : Refusal)
  | failed (failure : Failure)
  deriving Repr, DecidableEq

namespace Ending

/-- The ending of a run that came to an end in this way. -/
def ofResult : Except Failure Unit → Ending
  | .ok () => done
  | .error failure => failed failure

def exitCode : Ending → Nat
  | done => 0
  | refused refusal => refusal.exitCode
  | failed _ => 1

/-- What is printed at the end of a run. -/
def output : Ending → Output
  | done => .empty
  | refused refusal => refusal.output
  | failed failure => ⟨"", Report.text failure.chain⟩

end Ending

/-- A run that has ended: how, what it has printed and what it has left behind. -/
structure Transcript where
  ending : Ending
  output : Output
  machine : Machine

/-- A run of the program on a tree of files. -/
def Machine.run (machine : Machine) (arguments : List String) : Transcript :=
  match CommandLine.read arguments with
  | .error refusal => ⟨.refused refusal, refusal.output, machine⟩
  | .ok request =>
    let action : StateM Machine (Except Failure Unit) := request.perform
    let (result, after) := action.run { machine with history := [] }
    let ending := Ending.ofResult result
    ⟨ending, request.display.showAll after.events ++ ending.output, after⟩

end PageInliner
