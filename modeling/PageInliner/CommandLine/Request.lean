import PageInliner.Config.Selection

/-!
What a command line asks for, and what it is refused for.
-/

set_option autoImplicit false

namespace PageInliner

/-- When colours are used. -/
inductive ColorChoice where
  | auto
  | always
  | never
  deriving Repr, DecidableEq, Inhabited

namespace ColorChoice

def name : ColorChoice → String
  | auto => "auto"
  | always => "always"
  | never => "never"

/-- The choice a word stands for. -/
def ofName? : String → Option ColorChoice
  | "auto" => some auto
  | "always" => some always
  | "never" => some never
  | _ => none

theorem ofName?_name (choice : ColorChoice) : ofName? choice.name = some choice := by
  cases choice <;> rfl

end ColorChoice

/-- What is to be done. -/
inductive Command where
  | build (names : List String) (options : BuildOptions)
  | list
  deriving Repr, DecidableEq

/-- A command line that was understood. Without a command all bundles are built. -/
structure Request where
  color : ColorChoice
  config : Option Path
  command : Option Command
  deriving Repr, DecidableEq

namespace Request

/-- The command that is carried out. -/
def resolved (request : Request) : Command :=
  request.command.getD (.build [] ⟨none, false, false⟩)

/-- The settings of the build, which tell nothing when there is none. -/
def options (request : Request) : BuildOptions :=
  match request.resolved with
  | .build _ options => options
  | .list => ⟨none, false, false⟩

end Request

/-- Why a command line is not carried out. Asking for help or for the version is no fault. -/
inductive Refusal where
  | help
  | version
  | unknownSubcommand
  | unknownArgument
  | invalidValue
  /-- An option that was given before. -/
  | repeated
  /-- A value for an option that takes none. -/
  | surplusValue
  deriving Repr, DecidableEq

/-- The exit code of the program. -/
def Refusal.exitCode : Refusal → Nat
  | .help | .version => 0
  | _ => 2

end PageInliner
