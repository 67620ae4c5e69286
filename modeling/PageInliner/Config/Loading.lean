import PageInliner.Build.Failure
import PageInliner.Config.Reading
import PageInliner.Files.Host
import PageInliner.Toml.Document

/-!
The configuration of a run: looked for from the working directory upwards, read and validated. Without
a file the standard configuration is used, but not if a file was asked for.
-/

set_option autoImplicit false

namespace PageInliner

/-- The cause given for a configuration file that was asked for and not found. -/
def Cause.noConfigFile : Cause :=
  .missing "config file not found"

namespace Config

/-- A configuration read from the text of its file. -/
def ofText? (text : String) : Option (Reading Config) := do
  ofTree? .toml (← Toml.parse? text)

/-- Where a configuration file of that name is looked for, nearest place first: an absolute name says it
all, any other is looked for in the directory and in those above it. -/
def candidates (directory name : Path) : List Path :=
  if name.isAbsolute then [name] else directory.ancestors.map (·.join name)

/-- The name a file is called by in a report. -/
def reportedName (file : Path) : String :=
  file.fileName?.getD file.text

variable {m : Type → Type} [Monad m] [Host m]

/-- The configuration in a file, seen from the directory of the file. -/
def ofFile (file : Path) : m (Except ConfigError Config) := do
  match ← Host.readText file with
  | .error cause => return .error (.unreadable file cause)
  | .ok text =>
    match ofText? text with
    | none => return .error .malformed
    | some reading =>
      if !reading.ignored.isEmpty then
        Host.report (.unknownFields (reportedName file) (reading.ignored.map Trail.text))
      return .ok { reading.value with root := file.parent?.getD .empty, configPath := some file }

/-- The configuration from the file of that name, or the standard one if no name was given and there is
no file. It is not validated yet. -/
def find (directory : Path) (name : Option Path) : m (Except ConfigError Config) := do
  match ← Host.findFile (candidates directory (name.getD ⟨fileName⟩)) with
  | some file =>
    Host.report (.configUsed file)
    ofFile file
  | none =>
    match name with
    | some name => return .error (.unreadable name .noConfigFile)
    | none =>
      Host.report (.configMissing fileName)
      return .ok standard

/-- The configuration with the root it has when it names none. -/
def rootedAt (config : Config) (directory : Path) : Config :=
  if config.root.isEmpty then { config with root := directory } else config

/-- The configuration of a run, valid and with a root. -/
def load (name : Option Path) : m (Except Failure Config) := do
  match ← Host.workingDirectory with
  | .error cause => return .error (.noWorkingDirectory cause)
  | .ok directory =>
    match ← find directory name with
    | .error error => return .error (.config error)
    | .ok config =>
      let config := config.rootedAt directory
      match config.validate with
      | .error error => return .error (.config error)
      | .ok () => return .ok config

end Config

end PageInliner
