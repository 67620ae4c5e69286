import PageInliner.Build.Assembly
import PageInliner.Files.Host

/-!
Bundles built. All inputs of a bundle are read before its page is composed, and the page is complete
before anything is written; the bundles of a run are built one after the other and the first that fails
ends the run.
-/

set_option autoImplicit false

namespace PageInliner

/-- A complete page and the file it is to be written to. -/
structure Draft where
  path : Path
  html : String
  deriving Repr, DecidableEq

variable {m : Type → Type} [Monad m] [Host m]

/-- The asset in a file, whose path is seen from the directory. -/
def readInput (directory : Path) (source : Asset.Source) : m (Except BuildError Asset) := do
  let path := directory.join source.path
  match ← Host.readText path with
  | .error cause => return .error (.ofRead path cause)
  | .ok text =>
    Host.report (.loaded source.kind path text.utf8ByteSize)
    return .ok ⟨source.kind, path, text⟩

/-- All inputs, in order; the first that cannot be read ends the reading. -/
def readInputs (directory : Path) : List Asset.Source → m (Except BuildError (List Asset))
  | [] => return .ok []
  | source :: sources => do
    match ← readInput directory source with
    | .error error => return .error error
    | .ok asset => return (← readInputs directory sources).map (asset :: ·)

/-- The draft of a bundle. Nothing is written for it. -/
def Bundle.draft (bundle : Bundle) (config : Config) : m (Except Failure Draft) := do
  let directory := bundle.directory config.root
  Host.report (.bundleStarted bundle.name directory)
  match ← readInputs directory bundle.inputs with
  | .error error => return .error (.bundle error)
  | .ok inputs =>
    let (html, events) :=
      bundle.assemble config.strictMarkers (bundle.minifies config.minify) inputs
    events.forM Host.report
    return html.map (Draft.mk (bundle.destination config.root))

/-- The draft written to its file, in place of whatever was there. The answer is the size of the
file. -/
def Draft.write (draft : Draft) : m (Except BuildError Nat) := do
  match ← Host.makeParent draft.path with
  | .error cause => return .error (.unwritable draft.path cause)
  | .ok () =>
    match ← Host.writeFile draft.path draft.html.toUTF8 with
    | .error cause => return .error (.unwritable draft.path cause)
    | .ok () => return (← Host.fileSize draft.path).mapError (.unwritable draft.path)

/-- One bundle built: its draft made and written. -/
def Bundle.build (bundle : Bundle) (config : Config) : m (Except Failure Unit) := do
  match ← bundle.draft config with
  | .error failure => return .error failure
  | .ok draft =>
    match ← draft.write with
    | .error error => return .error (.bundle error)
    | .ok bytes =>
      Host.report (.wrote draft.path)
      Host.report (.sized bytes)
      return .ok ()

namespace Config

/-- A row of bundles built, as far as the first that fails. -/
def buildEach (config : Config) : List Bundle → m (Except Failure Unit)
  | [] => return .ok ()
  | bundle :: bundles => do
    match ← bundle.build config with
    | .error failure => return .error (.building bundle.name failure)
    | .ok () => buildEach config bundles

/-- The bundles that are asked for, built in the order of the configuration. -/
def build (config : Config) (names : List String) : m (Except Failure Unit) := do
  match config.select names with
  | .error unknown => return .error (.unknownBundle unknown)
  | .ok bundles =>
    match ← config.buildEach bundles with
    | .error failure => return .error failure
    | .ok () =>
      if bundles.length > 1 then Host.report (.builtAll bundles.length)
      return .ok ()

/-- The listing of a configuration, one event for each line. -/
def listing (config : Config) : List Event :=
  .listingFrom config.configPath ::
    config.bundles.map fun bundle =>
      .listed bundle.name bundle.strategy.name (bundle.inputs.map Asset.Source.path)
        (bundle.destination config.root)

end Config

end PageInliner
