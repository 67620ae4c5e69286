import PageInliner.Config.Basic
import PageInliner.Console.Display

/-!
The part of a configuration that one command asks for: bundles by their names, and settings that go
before those of the configuration.
-/

set_option autoImplicit false

namespace PageInliner

/-- Settings of one build. -/
structure BuildOptions where
  minify : Option Bool
  lenientMarkers : Bool
  verbose : Bool
  deriving Repr, DecidableEq, Inhabited

/-- What is shown under the settings of a build: details just if this build asks for them. -/
def Display.withOptions (display : Display) (options : BuildOptions) : Display :=
  { display with verbose := options.verbose }

/-- A name that no bundle has. -/
structure UnknownBundle where
  name : String
  available : List String
  deriving Repr, DecidableEq

def UnknownBundle.message (unknown : UnknownBundle) : String :=
  "unknown bundle `" ++ unknown.name ++ "` (available: " ++ ", ".intercalate unknown.available ++ ")"

namespace Config

/-- The configuration with another setting for minifying, which goes before what the bundles say
themselves. -/
def withMinify (config : Config) (minify : Bool) : Config :=
  { config with
    minify := minify
    bundles := config.bundles.map fun bundle : Bundle => { bundle with minify := none } }

/-- The configuration with the settings of a build. -/
def withOptions (config : Config) (options : BuildOptions) : Config :=
  { options.minify.elim config config.withMinify with
    strictMarkers := config.strictMarkers && !options.lenientMarkers }

/-- The bundles that are asked for, in the order of the configuration; all of them if none is named. The
first name that no bundle has is an error. -/
def select (config : Config) (names : List String) : Except UnknownBundle (List Bundle) :=
  if names.isEmpty then .ok config.bundles
  else
    match names.find? fun name => !config.bundles.any fun bundle => bundle.name == name with
    | some name => .error ⟨name, config.bundles.map Bundle.name⟩
    | none => .ok (config.bundles.filter fun bundle => names.contains bundle.name)

end Config

end PageInliner
