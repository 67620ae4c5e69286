import PageInliner.Config.Basic
import PageInliner.Config.Diagnostic
import PageInliner.Files.Cause
import PageInliner.Text.Blank

/-!
What a configuration must have before anything is built from it. All faults are found at once: they are
listed by bundle, and within a bundle by name, output, the fields of its strategy and at last a name
that was used before.
-/

set_option autoImplicit false

namespace PageInliner

namespace Diagnostic

/-- A fault without a hint, if the condition holds. -/
def fault (condition : Bool) (field message : String) : List Diagnostic :=
  if condition then [⟨field, message, none⟩] else []

/-- A fault with a hint, if the condition holds. -/
def hinted (condition : Bool) (field message hint : String) : List Diagnostic :=
  if condition then [⟨field, message, some hint⟩] else []

end Diagnostic

open Diagnostic

/-- The faults of one rule; `field` says where the rule stands. -/
def MarkerRule.faults (field : String) (rule : MarkerRule) : List Diagnostic :=
  fault (rule.kind == .markup) (field ++ ".kind") "inline rules must be `style` or `script`" ++
    fault rule.marker.isEmpty (field ++ ".marker") "marker must not be empty" ++
    fault rule.path.isEmpty (field ++ ".path") "path must not be empty"

/-- The faults of a row of rules, counted from `index`. -/
def MarkerRule.allFaults (field : String) : (index : Nat) → List MarkerRule → List Diagnostic
  | _, [] => []
  | index, rule :: rules =>
    rule.faults s!"{field}.inline[{index}]" ++ allFaults field (index + 1) rules

namespace Bundle

/-- What the strategy of a bundle needs and does not find. -/
def strategyFaults (field : String) (bundle : Bundle) : List Diagnostic :=
  match bundle.strategy with
  | .markers =>
    hinted bundle.template.isNone (field ++ ".template") "markers strategy requires a template"
        "set `template = \"index.html\"`" ++
      hinted bundle.rules.isEmpty (field ++ ".inline")
        "markers strategy requires at least one [[bundle.inline]] rule"
        "add a rule with `kind`, `marker` and `path`" ++
      MarkerRule.allFaults field 0 bundle.rules
  | .skeleton =>
    hinted bundle.script.isNone (field ++ ".script") "skeleton strategy requires a primary script"
      "set `script = \"lxclua.js\"`"

/-- The faults of one bundle, apart from the names of others; `field` says where the bundle stands. -/
def faults (field : String) (bundle : Bundle) : List Diagnostic :=
  fault (Text.allBlank bundle.name.toList) (field ++ ".name") "bundle name must not be empty" ++
    fault bundle.output.isEmpty (field ++ ".output") "output path must not be empty" ++
    bundle.strategyFaults field

/-- The faults of a row of bundles, counted from `index`, behind others whose names are `seen`. -/
def allFaults : (seen : List String) → (index : Nat) → List Bundle → List Diagnostic
  | _, _, [] => []
  | seen, index, bundle :: bundles =>
    let field := s!"bundle[{index}]"
    bundle.faults field ++
      fault (!bundle.name.isEmpty && seen.contains bundle.name) (field ++ ".name")
        s!"duplicate bundle name `{bundle.name}`" ++
      allFaults (bundle.name :: seen) (index + 1) bundles

end Bundle

/-- What stops a configuration from being used. -/
inductive ConfigError where
  | unreadable (path : Path) (cause : Cause)
  /-- The file is no TOML document, or not one of a configuration. -/
  | malformed
  | noBundles
  | faulty (diagnostics : List Diagnostic)
  deriving Repr, DecidableEq

namespace ConfigError

def message : ConfigError → String
  | unreadable path _ => s!"IO error when reading `{path}`"
  | malformed => "Config file parsing error"
  | noBundles => "Config validation error: no bundles defined"
  | faulty diagnostics => Diagnostic.report diagnostics

def cause? : ConfigError → Option Cause
  | unreadable _ cause => some cause
  | _ => none

/-- The error and what caused it. -/
def chain (error : ConfigError) : List String :=
  error.message :: (error.cause?.map Cause.message).toList

end ConfigError

namespace Config

/-- All faults of a configuration that has bundles. -/
def faults (config : Config) : List Diagnostic :=
  Bundle.allFaults [] 0 config.bundles

/-- A configuration can be used if it has bundles and no faults. -/
def validate (config : Config) : Except ConfigError Unit :=
  if config.bundles.isEmpty then .error .noBundles
  else if config.faults.isEmpty then .ok ()
  else .error (.faulty config.faults)

end Config

end PageInliner
