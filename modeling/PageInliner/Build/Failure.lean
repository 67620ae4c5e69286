import PageInliner.BuildError
import PageInliner.Config.Selection
import PageInliner.Config.Validation

/-!
What ends a run of the program before its time, told as a chain of sentences: the failure first, then
what caused it.
-/

set_option autoImplicit false

namespace PageInliner

/-- What ends a run of the program. -/
inductive Failure where
  | noWorkingDirectory (cause : Cause)
  | config (error : ConfigError)
  | bundle (error : BuildError)
  | unknownBundle (unknown : UnknownBundle)
  | noTemplate (bundle : String)
  | noScript (bundle : String)
  /-- A failure while the named bundle was built. -/
  | building (bundle : String) (failure : Failure)
  deriving Repr, DecidableEq

namespace Failure

/-- The failure and what caused it, each in a sentence. -/
def chain : Failure → List String
  | noWorkingDirectory cause => ["Failed to get current working directory", cause.message]
  | config error => error.chain
  | bundle error => error.chain
  | unknownBundle unknown => [unknown.message]
  | noTemplate name => [s!"bundle `{name}` has no template"]
  | noScript name => [s!"bundle `{name}` has no script"]
  | building name failure => s!"failed to build bundle `{name}`" :: failure.chain

end Failure

end PageInliner
