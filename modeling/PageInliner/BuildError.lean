import PageInliner.Files.Cause
import PageInliner.Path

/-!
What can go wrong while a bundle is read, composed and written. An error is told as a chain of sentences,
the error itself first and what caused it behind it.
-/

set_option autoImplicit false

namespace PageInliner

/-- What stops a bundle from being built. -/
inductive BuildError where
  | missingInput (path : Path)
  /-- An input that is no UTF-8 text. -/
  | encoding (path : Path)
  | unreadable (path : Path) (cause : Cause)
  | unwritable (path : Path) (cause : Cause)
  | markerNotFound (marker : String) (template : Path)
  /-- A text holds the end of the very block it would be embedded in. -/
  | endsOwnBlock (path : Path) (tag : String)
  deriving Repr, DecidableEq

namespace BuildError

/-- A file that is not there and a file that is no text have errors of their own; any other cause is
passed on. -/
def ofRead (path : Path) : Cause → BuildError
  | .notFound | .missing _ => missingInput path
  | .invalidText => encoding path
  | cause => unreadable path cause

def message : BuildError → String
  | missingInput path => s!"input file `{path}` not found"
  | encoding path => s!"input file `{path}` is not valid UTF-8"
  | unreadable path _ => s!"failed to read `{path}`"
  | unwritable path _ => s!"failed to write `{path}`"
  | markerNotFound marker template => s!"marker `{marker}` not found in template `{template}`"
  | endsOwnBlock path tag => s!"`{path}` contains `{tag}` and would end its own inline block"

def cause? : BuildError → Option Cause
  | unreadable _ cause | unwritable _ cause => some cause
  | _ => none

/-- The error and what caused it. -/
def chain (error : BuildError) : List String :=
  error.message :: (error.cause?.map Cause.message).toList

end BuildError

end PageInliner
