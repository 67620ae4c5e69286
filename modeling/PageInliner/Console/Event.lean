import PageInliner.Asset

/-!
What the program reports while it works. A report is a value; how it looks on a terminal is decided
where it is shown.
-/

set_option autoImplicit false

namespace PageInliner

/-- Something worth reporting. -/
inductive Event where
  | configUsed (path : Path)
  /-- There is no configuration file of that name. -/
  | configMissing (name : String)
  | unknownFields (file : String) (fields : List String)
  | bundleStarted (name : String) (directory : Path)
  | loaded (kind : Asset.Kind) (path : Path) (bytes : Nat)
  | minified (path : Path) (before after : Nat)
  | markerSkipped (marker : String) (template asset : Path)
  | wrote (path : Path)
  | sized (bytes : Nat)
  | builtAll (count : Nat)
  /-- Where the listed bundles come from. -/
  | listingFrom (config : Option Path)
  /-- One line of a listing. -/
  | listed (name strategy : String) (inputs : List Path) (output : Path)
  deriving Repr, DecidableEq

/-- The event matters only to someone who follows the work closely. -/
def Event.isDetail : Event → Bool
  | .configUsed .. | .configMissing .. | .bundleStarted .. | .loaded .. | .minified .. => true
  | _ => false

end PageInliner
