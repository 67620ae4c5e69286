import PageInliner.Build.Failure
import PageInliner.Minify
import PageInliner.Page.Markers
import PageInliner.Page.Skeleton

/-!
Pages put together from the inputs of a bundle. The inputs come in the order the bundle names them, and
by that order each finds its place: markers bundles have the template first and then one input for each
rule, skeleton bundles whatever there is of style, script and app.
-/

set_option autoImplicit false

namespace PageInliner

namespace Asset

/-- The stylesheet of a page that was given none. -/
def builtInStyle : Asset :=
  ⟨.style, ⟨"<built-in style>"⟩, Page.Skeleton.builtInStyle⟩

/-- The logic of a page that was given none. -/
def builtInApp : Asset :=
  ⟨.script, ⟨"<built-in app>"⟩, Page.Skeleton.builtInApp⟩

/-- The asset with the text that goes into the page: the short form if it is to be minified. -/
def prepared (minify : Bool) (asset : Asset) : Asset :=
  if minify then { asset with text := Minify.shortForm asset.kind asset.text } else asset

/-- What there is to report of the preparation of assets. Markup is not worth a word. -/
def preparation (minify : Bool) (assets : List Asset) : List Event :=
  if minify then
    (assets.filter (·.kind != .markup)).map fun asset =>
      .minified asset.path asset.text.utf8ByteSize (asset.prepared true).text.utf8ByteSize
  else []

end Asset

namespace Bundle

/-- The rules of a bundle with the inputs that belong to them. -/
def inlinings (bundle : Bundle) (minify : Bool) (inputs : List Asset) : List Page.Inlining :=
  List.zipWith (fun rule input => ⟨rule.marker, input.prepared minify⟩) bundle.rules inputs

/-- The page of a markers bundle: its inputs are the template and then one file for each rule. -/
def assembleMarkers (bundle : Bundle) (strict minify : Bool) (inputs : List Asset) :
    Except Failure String × List Event :=
  match inputs with
  | [] => (.error (.noTemplate bundle.name), [])
  | template :: inputs =>
    let (html, events) := Page.fromTemplate template (bundle.inlinings minify inputs) strict
    (html.mapError .bundle, events)

/-- What the page of a skeleton bundle is made of: its inputs are style, script and app, of which the
script must be there; the others have built-in stand-ins. -/
def contents (bundle : Bundle) (minify : Bool) (inputs : List Asset) :
    Except Failure Page.Contents :=
  let (style, inputs) :=
    if bundle.style.isSome then (inputs.head?, inputs.tail) else (none, inputs)
  let (script, inputs) :=
    if bundle.script.isSome then (inputs.head?, inputs.tail) else (none, inputs)
  let app := if bundle.app.isSome then inputs.head? else none
  match script with
  | none => .error (.noScript bundle.name)
  | some script => .ok
    { title := bundle.title.getD Page.Skeleton.defaultTitle
      style := (style.getD .builtInStyle).prepared minify
      script := script.prepared minify
      app := (app.getD .builtInApp).prepared minify }

/-- The page of a skeleton bundle. -/
def assembleSkeleton (bundle : Bundle) (minify : Bool) (inputs : List Asset) :
    Except Failure String := do
  (Page.fromContents (← bundle.contents minify inputs)).mapError .bundle

/-- The page of a bundle, made of the inputs that were read for it. The built-in assets of a skeleton
bundle are prepared even if they are not needed. -/
def assemble (bundle : Bundle) (strict minify : Bool) (inputs : List Asset) :
    Except Failure String × List Event :=
  let prepared := Asset.preparation minify inputs
  match bundle.strategy with
  | .markers =>
    let (html, events) := bundle.assembleMarkers strict minify inputs
    (html, prepared ++ events)
  | .skeleton =>
    let builtIn := Asset.preparation minify [.builtInStyle, .builtInApp]
    (bundle.assembleSkeleton minify inputs, prepared ++ builtIn)

end Bundle

end PageInliner
