import PageInliner.Console.Event
import PageInliner.Page.Embedding
import PageInliner.Text.Substitution

/-!
Pages made from a template: each marker in it gives way to an asset in its element. All markers are
replaced in one pass, so nothing that was put in is taken for a marker.
-/

set_option autoImplicit false

namespace PageInliner.Page

/-- A marker and the asset that takes its place. -/
structure Inlining where
  marker : String
  asset : Asset
  deriving Repr, DecidableEq

/-- The marker occurs in the template. -/
def Inlining.isPresent (template : Asset) (inlining : Inlining) : Bool :=
  Text.occurs inlining.marker.toList template.text.toList

/-- The block that takes the marker's place. -/
def Inlining.block (inlining : Inlining) : Except BuildError String := do
  return element inlining.asset.kind (← embeddable inlining.asset)

/-- The blocks for the markers of a template, in the order of the inlinings, with what there is to
report. A marker that does not occur ends the work if `strict`, and is skipped with a warning if not;
its asset is not looked at. -/
def markerBlocks (template : Asset) (strict : Bool) :
    List Inlining → Except BuildError (List (String × String)) × List Event
  | [] => (.ok [], [])
  | inlining :: rest =>
    if inlining.isPresent template then
      match inlining.block with
      | .error error => (.error error, [])
      | .ok block =>
        let (blocks, events) := markerBlocks template strict rest
        (blocks.map ((inlining.marker, block) :: ·), events)
    else if strict then (.error (.markerNotFound inlining.marker template.path), [])
    else
      let (blocks, events) := markerBlocks template strict rest
      (blocks, .markerSkipped inlining.marker template.path inlining.asset.path :: events)

/-- The template with every marker replaced by its block. -/
def fromTemplate (template : Asset) (inlinings : List Inlining) (strict : Bool) :
    Except BuildError String × List Event :=
  let (blocks, events) := markerBlocks template strict inlinings
  (blocks.map (Text.replaceAll template.text), events)

end PageInliner.Page
