import PageInliner.Page.Skeleton
import PageInliner.Proofs.Answer
import PageInliner.Proofs.Page.Closing
import PageInliner.Proofs.Page.Escaping
import PageInliner.Proofs.Text.Layout

/-!
# The built-in page and its contents

Each text stands in the built-in page as it was given, at its own places and between fixed pieces, even if
it holds the name of a place. With the title escaped and no asset closing its own element, the whole page
can be taken apart again: it determines everything that went into it.
-/

set_option autoImplicit false

namespace PageInliner.Page

open Text

namespace Skeleton

/-- What the built-in page has places for. -/
inductive Field where
  | title
  | style
  | script
  | app
  deriving Repr, DecidableEq

namespace Field

def name : Field → List Char
  | title => ['_', '_', 'T', 'I', 'T', 'L', 'E', '_', '_']
  | style => ['_', '_', 'S', 'T', 'Y', 'L', 'E', '_', '_']
  | script => ['_', '_', 'S', 'C', 'R', 'I', 'P', 'T', '_', '_']
  | app => ['_', '_', 'A', 'P', 'P', '_', '_']

def value (filling : Filling) : Field → List Char
  | title => filling.title.toList
  | style => filling.style.toList
  | script => filling.script.toList
  | app => filling.app.toList

def all : List Field := [title, style, script, app]

end Field

theorem bindings_eq_bindingsOf (filling : Filling) :
    ((bindings filling).map fun (key, value) => ⟨key.toList, value.toList⟩) =
      bindingsOf Field.name (Field.value filling) Field.all := by
  simp only [bindings, List.map_cons, List.map_nil, bindingsOf, Field.all, Field.value]
  repeat rw [String.toList_ofList]
  rfl

/-- The page has five places, and none of the names stands anywhere else in it. -/
theorem layout_page :
    layout Field.name Field.all page.toList =
      opening.toList.map .kept ++ .replaced .title ::
      (beforeStyle.toList.map .kept ++ .replaced .style ::
      (beforeHeading.toList.map .kept ++ .replaced .title ::
      (beforeScript.toList.map .kept ++ .replaced .script ::
      (beforeApp.toList.map .kept ++ .replaced .app :: closing.toList.map .kept)))) := by
  unfold page opening beforeStyle beforeHeading beforeScript beforeApp closing
  repeat rw [String.toList_append]
  repeat rw [String.toList_ofList]
  decide +kernel

/-- The texts stand in the page between its fixed pieces, whatever they are. -/
theorem toList_fill (filling : Filling) :
    (fill filling).toList =
      opening.toList ++ (filling.title.toList ++ (beforeStyle.toList ++ (filling.style.toList ++
        (beforeHeading.toList ++ (filling.title.toList ++ (beforeScript.toList ++
          (filling.script.toList ++ (beforeApp.toList ++ (filling.app.toList ++
            closing.toList))))))))) := by
  have shownKept : ∀ text : List Char,
      (text.map Piece.kept).flatMap (Piece.shown (Field.value filling)) = text := by
    intro text
    rw [List.flatMap_map]
    exact List.flatMap_singleton' text
  rw [fill, replaceAll, String.toList_ofList, bindings_eq_bindingsOf, replaceHits_eq_layout, layout_page]
  simp only [List.flatMap_append, List.flatMap_cons, shownKept, Piece.shown, Field.value]

theorem exists_beforeStyle : ∃ more, beforeStyle.toList = '<' :: more :=
  List.head?_eq_some_iff.mp (by decide +kernel)

theorem exists_beforeScript : ∃ more, beforeScript.toList = '<' :: more :=
  List.head?_eq_some_iff.mp (by decide +kernel)

/-- A piece closes an element by a tag on a line of its own, indented as all lines of the page are. -/
theorem closes_of_prefix {tag piece : String}
    (begins : ['\n', ' ', ' ', ' ', ' '] ++ closingTag tag <+: piece.toList) : Closes tag piece.toList := by
  obtain ⟨more, spelled⟩ := begins
  exact ⟨_, more, spelled.symm, List.cons_ne_nil _ _, by simp⟩

theorem closes_beforeHeading : Closes "style" beforeHeading.toList :=
  closes_of_prefix (by decide +kernel)

theorem closes_beforeApp : Closes "script" beforeApp.toList :=
  closes_of_prefix (by decide +kernel)

theorem closes_closing : Closes "script" closing.toList :=
  closes_of_prefix (by decide +kernel)

end Skeleton

open Skeleton

/-- A page is made exactly of contents whose assets can all be embedded. -/
theorem fromContents_eq_ok {contents : Contents} {html : String}
    (made : fromContents contents = .ok html) :
    ∃ style script app, embeddable contents.style = .ok style ∧
      embeddable contents.script = .ok script ∧ embeddable contents.app = .ok app ∧
      html = fill ⟨escaped contents.title, style, script, app⟩ := by
  unfold fromContents at made
  obtain ⟨style, styleForm, made⟩ := bind_eq_ok made
  obtain ⟨script, scriptForm, made⟩ := bind_eq_ok made
  obtain ⟨app, appForm, made⟩ := bind_eq_ok made
  cases made
  exact ⟨style, script, app, styleForm, scriptForm, appForm, rfl⟩

theorem embeddable_of_style {asset : Asset} {text : String} (styled : asset.kind = .style)
    (embedded : embeddable asset = .ok text) : text = asset.text := by
  simp only [embeddable, styled] at embedded
  split at embedded
  · cases embedded
  · cases embedded
    rfl

/-- The page determines its contents: the title, the stylesheet, and the script and the logic in the form
in which they are embedded. -/
theorem fromContents_injective {first second : Contents} {html : String}
    (firstStyled : first.style.kind = .style) (firstScripted : first.script.kind = .script)
    (firstRun : first.app.kind = .script) (secondStyled : second.style.kind = .style)
    (secondScripted : second.script.kind = .script) (secondRun : second.app.kind = .script)
    (firstMade : fromContents first = .ok html) (secondMade : fromContents second = .ok html) :
    first.title = second.title ∧ first.style.text = second.style.text ∧
      embeddable first.script = embeddable second.script ∧
      embeddable first.app = embeddable second.app := by
  obtain ⟨style, script, app, styleForm, scriptForm, appForm, rfl⟩ := fromContents_eq_ok firstMade
  obtain ⟨otherStyle, otherScript, otherApp, otherStyleForm, otherScriptForm, otherAppForm, same⟩ :=
    fromContents_eq_ok secondMade
  have pages := congrArg String.toList same
  rw [toList_fill, toList_fill, List.append_right_inj] at pages
  obtain ⟨_, opensStyle⟩ := exists_beforeStyle
  obtain ⟨_, opensScript⟩ := exists_beforeScript
  have closesStyle := closes_beforeHeading
  have closesScript := closes_beforeApp
  have closesApp := closes_closing
  generalize beforeStyle.toList = beforeStyle, beforeHeading.toList = beforeHeading,
    beforeScript.toList = beforeScript, beforeApp.toList = beforeApp, closing.toList = closing
    at pages opensStyle opensScript closesStyle closesScript closesApp
  -- From left to right: each text ends where the first tag behind it begins.
  obtain ⟨titles, pages⟩ := escaped_append_injective opensStyle pages
  obtain ⟨rfl, pages⟩ := embeddable_append_injective firstStyled secondStyled rfl
    styleForm otherStyleForm closesStyle pages
  obtain ⟨_, pages⟩ := escaped_append_injective opensScript pages
  obtain ⟨rfl, pages⟩ := embeddable_append_injective firstScripted secondScripted rfl
    scriptForm otherScriptForm closesScript pages
  rw [← List.append_nil closing] at pages
  obtain ⟨rfl, _⟩ := embeddable_append_injective firstRun secondRun rfl
    appForm otherAppForm closesApp pages
  refine ⟨titles, ?_, scriptForm.trans otherScriptForm.symm, appForm.trans otherAppForm.symm⟩
  rw [← embeddable_of_style firstStyled styleForm, ← embeddable_of_style secondStyled otherStyleForm]

/-- Two pages that are the same although their scripts were written differently. -/
theorem fromContents_injective_escaped_script :
    let first : Contents := ⟨"A & B", ⟨.style, ⟨"a.css"⟩, "p"⟩, ⟨.script, ⟨"a.js"⟩, "</script"⟩,
      ⟨.script, ⟨"b.js"⟩, ""⟩⟩
    let second : Contents := { first with script := ⟨.script, ⟨"c.js"⟩, "<\\/script"⟩ }
    let html := fill ⟨escaped "A & B", "p", "<\\/script", ""⟩
    fromContents first = .ok html ∧ fromContents second = .ok html ∧
      first.title = second.title ∧ first.style.text = second.style.text ∧
      embeddable first.script = embeddable second.script ∧
      embeddable first.app = embeddable second.app := by
  have scripted : ∀ path text, escapeScriptClose text.toList = "<\\/script".toList →
      embeddable ⟨.script, path, text⟩ = .ok "<\\/script" := by
    intro path text form
    simp only [embeddable]
    rw [form, String.ofList_toList]
  have rewritten : ∀ path, embeddable ⟨.script, path, "</script"⟩ = .ok "<\\/script" :=
    fun path => scripted path _ (by decide +kernel)
  have kept : ∀ path, embeddable ⟨.script, path, "<\\/script"⟩ = .ok "<\\/script" :=
    fun path => scripted path _ (by decide +kernel)
  intro first second html
  have firstMade : fromContents first = .ok html := by
    simp only [fromContents, first, rewritten]
    rfl
  have secondMade : fromContents second = .ok html := by
    simp only [fromContents, second, first, kept]
    rfl
  exact ⟨firstMade, secondMade,
    fromContents_injective rfl rfl rfl rfl rfl rfl firstMade secondMade⟩

end PageInliner.Page
