import PageInliner.Proofs.Page.Closing
import PageInliner.Proofs.Page.Markers
import PageInliner.Proofs.Page.Skeleton

/-!
# The parts of a page

A page is a row of parts: what it has of its own, and the texts of assets inside of elements. A row is
sealed if every such text is in a form that can be embedded and is followed by a part of the page that closes
the element. In a sealed row the first closing tag from the start of a text on is the one of the page. The
pages of both strategies are sealed, whatever was put into them.
-/

set_option autoImplicit false

namespace PageInliner.Page

open Text Skeleton

/-- The text of an asset as it is embedded, or nothing if it cannot be. -/
def embedding (asset : Asset) : List Char :=
  ((embeddable asset).toOption.getD "").toList

theorem embedding_of_embeddable {asset : Asset} {text : String} (embedded : embeddable asset = .ok text) :
    embedding asset = text.toList := by
  rw [embedding, embedded]
  rfl

/-- A part of a page. -/
inductive Part where
  /-- What the page has of its own. -/
  | frame (text : List Char)
  /-- The text of an asset inside of the element with a tag. -/
  | embedded (tag : String) (asset : Asset)

def Part.text : Part → List Char
  | frame text => text
  | embedded _ asset => embedding asset

/-- The text of a row of parts. -/
def spelling (parts : List Part) : List Char :=
  parts.flatMap Part.text

@[simp]
theorem spelling_nil : spelling [] = [] := rfl

@[simp]
theorem spelling_cons (part : Part) (parts : List Part) :
    spelling (part :: parts) = part.text ++ spelling parts := rfl

@[simp]
theorem spelling_append (first second : List Part) :
    spelling (first ++ second) = spelling first ++ spelling second :=
  List.flatMap_append

theorem spelling_flatMap {α : Type} (items : List α) (parts : α → List Part) :
    spelling (items.flatMap parts) = items.flatMap fun item => spelling (parts item) :=
  List.flatMap_assoc

/-- Every embedded text is followed by a part of the page that closes its element. -/
inductive Sealed : List Part → Prop where
  | nil : Sealed []
  | frame (text : List Char) {parts : List Part} : Sealed parts → Sealed (.frame text :: parts)
  | embedded {asset : Asset} {tag text : String} {closing : List Char} {parts : List Part} :
      asset.kind.tag? = some tag → embeddable asset = .ok text → Closes tag closing →
      Sealed parts → Sealed (.embedded tag asset :: .frame closing :: parts)

namespace Sealed

theorem append {first second : List Part} (front : Sealed first) (back : Sealed second) :
    Sealed (first ++ second) := by
  induction front with
  | nil => exact back
  | frame text _ ih => exact .frame text ih
  | embedded tagged embeds closes _ ih => exact .embedded tagged embeds closes ih

theorem flatMap {α : Type} {items : List α} {parts : α → List Part}
    (each : ∀ item ∈ items, Sealed (parts item)) : Sealed (items.flatMap parts) := by
  induction items with
  | nil => exact .nil
  | cons item items ih =>
    rw [List.forall_mem_cons] at each
    exact each.1.append (ih each.2)

theorem embedded_inv {parts before after : List Part} {tag : String} {asset : Asset}
    (closed : Sealed parts) (split : parts = before ++ .embedded tag asset :: after) :
    ∃ text closing rest, asset.kind.tag? = some tag ∧ embeddable asset = .ok text ∧
      Closes tag closing ∧ after = .frame closing :: rest := by
  induction closed generalizing before with
  | nil => simp at split
  | frame text _ ih =>
    cases before with
    | nil => cases split
    | cons first before => exact ih (List.cons.inj split).2
  | @embedded other _ text closing parts tagged embeds closes _ ih =>
    cases before with
    | nil =>
      cases split
      exact ⟨text, closing, parts, tagged, embeds, closes, rfl⟩
    | cons first before =>
      cases before with
      | nil => cases (List.cons.inj split).2
      | cons second before => exact ih (List.cons.inj (List.cons.inj split).2).2

end Sealed

/-- From the start of every embedded text on, the first closing tag of its element is the one in the part
behind the text, after a line break. -/
def ClosedByPage (parts : List Part) : Prop :=
  ∀ before tag asset behind, parts = before ++ .embedded tag asset :: behind →
    ∃ text gap more rest, asset.kind.tag? = some tag ∧ embeddable asset = .ok text ∧
      behind = .frame (gap ++ closingTag tag ++ more) :: rest ∧
      gap ≠ [] ∧ (∀ c ∈ gap, c = '\n' ∨ c = ' ') ∧
      text.toList <+: (spelling parts).drop (spelling before).length ∧
      FirstAt (closingTag tag) ((spelling parts).drop (spelling before).length)
        (text.toList.length + gap.length)

theorem Sealed.closedByPage {parts : List Part} (closed : Sealed parts) : ClosedByPage parts := by
  intro before tag asset behind split
  obtain ⟨text, _, rest, tagged, embeds, ⟨gap, more, rfl, apart, blank⟩, rfl⟩ :=
    closed.embedded_inv split
  have page : (spelling parts).drop (spelling before).length =
      text.toList ++ gap ++ closingTag tag ++ (more ++ spelling rest) := by
    rw [split, spelling_append, List.drop_left]
    simp only [spelling_cons, Part.text, embedding_of_embeddable embeds, List.append_assoc]
  refine ⟨text, gap, more, rest, tagged, embeds, rfl, apart, blank, ?_, ?_⟩
  · rw [page, List.append_assoc, List.append_assoc]
    exact List.prefix_append _ _
  · rw [page]
    exact firstAt_closingTag tagged embeds apart blank _

def Inlining.parts (inlining : Inlining) : List Part :=
  match inlining.asset.kind.tag? with
  | none => [.frame (embedding inlining.asset)]
  | some tag =>
    [.frame ('<' :: tag.toList ++ ['>', '\n']), .embedded tag inlining.asset,
      .frame ('\n' :: closingTag tag ++ ['>'])]

theorem Inlining.block_eq_ok {inlining : Inlining} {block : String}
    (made : inlining.block = .ok block) :
    ∃ text, embeddable inlining.asset = .ok text ∧ block = element inlining.asset.kind text := by
  unfold Inlining.block at made
  obtain ⟨text, embeds, made⟩ := bind_eq_ok made
  cases made
  exact ⟨text, embeds, rfl⟩

theorem Inlining.spelling_parts {inlining : Inlining} (made : inlining.block = .ok inlining.shown) :
    spelling inlining.parts = inlining.value := by
  obtain ⟨text, embeds, block⟩ := Inlining.block_eq_ok made
  rw [Inlining.value, block, Inlining.parts, element]
  cases inlining.asset.kind.tag? with
  | none => simp [Part.text, embedding_of_embeddable embeds]
  | some tag => simp [Part.text, embedding_of_embeddable embeds, closingTag]

theorem Inlining.sealed_parts {inlining : Inlining} (made : inlining.block = .ok inlining.shown) :
    Sealed inlining.parts := by
  obtain ⟨text, embeds, _⟩ := Inlining.block_eq_ok made
  unfold Inlining.parts
  split
  case h_1 => exact .frame _ .nil
  case h_2 tag tagged =>
    have closes : Closes tag ('\n' :: closingTag tag ++ ['>']) :=
      ⟨['\n'], ['>'], rfl, List.cons_ne_nil _ _, by simp⟩
    exact .frame _ (.embedded tagged embeds closes .nil)

def pieceParts : Piece Inlining → List Part
  | .kept c => [.frame [c]]
  | .replaced inlining => inlining.parts

def templateParts (template : Asset) (inlinings : List Inlining) : List Part :=
  (layout Inlining.key (present template inlinings) template.text.toList).flatMap pieceParts

theorem mem_of_embedded_mem_templateParts {template asset : Asset} {inlinings : List Inlining}
    {tag : String} (member : .embedded tag asset ∈ templateParts template inlinings) :
    ∃ inlining ∈ inlinings, inlining.asset = asset := by
  obtain ⟨piece, laidOut, within⟩ := List.mem_flatMap.mp member
  cases piece with
  | kept c => simp [pieceParts] at within
  | replaced inlining =>
    obtain ⟨among, _⟩ := mem_of_replaced_mem_layout laidOut
    refine ⟨inlining, (List.mem_filter.mp among).1, ?_⟩
    simp only [pieceParts, Inlining.parts] at within
    split at within
    · simp at within
    · simp only [List.mem_cons, reduceCtorEq, Part.embedded.injEq, List.not_mem_nil, or_false,
        false_or] at within
      exact within.2.symm

/-- A page made from a template is the row of its parts, and it is sealed. -/
theorem fromTemplate_parts {template : Asset} {inlinings : List Inlining} {strict : Bool} {html : String}
    {events : List Event} (made : fromTemplate template inlinings strict = (.ok html, events)) :
    html.toList = spelling (templateParts template inlinings) ∧
      Sealed (templateParts template inlinings) := by
  obtain ⟨shown, blocks, _⟩ := fromTemplate_eq_ok made
  have block : ∀ inlining,
      .replaced inlining ∈ layout Inlining.key (present template inlinings) template.text.toList →
      inlining.block = .ok inlining.shown :=
    fun inlining replaced => blocks inlining (mem_of_replaced_mem_layout replaced).1
  constructor
  · rw [shown, templateParts, spelling_flatMap]
    rw [List.flatMap_def, List.flatMap_def]
    refine congrArg List.flatten (List.map_congr_left fun piece member => ?_)
    cases piece with
    | kept c => rfl
    | replaced inlining => exact (Inlining.spelling_parts (block inlining member)).symm
  · refine Sealed.flatMap fun piece member => ?_
    cases piece with
    | kept c => exact .frame _ .nil
    | replaced inlining => exact Inlining.sealed_parts (block inlining member)

def Contents.parts (contents : Contents) : List Part :=
  [.frame opening.toList, .frame (escaped contents.title).toList, .frame beforeStyle.toList,
    .embedded "style" contents.style, .frame beforeHeading.toList,
    .frame (escaped contents.title).toList, .frame beforeScript.toList,
    .embedded "script" contents.script, .frame beforeApp.toList,
    .embedded "script" contents.app, .frame closing.toList]

/-- A built-in page is the row of its parts, and it is sealed. -/
theorem fromContents_parts {contents : Contents} {html : String} (styled : contents.style.kind = .style)
    (scripted : contents.script.kind = .script) (run : contents.app.kind = .script)
    (made : fromContents contents = .ok html) :
    html.toList = spelling contents.parts ∧ Sealed contents.parts := by
  obtain ⟨style, script, app, styleForm, scriptForm, appForm, rfl⟩ := fromContents_eq_ok made
  constructor
  · rw [toList_fill]
    simp [Contents.parts, Part.text, embedding_of_embeddable styleForm,
      embedding_of_embeddable scriptForm, embedding_of_embeddable appForm]
  · have styleTag : contents.style.kind.tag? = some "style" := by rw [styled]; rfl
    have scriptTag : contents.script.kind.tag? = some "script" := by rw [scripted]; rfl
    have appTag : contents.app.kind.tag? = some "script" := by rw [run]; rfl
    unfold Contents.parts
    iterate 3 apply Sealed.frame
    apply Sealed.embedded styleTag styleForm closes_beforeHeading
    iterate 2 apply Sealed.frame
    apply Sealed.embedded scriptTag scriptForm closes_beforeApp
    exact .embedded appTag appForm closes_closing .nil

end PageInliner.Page
