import PageInliner.Page.Markers
import PageInliner.Proofs.Text.Layout

/-!
# Templates and their markers

A page made from a template shows the layout of the template, with a block for each marker that is
replaced. Which rules come to be inlined can be told from the markers and the template alone: a marker
that occurs is not always replaced, since another one may stand at the same place or reach over it.
-/

set_option autoImplicit false

namespace PageInliner.Page

open Text

namespace Inlining

/-- The block of an inlining, or nothing if its asset cannot be embedded. -/
def shown (inlining : Inlining) : String :=
  inlining.block.toOption.getD ""

def key (inlining : Inlining) : List Char :=
  inlining.marker.toList

def value (inlining : Inlining) : List Char :=
  inlining.shown.toList

def binding (inlining : Inlining) : Binding :=
  ⟨inlining.key, inlining.value⟩

/-- The error with which an inlining ends the work, if it does. -/
def refusal? (template : Asset) (strict : Bool) (inlining : Inlining) : Option BuildError :=
  if inlining.isPresent template then
    match inlining.block with
    | .error error => some error
    | .ok _ => none
  else if strict then some (.markerNotFound inlining.marker template.path)
  else none

/-- The warning that an inlining is skipped. -/
def warning (template : Asset) (inlining : Inlining) : Event :=
  .markerSkipped inlining.marker template.path inlining.asset.path

theorem shown_of_block {inlining : Inlining} {block : String} (made : inlining.block = .ok block) :
    inlining.shown = block := by
  rw [shown, made]
  rfl

theorem block_eq_shown {template : Asset} {strict : Bool} {inlining : Inlining}
    (present : inlining.isPresent template = true) (accepted : inlining.refusal? template strict = none) :
    inlining.block = .ok inlining.shown := by
  cases made : inlining.block with
  | error error => simp [refusal?, present, made] at accepted
  | ok block => rw [shown_of_block made]

/-- An inlining that is not refused strictly has its place in the page in both modes. -/
theorem accepted_of_strict {template : Asset} {inlining : Inlining}
    (accepted : inlining.refusal? template true = none) :
    inlining.isPresent template = true ∧ inlining.refusal? template false = none := by
  cases found : inlining.isPresent template with
  | true => exact ⟨rfl, by simpa [refusal?, found] using accepted⟩
  | false => simp [refusal?, found] at accepted

end Inlining

/-- The inlinings whose markers occur in the template. -/
def present (template : Asset) (inlinings : List Inlining) : List Inlining :=
  inlinings.filter fun inlining => inlining.isPresent template

theorem present_cons_of_present {template : Asset} {inlining : Inlining}
    (found : inlining.isPresent template = true) (rest : List Inlining) :
    present template (inlining :: rest) = inlining :: present template rest :=
  List.filter_cons_of_pos found

theorem present_cons_of_absent {template : Asset} {inlining : Inlining}
    (missing : inlining.isPresent template = false) (rest : List Inlining) :
    present template (inlining :: rest) = present template rest :=
  List.filter_cons_of_neg (by simp [missing])

/-- What comes of the inlinings before the first that is refused, and its error if there is one. -/
theorem markerBlocks_eq (template : Asset) (strict : Bool) (inlinings : List Inlining) :
    markerBlocks template strict inlinings =
      (match inlinings.findSome? (Inlining.refusal? template strict) with
        | some error => .error error
        | none => .ok ((present template inlinings).map fun inlining => (inlining.marker, inlining.shown)),
      ((inlinings.takeWhile fun inlining => (inlining.refusal? template strict).isNone).filter
        fun inlining => !inlining.isPresent template).map (Inlining.warning template)) := by
  induction inlinings with
  | nil => rfl
  | cons inlining rest ih =>
    rw [markerBlocks]
    cases found : inlining.isPresent template with
    | true =>
      cases block : inlining.block with
      | error error =>
        have refused : inlining.refusal? template strict = some error := by
          simp [Inlining.refusal?, found, block]
        simp [refused]
      | ok text =>
        have accepted : inlining.refusal? template strict = none := by
          simp [Inlining.refusal?, found, block]
        rw [present_cons_of_present found, ih]
        simp only [↓reduceIte, List.findSome?_cons, accepted, Option.isNone_none, List.takeWhile_cons_of_pos,
          List.map_cons, Inlining.shown_of_block block]
        rw [List.filter_cons_of_neg (by simp [found])]
        cases rest.findSome? (Inlining.refusal? template strict) <;> rfl
    | false =>
      cases strict with
      | true =>
        have refused : inlining.refusal? template true = some (.markerNotFound inlining.marker template.path) := by
          simp [Inlining.refusal?, found]
        simp [refused]
      | false =>
        have accepted : inlining.refusal? template false = none := by
          simp [Inlining.refusal?, found]
        rw [present_cons_of_absent found, ih]
        simp [accepted, found, Inlining.warning]

section Answer

variable {template : Asset} {strict : Bool} {inlinings : List Inlining}

theorem fromTemplate_eq_error_iff {error : BuildError} :
    (fromTemplate template inlinings strict).1 = .error error ↔
      inlinings.findSome? (Inlining.refusal? template strict) = some error := by
  simp only [fromTemplate, markerBlocks_eq]
  cases inlinings.findSome? (Inlining.refusal? template strict) with
  | none => exact ⟨nofun, nofun⟩
  | some other => simp [Except.map]

theorem fromTemplate_eq_ok_iff {html : String} :
    (fromTemplate template inlinings strict).1 = .ok html ↔
      inlinings.findSome? (Inlining.refusal? template strict) = none ∧
        html = replaceAll template.text
          ((present template inlinings).map fun inlining => (inlining.marker, inlining.shown)) := by
  simp only [fromTemplate, markerBlocks_eq]
  cases inlinings.findSome? (Inlining.refusal? template strict) with
  | none => simp [Except.map, eq_comm]
  | some other => simp [Except.map]

end Answer

/-- A page is the layout of its template, with the block of an inlining for each marker replaced. If it was
made strictly, all inlinings take part in it. -/
theorem fromTemplate_eq_ok {template : Asset} {strict : Bool} {inlinings : List Inlining}
    {html : String} {events : List Event}
    (made : fromTemplate template inlinings strict = (.ok html, events)) :
    html.toList = (layout Inlining.key (present template inlinings) template.text.toList).flatMap
        (Piece.shown Inlining.value) ∧
      (∀ inlining ∈ present template inlinings, inlining.block = .ok inlining.shown) ∧
      (strict = true → present template inlinings = inlinings) := by
  obtain ⟨accepted, rfl⟩ := fromTemplate_eq_ok_iff.mp (congrArg Prod.fst made)
  rw [List.findSome?_eq_none_iff] at accepted
  refine ⟨?_, ?_, ?_⟩
  · rw [← replaceHits_eq_layout, replaceAll, String.toList_ofList, List.map_map]
    rfl
  · intro inlining member
    obtain ⟨among, found⟩ := List.mem_filter.mp member
    exact Inlining.block_eq_shown found (accepted inlining among)
  · rintro rfl
    rw [present, List.filter_eq_self]
    exact fun inlining member => (Inlining.accepted_of_strict (accepted inlining member)).1

/-- A strict page inlines a rule exactly where its marker is the first of all that stand at a place which no
other replaced marker reaches over. A marker that occurs only behind such a one, or only where the marker
of an earlier rule begins, is lost without an error; one that overlaps with no other marker is not. -/
theorem strict_inlined_iff {template : Asset} {inlinings : List Inlining} {html : String}
    {events : List Event} (proper : ∀ inlining ∈ inlinings, inlining.marker ≠ "")
    (made : fromTemplate template inlinings true = (.ok html, events)) :
    let text := template.text.toList
    let bindings := inlinings.map Inlining.binding
    let pieces := layout Binding.key bindings text
    html.toList = pieces.flatMap (Piece.shown Binding.value) ∧
      text = pieces.flatMap (Piece.source Binding.key) ∧
      (∀ inlining ∈ inlinings, inlining.block = .ok inlining.shown) ∧
      (∀ inlining ∈ inlinings, .replaced inlining.binding ∈ pieces ↔
        ∃ place, ¬ Covered Binding.key bindings text place ∧
          standing? Binding.key bindings (text.drop place) = some inlining.binding) ∧
      (∀ place, Covered Binding.key bindings text place ↔
        ∃ start binding, start < place ∧ place < start + binding.key.length ∧
          ¬ Covered Binding.key bindings text start ∧
          standing? Binding.key bindings (text.drop start) = some binding) ∧
      ∀ inlining ∈ inlinings,
        (∀ other ∈ inlinings, other.binding ≠ inlining.binding →
          ¬ Overlap text inlining.key other.key) →
        .replaced inlining.binding ∈ pieces := by
  intro text bindings pieces
  obtain ⟨shown, blocks, whole⟩ := fromTemplate_eq_ok made
  rw [whole rfl] at shown blocks
  have sameBindings : bindingsOf Inlining.key Inlining.value inlinings =
      bindingsOf Binding.key Binding.value bindings := by
    simp only [bindingsOf, bindings, List.map_map]
    rfl
  rw [← replaceHits_eq_layout, sameBindings, replaceHits_eq_layout] at shown
  refine ⟨shown, (layout_source Binding.key bindings text).symm, blocks,
    fun inlining _ => replaced_mem_layout_iff, fun place => covered_iff, ?_⟩
  intro inlining among apart
  have occurs : inlining.isPresent template = true := by
    have presentAmong : inlining ∈ present template inlinings := by rw [whole rfl]; exact among
    exact (List.mem_filter.mp presentAmong).2
  obtain ⟨before, after, spelled⟩ := occurs_iff.mp occurs
  have stands : inlining.binding.key <+: text.drop before.length := by
    refine ⟨after, ?_⟩
    rw [show text = before ++ (inlining.marker.toList ++ after) by
      rw [← List.append_assoc]; exact spelled, List.drop_left]
    rfl
  have nonempty : inlining.binding.key ≠ [] := by
    intro empty
    exact proper inlining among (String.toList_eq_nil_iff.mp empty)
  refine replaced_mem_layout_of_apart (List.mem_map_of_mem among) nonempty stands ?_
  intro other otherAmong different
  obtain ⟨otherInlining, member, rfl⟩ := List.mem_map.mp otherAmong
  exact apart otherInlining member different

/-- Two rules whose markers overlap: the second one is lost, although its marker occurs. -/
theorem strict_inlined_iff_overlapping :
    let template : Asset := ⟨.markup, ⟨"t.html"⟩, "ab a"⟩
    let short : Inlining := ⟨"a", ⟨.style, ⟨"a.css"⟩, "p"⟩⟩
    let long : Inlining := ⟨"ab", ⟨.script, ⟨"b.js"⟩, "go()"⟩⟩
    let pieces := layout Binding.key [short.binding, long.binding] template.text.toList
    ∃ html, fromTemplate template [short, long] true = (.ok html, []) ∧
      html.toList = short.value ++ 'b' :: ' ' :: short.value ∧ .replaced long.binding ∉ pieces := by
  intro template short long pieces
  have shortFound : short.isPresent template = true := by decide +kernel
  have longFound : long.isPresent template = true := by decide +kernel
  have clean : containsFolded styleClose "p".toList = false := by decide +kernel
  have shortBlock : short.block = .ok (element .style "p") := by
    simp only [Inlining.block, embeddable, short, clean]
    rfl
  have longBlock : long.block = .ok (element .script (.ofList (escapeScriptClose "go()".toList))) := rfl
  obtain ⟨html, made⟩ : ∃ html, fromTemplate template [short, long] true = (.ok html, []) := by
    simp only [fromTemplate, markerBlocks, shortFound, longFound, shortBlock, longBlock]
    exact ⟨_, rfl⟩
  have shortKey : short.binding = ⟨['a'], short.value⟩ := by
    rw [Inlining.binding, Inlining.key, String.toList_ofList]
  have longKey : long.binding = ⟨['a', 'b'], long.value⟩ := by
    rw [Inlining.binding, Inlining.key, String.toList_ofList]
  have laidOut : pieces =
      [.replaced short.binding, .kept 'b', .kept ' ', .replaced short.binding] := by
    simp only [pieces, template]
    rw [shortKey, longKey, String.toList_ofList]
    rfl
  obtain ⟨shown, _⟩ := strict_inlined_iff (by decide) made
  refine ⟨html, made, ?_, ?_⟩
  · rw [shown]
    change pieces.flatMap (Piece.shown Binding.value) = _
    rw [laidOut, shortKey]
    simp [Piece.shown]
  · rw [laidOut, shortKey, longKey]
    simp

end PageInliner.Page
