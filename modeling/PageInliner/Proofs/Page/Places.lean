import Mathlib.Algebra.Ring.Nat
import PageInliner.Proofs.Page.Skeleton

/-!
# The places of the built-in page

The built-in page is six fixed pieces with the name of a place between any two of them. To fill it is to put
the texts where the names are, so each text stands between the same two pieces as its name, whatever is in it
and whatever comes about where it meets the page.
-/

set_option autoImplicit false

namespace PageInliner.Page

open Text

namespace Skeleton

/-- What stays of the page, in its order. -/
def pieces : List String :=
  [opening, beforeStyle, beforeHeading, beforeScript, beforeApp, closing]

/-- The places between the pieces. -/
def places : List Field :=
  [.title, .style, .title, .script, .app]

/-- A piece, a text, the next piece and so on, as long as there are texts. -/
def interleave : (pieces texts : List String) → String
  | [], _ => ""
  | piece :: _, [] => piece
  | piece :: pieces, text :: texts => piece ++ (text ++ interleave pieces texts)

theorem utf8ByteSize_interleave {pieces texts : List String} (around : pieces.length = texts.length + 1) :
    (interleave pieces texts).utf8ByteSize =
      (pieces.map String.utf8ByteSize).sum + (texts.map String.utf8ByteSize).sum := by
  induction texts generalizing pieces with
  | nil =>
    obtain ⟨piece, rfl⟩ := List.length_eq_one_iff.mp around
    simp [interleave]
  | cons text texts ih =>
    cases pieces with
    | nil => cases around
    | cons piece pieces =>
      have rest := ih (Nat.succ.inj around)
      simp only [interleave, String.utf8ByteSize_append, List.map_cons, List.sum_cons, rest]
      omega

theorem fill_eq_interleave (filling : Filling) :
    fill filling = interleave pieces
      [filling.title, filling.style, filling.title, filling.script, filling.app] := by
  rw [← String.toList_inj, toList_fill]
  simp only [pieces, interleave, String.toList_append]

theorem page_eq_interleave :
    page = interleave pieces (places.map fun field => String.ofList field.name) := by
  rw [← String.toList_inj]
  simp only [page, pieces, places, List.map_cons, List.map_nil, interleave, String.toList_append,
    List.append_assoc]
  rfl

/-- No piece holds the name of a place. -/
theorem not_occurs_of_mem_pieces {piece : String} (among : piece ∈ pieces) (field : Field) :
    occurs field.name piece.toList = false := by
  have checked : ∀ piece ∈ pieces, (Field.all.any fun field => occurs field.name piece.toList) = false := by
    unfold pieces opening beforeStyle beforeHeading beforeScript beforeApp closing
    simp only [List.forall_mem_cons, List.not_mem_nil, false_imp_iff, implies_true, and_true]
    repeat rw [String.toList_append]
    repeat rw [String.toList_ofList]
    decide +kernel
  have all : field ∈ Field.all := by cases field <;> decide
  exact Bool.eq_false_iff.mpr (List.any_eq_false.mp (checked piece among) field all)

private theorem prefix_drop_of_eq {whole before text after : List Char}
    (split : whole = before ++ (text ++ after)) : text <+: whole.drop before.length := by
  rw [split, List.drop_left]
  exact List.prefix_append text after

/-- The style stands before the script, and the script before the logic. -/
theorem exists_places_in_order (filling : Filling) :
    ∃ styleAt scriptAt appAt,
      filling.style.toList <+: (fill filling).toList.drop styleAt ∧
      filling.script.toList <+: (fill filling).toList.drop scriptAt ∧
      filling.app.toList <+: (fill filling).toList.drop appAt ∧
      styleAt + filling.style.length ≤ scriptAt ∧ scriptAt + filling.script.length ≤ appAt := by
  let untilStyle := opening.toList ++ filling.title.toList ++ beforeStyle.toList
  let untilScript := untilStyle ++ filling.style.toList ++ beforeHeading.toList ++ filling.title.toList ++
    beforeScript.toList
  let untilApp := untilScript ++ filling.script.toList ++ beforeApp.toList
  let afterScript := beforeApp.toList ++ filling.app.toList ++ closing.toList
  let afterStyle := beforeHeading.toList ++ filling.title.toList ++ beforeScript.toList ++
    filling.script.toList ++ afterScript
  have style : (fill filling).toList = untilStyle ++ (filling.style.toList ++ afterStyle) := by
    simp only [toList_fill, untilStyle, afterStyle, afterScript, List.append_assoc]
  have script : (fill filling).toList = untilScript ++ (filling.script.toList ++ afterScript) := by
    simp only [toList_fill, untilScript, untilStyle, afterScript, List.append_assoc]
  have app : (fill filling).toList = untilApp ++ (filling.app.toList ++ closing.toList) := by
    simp only [toList_fill, untilApp, untilScript, untilStyle, List.append_assoc]
  refine ⟨untilStyle.length, untilScript.length, untilApp.length, prefix_drop_of_eq style,
    prefix_drop_of_eq script, prefix_drop_of_eq app, ?_, ?_⟩
  · simp only [untilScript, List.length_append, String.length_toList]
    omega
  · simp only [untilApp, List.length_append, String.length_toList]
    omega

/-- The page is its pieces with the names of the places between them, and no piece holds a name. The filled page
is the same pieces with title, style, title, script and logic between them, each text unchanged, so its size is
that of the pieces and the texts, and style, script and logic follow each other. -/
theorem fill_interleaved (filling : Filling) :
    page = interleave pieces (places.map fun field => String.ofList field.name) ∧
      (∀ piece ∈ pieces, ∀ field : Field, occurs field.name piece.toList = false) ∧
      fill filling = interleave pieces
        [filling.title, filling.style, filling.title, filling.script, filling.app] ∧
      (fill filling).utf8ByteSize = (pieces.map String.utf8ByteSize).sum +
        (2 * filling.title.utf8ByteSize + filling.style.utf8ByteSize + filling.script.utf8ByteSize +
          filling.app.utf8ByteSize) ∧
      ∃ styleAt scriptAt appAt,
        filling.style.toList <+: (fill filling).toList.drop styleAt ∧
        filling.script.toList <+: (fill filling).toList.drop scriptAt ∧
        filling.app.toList <+: (fill filling).toList.drop appAt ∧
        styleAt + filling.style.length ≤ scriptAt ∧ scriptAt + filling.script.length ≤ appAt := by
  refine ⟨page_eq_interleave, fun piece among => not_occurs_of_mem_pieces among,
    fill_eq_interleave filling, ?_, exists_places_in_order filling⟩
  rw [fill_eq_interleave, utf8ByteSize_interleave rfl]
  simp only [List.map_cons, List.map_nil, List.sum_cons, List.sum_nil]
  omega

end Skeleton

end PageInliner.Page
