import PageInliner.Minify
import PageInliner.Proofs.Minify.Comments
import PageInliner.Proofs.Minify.Passes

/-!
# Stylesheets in short

What the passes make of a stylesheet is told by its solid characters and by what stands between them. The
pass that drops semicolons comes last and looks at neighbours only; since nothing is left beside a mark by
then, it drops the semicolons that had nothing but blanks before a closing brace.
-/

set_option autoImplicit false

namespace PageInliner.Minify

open Text

/-- The text without every semicolon whose next character that is not blank is a closing brace. -/
def withoutNeedlessSemicolons : List Char → List Char
  | [] => []
  | c :: rest =>
    if c = ';' && nextSatisfies (· == '}') rest then withoutNeedlessSemicolons rest
    else c :: withoutNeedlessSemicolons rest

/-- A space between two characters that stood apart, unless one of them is a mark. -/
def styleGap (a : Char) (gap : List Char) (b : Char) : List Char :=
  if gap.isEmpty || isStyleMark a || isStyleMark b then [] else [' ']

section Semicolons

theorem ne_semicolon_of_blank {c : Char} (blank : isBlank c = true) : c ≠ ';' := by
  rintro rfl
  cases blank

theorem dropLastSemicolons_append {gap : List Char} (blank : allBlank gap = true) (rest : List Char) :
    dropLastSemicolons (gap ++ rest) = gap ++ dropLastSemicolons rest := by
  induction gap with
  | nil => rfl
  | cons c gap ih =>
    obtain ⟨here, later⟩ := allBlank_cons.mp blank
    simp [dropLastSemicolons, ne_semicolon_of_blank here, ih later]

theorem withoutNeedlessSemicolons_append {gap : List Char} (blank : allBlank gap = true) (rest : List Char) :
    withoutNeedlessSemicolons (gap ++ rest) = gap ++ withoutNeedlessSemicolons rest := by
  induction gap with
  | nil => rfl
  | cons c gap ih =>
    obtain ⟨here, later⟩ := allBlank_cons.mp blank
    simp [withoutNeedlessSemicolons, ne_semicolon_of_blank here, ih later]

theorem withoutNeedlessSemicolons_of_blank {gap : List Char} (blank : allBlank gap = true) :
    withoutNeedlessSemicolons gap = gap := by
  simpa [withoutNeedlessSemicolons] using withoutNeedlessSemicolons_append blank []

theorem exists_of_nextSatisfies {p : Char → Bool} {text : List Char} (next : nextSatisfies p text = true) :
    ∃ gap c rest, text = gap ++ c :: rest ∧ allBlank gap = true ∧ isBlank c = false ∧ p c = true := by
  cases text using gap_induction with
  | gap gap blank =>
    rw [nextSatisfies_of_blank blank] at next
    cases next
  | solid gap c rest blank solid =>
    rw [nextSatisfies_append blank solid] at next
    exact ⟨gap, c, rest, rfl, blank, solid, next⟩

variable {fill : Filling}

/-- A filling that leaves nothing beside a semicolon nor before a closing brace. -/
structure ClosesSemicolons (fill : Filling) : Prop where
  behind : ∀ gap right, fill (some ';') gap right = []
  before : ∀ left gap, fill left gap (some ';') = []
  brace : ∀ left gap, fill left gap (some '}') = []

/-- With nothing left beside it, a semicolon has a brace for its neighbour if a brace comes next in the text. -/
theorem head?_refill_behind (closes : ClosesSemicolons fill) (rest : List Char) :
    (refill fill (some ';') rest).head? = some '}' ↔ nextSatisfies (· == '}') rest = true := by
  cases rest using gap_induction with
  | gap gap blank => simp [refill_gap blank, closes.behind, nextSatisfies_of_blank blank]
  | solid gap c rest blank solid =>
    simp [refill_solid blank solid, closes.behind, nextSatisfies_append blank solid]

/-- The last pass does to a text with closed gaps what can be said of the text before. -/
theorem dropLastSemicolons_refill (blanks : FillsBlank fill) (closes : ClosesSemicolons fill)
    (left : Option Char) (text : List Char) :
    dropLastSemicolons (refill fill left text) = refill fill left (withoutNeedlessSemicolons text) := by
  induction text using gap_induction generalizing left with
  | gap gap blank =>
    have same := dropLastSemicolons_append (blanks left gap none blank) []
    rw [List.append_nil] at same
    rw [withoutNeedlessSemicolons_of_blank blank, refill_gap blank, same]
    simp [dropLastSemicolons]
  | solid gap c rest blank solid ih =>
    rw [refill_solid blank solid, dropLastSemicolons_append (blanks _ _ _ blank),
      withoutNeedlessSemicolons_append blank, dropLastSemicolons, withoutNeedlessSemicolons]
    by_cases needless : c = ';' ∧ nextSatisfies (· == '}') rest = true
    · obtain ⟨rfl, next⟩ := needless
      rw [if_pos (by simp [head?_refill_behind closes, next]), if_pos (by simp [next]), closes.before,
        List.nil_append, ih]
      obtain ⟨space, d, more, rfl, isSpace, dark, brace⟩ := exists_of_nextSatisfies next
      rw [beq_iff_eq] at brace
      subst brace
      have both : allBlank (gap ++ space) = true := by
        rw [allBlank, List.all_append]
        exact Bool.and_eq_true_iff.mpr ⟨blank, isSpace⟩
      have stays : withoutNeedlessSemicolons ('}' :: more) = '}' :: withoutNeedlessSemicolons more := by
        simp [withoutNeedlessSemicolons]
      rw [withoutNeedlessSemicolons_append isSpace, stays, refill_solid isSpace dark, ← List.append_assoc,
        refill_solid both dark, closes.brace, closes.brace]
    · have kept : ¬ (c = ';' ∧ (refill fill (some c) rest).head? = some '}') := by
        rintro ⟨rfl, brace⟩
        exact needless ⟨rfl, (head?_refill_behind closes rest).mp brace⟩
      rw [if_neg (by simpa using kept), if_neg (by simpa using needless), refill_solid blank solid, ih]

end Semicolons

section Style

theorem isBlank_of_isStyleMark {c : Char} (mark : isStyleMark c = true) : isBlank c = false := by
  have solid : ['{', '}', ';', ':', ',', '>'].all (fun c => !isBlank c) = true := by decide
  rw [isStyleMark, List.contains_iff_mem] at mark
  simpa using List.all_eq_true.mp solid c mark

theorem ruleOfBlanks_styleGap : RuleOfBlanks styleGap := by
  intro a gap b _
  unfold styleGap
  split <;> decide

/-- What stands in a gap of a stylesheet before the last semicolons are dropped. -/
def closedFilling : Filling :=
  fun left gap right => tightFilling isStyleMark left (squeezeBlanks gap) right

theorem fillsBlank_closedFilling : FillsBlank closedFilling :=
  fillsBlank_tightFilling.comp fillsBlank_squeezeBlanks

theorem closesSemicolons_closedFilling : ClosesSemicolons closedFilling where
  behind gap right := by simp [closedFilling, tightFilling, isStyleMark]
  before left gap := by simp [closedFilling, tightFilling, isStyleMark]
  brace left gap := by simp [closedFilling, tightFilling, isStyleMark]

theorem style_eq_refill (text : List Char) :
    style text = refill (within styleGap) none (withoutNeedlessSemicolons (dropBlockComments text)) := by
  rw [style, squeezeBlanks_eq_refill none, tighten_eq_refill,
    refill_refill fillsBlank_squeezeBlanks]
  change trim (dropLastSemicolons (refill closedFilling none _)) = _
  rw [dropLastSemicolons_refill fillsBlank_closedFilling closesSemicolons_closedFilling, trim_eq_refill,
    refill_refill fillsBlank_closedFilling]
  refine refill_congr (fun left gap right blank => ?_) _
  cases left with
  | none => rfl
  | some a =>
    cases right with
    | none => rfl
    | some b =>
      simp only [within, closedFilling, tightFilling, Option.any_some, squeezeBlanks_gap blank, styleGap]
      cases gap.isEmpty <;> simp

theorem eq_space_of_blank {text before after : List Char} {c : Char}
    (cut : style text = before ++ c :: after) (blank : isBlank c = true) :
    c = ' ' ∧ ∀ d, after.head? = some d → isBlank d = false := by
  rw [style_eq_refill] at cut
  obtain ⟨front, a, gap, b, back, _, rest, _, _, dark, put, _, rfl⟩ := exists_between_of_blank cut blank
  have single : front ++ c :: back = [' '] := by
    unfold styleGap at put
    split at put
    · simp at put
    · exact put.symm
  obtain ⟨rfl, rfl⟩ : c = ' ' ∧ back = [] := by
    rcases List.append_eq_singleton_iff.mp single with ⟨_, tail⟩ | ⟨_, tail⟩
    · exact List.cons.inj tail
    · cases tail
  refine ⟨rfl, fun d first => ?_⟩
  have same : b = d := by simpa using first
  exact same ▸ dark

/-- The short form of a stylesheet is the one text that has the solid characters of the sheet without its
comments, less the semicolons before closing braces, and between two of them a space exactly if they stood
apart and neither is a mark. So it has no blank at its ends or beside a mark, and no two blanks together. -/
theorem eq_style_iff (text : List Char) :
    (∀ bare, Stripped BlockComment text bare ↔ bare = dropBlockComments text) ∧
    (∀ sheet, sheet = style text ↔
      Spaced styleGap (withoutNeedlessSemicolons (dropBlockComments text)) sheet) ∧
    Tight isStyleMark (style text) ∧
    ∀ before c after, style text = before ++ c :: after → isBlank c = true →
      c = ' ' ∧ ∀ d, after.head? = some d → isBlank d = false := by
  refine ⟨fun bare => stripped_blockComment_iff, ?_, ?_, fun before c after => eq_space_of_blank⟩
  · intro sheet
    rw [spaced_iff ruleOfBlanks_styleGap, style_eq_refill]
  · rw [style_eq_refill]
    refine tight_refill ruleOfBlanks_styleGap (fun c => isBlank_of_isStyleMark) ?_ _
    rintro a gap b (mark | mark) <;> simp [styleGap, mark]

end Style

end PageInliner.Minify
