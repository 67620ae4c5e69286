import PageInliner.Minify
import PageInliner.Proofs.Minify.Comments
import PageInliner.Proofs.Minify.Passes

/-!
# Scripts in short

Behind the comments the passes over a script touch blanks alone, so its solid characters stay and each gap
goes its own way: beside a mark it is closed, elsewhere it loses its line breaks. Neighbours stay neighbours,
and only a line break can bring two words together that stood apart.
-/

set_option autoImplicit false

namespace PageInliner.Minify

open Text

/-- What the passes over lines leave of a gap. -/
def lineGap (gap : List Char) : List Char :=
  joinLines (squeezeSpacing (joinBlankLines gap))

/-- What is left between two characters of a script. -/
def scriptGap (a : Char) (gap : List Char) (b : Char) : List Char :=
  if isScriptMark a || isScriptMark b then [] else lineGap gap

theorem isBlank_of_isScriptMark {c : Char} (mark : isScriptMark c = true) : isBlank c = false := by
  have solid : ['{', '}', ';', ':', ',', '=', '+', '-', '*', '/', '<', '>', '!', '&', '|', '?'].all
      (fun c => !isBlank c) = true := by decide
  rw [isScriptMark, List.contains_iff_mem] at mark
  simpa using List.all_eq_true.mp solid c mark

theorem fillsBlank_lineGap : FillsBlank fun _ gap _ => lineGap gap :=
  fillsBlank_joinLines.comp (fillsBlank_squeezeSpacing.comp fillsBlank_joinBlankLines)

theorem ruleOfBlanks_scriptGap : RuleOfBlanks scriptGap := by
  intro a gap b blank
  unfold scriptGap
  split
  · rfl
  · exact fillsBlank_lineGap none gap none blank

theorem joinLines_squeezeSpacing_joinBlankLines (text : List Char) :
    joinLines (squeezeSpacing (joinBlankLines text)) = refill (fun _ gap _ => lineGap gap) none text := by
  rw [joinBlankLines_eq_refill none, squeezeSpacing_eq_refill none, refill_refill fillsBlank_joinBlankLines,
    joinLines_eq_refill none, refill_refill (fillsBlank_squeezeSpacing.comp fillsBlank_joinBlankLines)]
  rfl

theorem script_eq_refill (text : List Char) :
    script text = refill (within scriptGap) none (dropLineComments (dropBlockComments text)) := by
  rw [script, joinLines_squeezeSpacing_joinBlankLines, trim_tighten, refill_refill fillsBlank_lineGap]
  refine refill_congr (fun left gap right _ => ?_) _
  cases left with
  | none => rfl
  | some a => cases right <;> rfl

section Gap

theorem newline_not_mem_lineGap (gap : List Char) : '\n' ∉ lineGap gap :=
  newline_not_mem_joinLines _

theorem tab_not_mem_lineGap (gap : List Char) : '\t' ∉ lineGap gap := by
  intro member
  rcases mem_squeezeRuns ((joinLines_sublist _).subset member) with space | ⟨stays, _⟩
  · cases space
  · cases stays

theorem newline_not_mem_squeezeSpacing {text : List Char} (oneLine : '\n' ∉ text) :
    '\n' ∉ squeezeSpacing text := by
  intro member
  rcases mem_squeezeRuns member with space | ⟨_, among⟩
  · cases space
  · exact oneLine among

theorem lineGap_of_no_newline {gap : List Char} (oneLine : '\n' ∉ gap) : lineGap gap = squeezeSpacing gap := by
  rw [lineGap, joinBlankLines, joinBlankLinesFrom_of_no_newline false oneLine,
    joinLines_of_no_newline (newline_not_mem_squeezeSpacing oneLine)]

theorem lineGap_ne_nil {gap : List Char} (wide : gap ≠ []) (oneLine : '\n' ∉ gap) : lineGap gap ≠ [] := by
  rw [lineGap_of_no_newline oneLine]
  exact squeezeRuns_ne_nil wide

end Gap

theorem not_mem_script {text : List Char} {c : Char} (blank : isBlank c = true)
    (absent : ∀ gap, c ∉ lineGap gap) : c ∉ script text := by
  intro member
  obtain ⟨before, after, cut⟩ := List.append_of_mem member
  rw [script_eq_refill] at cut
  obtain ⟨front, a, gap, b, back, _, _, _, _, _, put, _, _⟩ := exists_between_of_blank cut blank
  unfold scriptGap at put
  split at put
  · simp at put
  · exact absent gap (by simp [put])

/-- A short script has the solid characters of the script without its comments. It is one line, with no blank
at its ends or beside a mark. Neighbours stay neighbours, and two characters that are no marks stay apart if
they stood apart on one line. -/
theorem script_spaced (text : List Char) :
    let code := dropLineComments (dropBlockComments text)
    (∀ bare, Stripped BlockComment text bare ↔ bare = dropBlockComments text) ∧
    (∀ rest, Stripped LineComment (dropBlockComments text) rest ↔ rest = code) ∧
    solids (script text) = solids code ∧
    '\n' ∉ script text ∧ '\t' ∉ script text ∧ Tight isScriptMark (script text) ∧
    ∀ before a gap b after, code = before ++ a :: (gap ++ b :: after) →
      isBlank a = false → isBlank b = false → allBlank gap = true →
      ∃ front space back, script text = front ++ a :: (space ++ b :: back) ∧
        solids front = solids before ∧ solids back = solids after ∧ allBlank space = true ∧
        (gap = [] → space = []) ∧
        (isScriptMark a = false → isScriptMark b = false → gap ≠ [] → '\n' ∉ gap → space ≠ []) := by
  intro code
  have filled : script text = refill (within scriptGap) none code := script_eq_refill text
  have blanks := fillsBlank_within ruleOfBlanks_scriptGap
  refine ⟨fun bare => stripped_blockComment_iff, fun rest => stripped_lineComment_iff, ?_, ?_, ?_, ?_, ?_⟩
  · rw [filled, solids_refill blanks]
  · exact not_mem_script isBlank_newline newline_not_mem_lineGap
  · exact not_mem_script (by decide) tab_not_mem_lineGap
  · rw [filled]
    refine tight_refill ruleOfBlanks_scriptGap (fun c => isBlank_of_isScriptMark) ?_ code
    intro a gap b mark
    exact if_pos (Bool.or_eq_true_iff.mpr mark)
  · intro before a gap b after cut leftSolid rightSolid isGap
    obtain ⟨front, back, spaced, sameFront, sameBack⟩ :=
      refill_between blanks none before after leftSolid isGap rightSolid
    rw [← cut, ← filled] at spaced
    refine ⟨front, scriptGap a gap b, back, spaced, sameFront, sameBack,
      ruleOfBlanks_scriptGap a gap b isGap, ?_, ?_⟩
    · intro together
      subst together
      unfold scriptGap
      split <;> rfl
    · intro leftPlain rightPlain apart oneLine
      rw [scriptGap, leftPlain, rightPlain]
      exact lineGap_ne_nil apart oneLine

end PageInliner.Minify
