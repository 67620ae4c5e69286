import PageInliner.Proofs.Minify.Fixpoints
import PageInliner.Proofs.Minify.LineBreaks

/-!
# Texts whose short form is short

Without a slash there are no comments, and a second round finds what the passes of the first have brought
together: a semicolon that stood before the last one of a block, and spaces on both sides of line breaks
that are gone. Both can be read off the text itself.
-/

set_option autoImplicit false

namespace PageInliner.Minify

open Text

section Slash

theorem no_comments_of_no_slash {text : List Char} (noSlash : '/' ∉ text) :
    ¬ HoldsBlockComment text ∧ ¬ ['/', '/'] <:+: text := by
  constructor
  · intro holds
    obtain ⟨front, body, rest, whole⟩ := holds
    exact noSlash (by simp [whole])
  · intro stands
    exact noSlash (stands.subset List.mem_cons_self)

theorem dropComments_of_no_slash {text : List Char} (noSlash : '/' ∉ text) :
    dropBlockComments text = text ∧ dropLineComments text = text := by
  rw [dropBlockComments_eq_self_iff, dropLineComments_eq_self_iff]
  exact no_comments_of_no_slash noSlash

/-- A solid character of the one is a character of the other if the solid characters are a part of its. -/
theorem not_mem_of_solids {text other : List Char} {c : Char} (solid : isBlank c = false)
    (part : (solids other).Sublist (solids text)) (absent : c ∉ text) : c ∉ other := by
  intro member
  have among : c ∈ solids other := List.mem_filter.mpr ⟨member, by simp [solid]⟩
  exact absent (List.mem_filter.mp (part.subset among)).1

end Slash

section Semicolons

theorem solids_withoutNeedlessSemicolons (text : List Char) :
    solids (withoutNeedlessSemicolons text) = dropLastSemicolons (solids text) := by
  induction text with
  | nil => rfl
  | cons c text ih =>
    rw [withoutNeedlessSemicolons, nextSatisfies_eq_head?_solids]
    cases blank : isBlank c with
    | true =>
      have other := ne_semicolon_of_blank blank
      simpa [other, solids, blank] using ih
    | false =>
      rw [solids_cons_of_solid blank, dropLastSemicolons]
      have next : (solids text).head?.any (· == '}') = decide ((solids text).head? = some '}') := by
        cases (solids text).head? <;> simp [beq_eq_decide]
      rw [next]
      split
      · exact ih
      · rw [solids_cons_of_solid blank, ih]

theorem head?_dropLastSemicolons_iff {text : List Char} :
    (dropLastSemicolons text).head? = some '}' ↔ text.head? = some '}' ∨ [';', '}'] <+: text := by
  induction text with
  | nil => simp [dropLastSemicolons]
  | cons c text ih =>
    rw [dropLastSemicolons, pair_prefix_cons_iff]
    split
    case isTrue last =>
      have last : c = ';' ∧ text.head? = some '}' := by simpa using last
      simp [ih, last]
    case isFalse kept =>
      have kept : ¬ (c = ';' ∧ text.head? = some '}') := by simpa using kept
      simp [kept]

theorem last_semicolon_left_iff {text : List Char} :
    [';', '}'] <:+: dropLastSemicolons text ↔ [';', ';', '}'] <:+: text := by
  induction text with
  | nil => simp [dropLastSemicolons]
  | cons c text ih =>
    have front : [';', ';', '}'] <+: c :: text ↔ c = ';' ∧ [';', '}'] <+: text := by
      rw [List.cons_prefix_cons, eq_comm]
    rw [dropLastSemicolons, List.infix_cons_iff, front, ← ih]
    split
    case isTrue last =>
      have last : c = ';' ∧ text.head? = some '}' := by simpa using last
      have different : ¬ [';', '}'] <+: text := by
        intro first
        obtain ⟨rest, rfl⟩ := first
        cases last.2
      simp [different]
    case isFalse kept =>
      have kept : ¬ (c = ';' ∧ text.head? = some '}') := by simpa using kept
      rw [pair_infix_cons_iff, head?_dropLastSemicolons_iff, and_or_left]
      simp [kept]

theorem withoutNeedlessSemicolons_eq_self {text : List Char} (free : ¬ [';', '}'] <:+: solids text) :
    withoutNeedlessSemicolons text = text := by
  induction text with
  | nil => rfl
  | cons c text ih =>
    have kept : ¬ (c = ';' ∧ nextSatisfies (· == '}') text = true) := by
      intro needless
      obtain ⟨rfl, next⟩ := needless
      rw [nextSatisfies_eq_head?_solids, Option.any_eq_true] at next
      obtain ⟨brace, first, same⟩ := next
      rw [beq_iff_eq] at same
      rw [solids_cons_of_solid (by decide), pair_infix_cons_iff, not_or] at free
      exact free.1 ⟨rfl, same ▸ first⟩
    have later : ¬ [';', '}'] <:+: solids text := by
      intro stands
      cases blank : isBlank c with
      | true => exact free (by simpa [solids, blank] using stands)
      | false => exact free (by simpa [blank] using stands.trans (List.suffix_cons c _).isInfix)
    rw [withoutNeedlessSemicolons, if_neg (by simpa using kept), ih later]

/-- A second round finds a semicolon before a closing brace if the first has taken out one between them. -/
theorem style_style_eq_iff_of_no_slash {text : List Char} (noSlash : '/' ∉ text) :
    style (style text) = style text ↔ ¬ [';', ';', '}'] <:+: solids text := by
  have blanks := fillsBlank_within ruleOfBlanks_styleGap
  have left := solids_withoutNeedlessSemicolons text
  have filled : style text = refill (within styleGap) none (withoutNeedlessSemicolons text) := by
    rw [style_eq_refill, (dropComments_of_no_slash noSlash).1]
  have noSlashLeft : '/' ∉ style text := by
    refine not_mem_of_solids (by decide) ?_ noSlash
    rw [filled, solids_refill blanks, left]
    exact dropLastSemicolons_sublist _
  have again : style (style text) =
      refill (within styleGap) none (withoutNeedlessSemicolons (withoutNeedlessSemicolons text)) := by
    rw [style_style_of_bare (dropComments_of_no_slash noSlashLeft).1, filled,
      dropLastSemicolons_refill blanks closesSemicolons_styleGap]
  rw [← last_semicolon_left_iff, ← left]
  constructor
  · intro same
    rw [again, filled] at same
    have sameSolids := congrArg solids same
    rw [solids_refill blanks, solids_refill blanks, solids_withoutNeedlessSemicolons] at sameSolids
    exact dropLastSemicolons_eq_self_iff.mp sameSolids
  · intro free
    rw [again, filled, withoutNeedlessSemicolons_eq_self free]

end Semicolons

section Spaces

theorem ruleOfBlanks_squeezed : RuleOfBlanks fun a gap b => squeezeSpacing (scriptGap a gap b) :=
  fun a gap b blank => allBlank_squeezeRuns (ruleOfBlanks_scriptGap a gap b blank)

theorem squeezeSpacing_scriptGap_eq_iff {a b : Char} {gap : List Char} (blank : allBlank gap = true) :
    squeezeSpacing (scriptGap a gap b) = scriptGap a gap b ↔
      (isScriptMark a = false → isScriptMark b = false → ¬ Ragged gap) := by
  unfold scriptGap
  rw [← double_lineGap_iff blank, ← squeezeSpacing_eq_self_iff (tab_not_mem_lineGap gap)]
  cases isScriptMark a <;> cases isScriptMark b <;> simp [squeezeSpacing, squeezeRuns]

/-- A second round finds two spaces together if line breaks between them have gone in the first. -/
theorem script_script_eq_iff_of_no_slash {text : List Char} (noSlash : '/' ∉ text) :
    script (script text) = script text ↔
      ∀ before a gap b after, text = before ++ a :: (gap ++ b :: after) →
        isBlank a = false → isBlank b = false → allBlank gap = true →
        isScriptMark a = false → isScriptMark b = false → ¬ Ragged gap := by
  have blanks := fillsBlank_within ruleOfBlanks_scriptGap
  have bare := dropComments_of_no_slash noSlash
  have filled : script text = refill (within scriptGap) none text := by
    rw [script_eq_refill, bare.1, bare.2]
  have noSlashLeft : '/' ∉ script text := by
    refine not_mem_of_solids (by decide) ?_ noSlash
    rw [filled, solids_refill blanks]
  have again : script (script text) =
      refill (within fun a gap b => squeezeSpacing (scriptGap a gap b)) none text := by
    rw [script_script_of_bare (dropComments_eq_self_iff.mpr (no_comments_of_no_slash noSlashLeft)),
      squeezeSpacing_script, bare.1, bare.2]
  rw [again, filled, refill_within_eq_iff ruleOfBlanks_squeezed ruleOfBlanks_scriptGap]
  constructor
  · intro agree before a gap b after cut leftSolid rightSolid isGap
    exact (squeezeSpacing_scriptGap_eq_iff isGap).mp (agree before a gap b after cut leftSolid rightSolid isGap)
  · intro smooth before a gap b after cut leftSolid rightSolid isGap
    exact (squeezeSpacing_scriptGap_eq_iff isGap).mpr (smooth before a gap b after cut leftSolid rightSolid isGap)

end Spaces

/-- A text without a slash is as short after one round as after two, with two exceptions: a stylesheet that has
two semicolons before a closing brace, and a script that has a ragged gap between two characters that are no
marks. -/
theorem shortForm_idempotent_iff (text : String) (noSlash : '/' ∉ text.toList) :
    (shortForm .style (shortForm .style text) = shortForm .style text ↔
      ¬ [';', ';', '}'] <:+: solids text.toList) ∧
    (shortForm .script (shortForm .script text) = shortForm .script text ↔
      ∀ before a gap b after, text.toList = before ++ a :: (gap ++ b :: after) →
        isBlank a = false → isBlank b = false → allBlank gap = true →
        isScriptMark a = false → isScriptMark b = false → ¬ Ragged gap) ∧
    shortForm .markup (shortForm .markup text) = shortForm .markup text := by
  refine ⟨?_, ?_, rfl⟩
  · simpa only [shortForm, String.toList_ofList, String.ofList_inj] using style_style_eq_iff_of_no_slash noSlash
  · simpa only [shortForm, String.toList_ofList, String.ofList_inj] using script_script_eq_iff_of_no_slash noSlash

theorem shortForm_idempotent_iff_both_exceptions :
    let text := "a \n b\x7b;;\x7d"
    '/' ∉ text.toList ∧ shortForm .style (shortForm .style text) ≠ shortForm .style text ∧
      shortForm .script (shortForm .script text) ≠ shortForm .script text := by
  intro text
  have noSlash : '/' ∉ text.toList := by decide +kernel
  have semicolons : [';', ';', '}'] <:+: solids text.toList := by decide +kernel
  have ragged : Ragged [' ', '\n', ' '] :=
    ⟨[' '], ['\n'], [' '], rfl, by decide, by decide, ⟨.inl List.prefix_rfl, List.suffix_rfl⟩, rfl, rfl⟩
  obtain ⟨sheet, code, _⟩ := shortForm_idempotent_iff text noSlash
  refine ⟨noSlash, fun same => sheet.mp same semicolons, fun same => ?_⟩
  exact code.mp same [] 'a' [' ', '\n', ' '] 'b' ['{', ';', ';', '}'] (by decide +kernel) (by decide)
    (by decide) (by decide) (by decide) (by decide) ragged

/-- Each exception on its own, at its smallest. -/
theorem shortForm_not_idempotent :
    shortForm .style (shortForm .style "a\x7b;;\x7d") ≠ shortForm .style "a\x7b;;\x7d" ∧
      shortForm .script (shortForm .script "a \n b") ≠ shortForm .script "a \n b" := by
  decide +kernel

end PageInliner.Minify
