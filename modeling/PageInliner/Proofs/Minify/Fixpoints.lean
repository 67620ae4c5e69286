import Mathlib.Dynamics.FixedPoints.Basic
import PageInliner.Proofs.Minify.Script
import PageInliner.Proofs.Minify.Shrinking
import PageInliner.Proofs.Minify.Style

/-!
# Short forms made short again

In a short form every gap is as its rule leaves it, so of all passes only a few can still find something:
those that drop comments, and the one whose finds are made by the passes behind it. For a stylesheet this is
the last pass, for a script the one that squeezes spaces. Each of them takes characters out, so short forms
that change become shorter, and that has an end.
-/

set_option autoImplicit false

namespace PageInliner.Minify

open Text

variable {weight : Char → Nat}

section Style

theorem styleGap_styleGap (a : Char) (gap : List Char) (b : Char) :
    styleGap a (styleGap a gap b) b = styleGap a gap b := by
  cases closed : gap.isEmpty || isStyleMark a || isStyleMark b with
  | true => simp [styleGap, closed]
  | false =>
    rw [Bool.or_eq_false_iff, Bool.or_eq_false_iff] at closed
    simp [styleGap, closed]

theorem refill_style (text : List Char) : refill (within styleGap) none (style text) = style text := by
  have settled : (fun a gap b => styleGap a (styleGap a gap b) b) = styleGap := by
    funext a gap b
    exact styleGap_styleGap a gap b
  have ends : ∀ left, within styleGap left [] none = [] := fun left => by cases left <;> rfl
  rw [style_eq_refill, refill_refill_within ruleOfBlanks_styleGap (fun _ => rfl) ends]
  exact congrArg (fun rule => refill (within rule) none _) settled

theorem closesSemicolons_styleGap : ClosesSemicolons (within styleGap) where
  behind gap right := by cases right <;> simp [within, styleGap, isStyleMark]
  before left gap := by cases left <;> simp [within, styleGap, isStyleMark]
  brace left gap := by cases left <;> simp [within, styleGap, isStyleMark]

theorem style_eq_dropLastSemicolons (text : List Char) :
    style text = dropLastSemicolons (refill (within styleGap) none (dropBlockComments text)) := by
  rw [style_eq_refill,
    dropLastSemicolons_refill (fillsBlank_within ruleOfBlanks_styleGap) closesSemicolons_styleGap]

theorem style_style_of_bare {text : List Char} (bare : dropBlockComments (style text) = style text) :
    style (style text) = dropLastSemicolons (style text) := by
  rw [style_eq_dropLastSemicolons (style text), bare, refill_style]

theorem dropLastSemicolons_eq_self_iff {text : List Char} :
    dropLastSemicolons text = text ↔ ¬ [';', '}'] <:+: text := by
  induction text with
  | nil => simp [dropLastSemicolons]
  | cons c text ih =>
    rw [dropLastSemicolons, pair_infix_cons_iff, not_or]
    split
    case isTrue last =>
      have shorter := (dropLastSemicolons_sublist text).length_le
      constructor
      · intro same
        have sizes := congrArg List.length same
        rw [List.length_cons] at sizes
        omega
      · intro free
        exact absurd (by simpa using last) free.1
    case isFalse kept =>
      have stays : ¬ (c = ';' ∧ text.head? = some '}') := by simpa using kept
      rw [List.cons.injEq, ih]
      simp [stays]

theorem style_bare_or_lighter (weighing : Weighing weight) (text : List Char) :
    dropBlockComments text = text ∨ size weight (style text) < size weight text := by
  by_cases bare : dropBlockComments text = text
  · exact .inl bare
  · have without := size_lt_of_sublist weighing (stripped_dropBlockComments text).sublist bare
    exact .inr (Nat.lt_of_le_of_lt (size_style_le weighing text) without)

theorem size_style_style_lt (weighing : Weighing weight) {text : List Char}
    (differs : style (style text) ≠ style text) :
    size weight (style (style text)) < size weight (style text) := by
  cases style_bare_or_lighter weighing (style text) with
  | inl bare =>
    rw [style_style_of_bare bare] at differs ⊢
    exact size_lt_of_sublist weighing (dropLastSemicolons_sublist _) differs
  | inr lighter => exact lighter

theorem style_style_eq_iff (text : List Char) :
    style (style text) = style text ↔
      ¬ HoldsBlockComment (style text) ∧ ¬ [';', '}'] <:+: style text := by
  rw [← dropBlockComments_eq_self_iff, ← dropLastSemicolons_eq_self_iff]
  constructor
  · intro same
    cases style_bare_or_lighter weighing_one (style text) with
    | inl bare =>
      rw [style_style_of_bare bare] at same
      exact ⟨bare, same⟩
    | inr lighter =>
      rw [same] at lighter
      exact absurd lighter (Nat.lt_irrefl _)
  · intro settled
    rw [style_style_of_bare settled.1, settled.2]

end Style

section Script

theorem scriptGap_scriptGap (a : Char) (gap : List Char) (b : Char) :
    scriptGap a (scriptGap a gap b) b = squeezeSpacing (scriptGap a gap b) := by
  unfold scriptGap
  split
  · rfl
  · exact lineGap_of_no_newline (newline_not_mem_lineGap gap)

theorem tab_not_mem_script (text : List Char) : '\t' ∉ script text :=
  not_mem_script (by decide) tab_not_mem_lineGap

theorem squeezeSpacing_script (text : List Char) :
    squeezeSpacing (script text) =
      refill (within fun a gap b => squeezeSpacing (scriptGap a gap b)) none
        (dropLineComments (dropBlockComments text)) := by
  rw [squeezeSpacing_eq_refill none, script_eq_refill,
    refill_refill_within ruleOfBlanks_scriptGap (fun _ => rfl) (fun _ => rfl)]

theorem script_script_of_bare {text : List Char}
    (bare : dropLineComments (dropBlockComments (script text)) = script text) :
    script (script text) = squeezeSpacing (script text) := by
  have squeezed : (fun a gap b => scriptGap a (scriptGap a gap b) b) =
      fun a gap b => squeezeSpacing (scriptGap a gap b) := by
    funext a gap b
    exact scriptGap_scriptGap a gap b
  have ends : ∀ left, within scriptGap left [] none = [] := fun left => by cases left <;> rfl
  rw [squeezeSpacing_script, script_eq_refill (script text), bare, script_eq_refill text,
    refill_refill_within ruleOfBlanks_scriptGap (fun _ => rfl) ends]
  exact congrArg (fun rule => refill (within rule) none _) squeezed

theorem dropComments_eq_self_iff {text : List Char} :
    dropLineComments (dropBlockComments text) = text ↔
      ¬ HoldsBlockComment text ∧ ¬ ['/', '/'] <:+: text := by
  rw [← dropBlockComments_eq_self_iff, ← dropLineComments_eq_self_iff]
  constructor
  · intro same
    have bare : dropBlockComments text = text := by
      have inner := (stripped_dropLineComments (dropBlockComments text)).sublist
      rw [same] at inner
      exact (stripped_dropBlockComments text).sublist.antisymm inner
    rw [bare] at same
    exact ⟨bare, same⟩
  · intro free
    rw [free.1, free.2]

theorem script_bare_or_lighter (weighing : Weighing weight) (text : List Char) :
    dropLineComments (dropBlockComments text) = text ∨ size weight (script text) < size weight text := by
  by_cases bare : dropLineComments (dropBlockComments text) = text
  · exact .inl bare
  · have code := (stripped_dropLineComments _).sublist.trans (stripped_dropBlockComments text).sublist
    have without := size_lt_of_sublist weighing code bare
    exact .inr (Nat.lt_of_le_of_lt (size_script_le weighing text) without)

theorem size_script_script_lt (weighing : Weighing weight) {text : List Char}
    (differs : script (script text) ≠ script text) :
    size weight (script (script text)) < size weight (script text) := by
  cases script_bare_or_lighter weighing (script text) with
  | inl bare =>
    rw [script_script_of_bare bare] at differs ⊢
    exact size_lt_of_sublist weighing (squeezeSpacing_sublist (tab_not_mem_script text)) differs
  | inr lighter => exact lighter

theorem script_script_eq_iff (text : List Char) :
    script (script text) = script text ↔
      ¬ HoldsBlockComment (script text) ∧ ¬ ['/', '/'] <:+: script text ∧
        ¬ [' ', ' '] <:+: script text := by
  rw [← and_assoc, ← dropComments_eq_self_iff, ← squeezeSpacing_eq_self_iff (tab_not_mem_script text)]
  constructor
  · intro same
    cases script_bare_or_lighter weighing_one (script text) with
    | inl bare =>
      rw [script_script_of_bare bare] at same
      exact ⟨bare, same⟩
    | inr lighter =>
      rw [same] at lighter
      exact absurd lighter (Nat.lt_irrefl _)
  · intro settled
    rw [script_script_of_bare settled.1, settled.2]

end Script

section Rounds

theorem size_shortForm_le (weighing : Weighing weight) (kind : Asset.Kind) (text : String) :
    size weight (shortForm kind text).toList ≤ size weight text.toList := by
  cases kind with
  | markup => exact Nat.le_refl _
  | style =>
    rw [shortForm, String.toList_ofList]
    exact Nat.le_trans (size_style_le weighing _)
      (size_le_of_sublist (stripped_dropBlockComments _).sublist)
  | script =>
    rw [shortForm, String.toList_ofList]
    exact Nat.le_trans (size_script_le weighing _) (size_le_of_sublist
      ((stripped_dropLineComments _).sublist.trans (stripped_dropBlockComments _).sublist))

theorem size_shortForm_shortForm_lt (weighing : Weighing weight) {kind : Asset.Kind} {text : String}
    (differs : shortForm kind (shortForm kind text) ≠ shortForm kind text) :
    size weight (shortForm kind (shortForm kind text)).toList < size weight (shortForm kind text).toList := by
  cases kind with
  | markup => exact absurd rfl differs
  | style =>
    simp only [shortForm, String.toList_ofList, ne_eq, String.ofList_inj] at differs ⊢
    exact size_style_style_lt weighing differs
  | script =>
    simp only [shortForm, String.toList_ofList, ne_eq, String.ofList_inj] at differs ⊢
    exact size_script_script_lt weighing differs

/-- A function that never enlarges a thing, and makes its own results smaller where it changes them, comes
to rest before it has been applied more often than the thing is large. -/
theorem isFixedPt_iterate {α : Type} {f : α → α} {measure : α → Nat} (atMost : ∀ a, measure (f a) ≤ measure a)
    (less : ∀ a, f (f a) ≠ f a → measure (f (f a)) < measure (f a)) {rounds : Nat} {a : α}
    (many : measure a < rounds) : Function.IsFixedPt f (f^[rounds] a) := by
  cases rounds with
  | zero => exact absurd many (Nat.not_lt_zero _)
  | succ rounds =>
    have bound : measure (f a) ≤ rounds := Nat.le_trans (atMost a) (Nat.le_of_lt_succ many)
    clear many
    rw [Function.iterate_succ_apply]
    induction rounds generalizing a with
    | zero =>
      apply Classical.byContradiction
      intro differs
      have smaller := less a differs
      omega
    | succ rounds ih =>
      by_cases rests : f (f a) = f a
      · have stays : f^[rounds + 1] (f a) = f a := Function.IsFixedPt.iterate rests _
        rw [stays]
        exact rests
      · have smaller := less a rests
        rw [Function.iterate_succ_apply]
        exact ih (by omega)

/-- What is left to do in a short form can be read off it: in a stylesheet, block comments and semicolons
before closing braces; in a script, comments and spaces that stand together. A second round that changes the
short form makes it shorter, so the rounds come to rest. -/
theorem shortForm_settles (text : String) :
    let sheet := shortForm .style text
    let code := shortForm .script text
    (shortForm .style sheet = sheet ↔ ¬ HoldsBlockComment sheet.toList ∧ ¬ [';', '}'] <:+: sheet.toList) ∧
    (shortForm .script code = code ↔
      ¬ HoldsBlockComment code.toList ∧ ¬ ['/', '/'] <:+: code.toList ∧ ¬ [' ', ' '] <:+: code.toList) ∧
    ∀ kind,
      let short := shortForm kind text
      let again := shortForm kind short
      (again ≠ short → again.length < short.length ∧ again.utf8ByteSize < short.utf8ByteSize) ∧
      short.length ≤ text.length ∧ short.utf8ByteSize ≤ text.utf8ByteSize ∧
      ∀ rounds, text.length < rounds → Function.IsFixedPt (shortForm kind) ((shortForm kind)^[rounds] text) := by
  intro sheet code
  have shorter : ∀ kind other, shortForm kind (shortForm kind other) ≠ shortForm kind other →
      (shortForm kind (shortForm kind other)).length < (shortForm kind other).length := by
    intro kind other differs
    rw [← size_one, ← size_one]
    exact size_shortForm_shortForm_lt weighing_one differs
  have noLonger : ∀ kind other, (shortForm kind other).length ≤ other.length := by
    intro kind other
    rw [← size_one, ← size_one]
    exact size_shortForm_le weighing_one kind other
  refine ⟨?_, ?_, fun kind => ⟨fun differs => ⟨shorter kind text differs, ?_⟩, noLonger kind text, ?_, ?_⟩⟩
  · simpa only [sheet, shortForm, String.toList_ofList, String.ofList_inj] using style_style_eq_iff text.toList
  · simpa only [code, shortForm, String.toList_ofList, String.ofList_inj] using script_script_eq_iff text.toList
  · rw [← size_utf8Size, ← size_utf8Size]
    exact size_shortForm_shortForm_lt weighing_utf8Size differs
  · rw [← size_utf8Size, ← size_utf8Size]
    exact size_shortForm_le weighing_utf8Size kind text
  · intro rounds many
    exact isFixedPt_iterate (noLonger kind) (shorter kind) many

end Rounds

end PageInliner.Minify
