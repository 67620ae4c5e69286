import PageInliner.Proofs.Page.Markers

/-!
# Strict and lenient pages

The first inlining that is refused ends the work, and its error is the answer. The two modes differ in one
thing: what a marker that does not occur does. Strictly it is refused, leniently it is skipped with a
warning, so a lenient page is the strict page of those inlinings whose markers occur.
-/

set_option autoImplicit false

namespace PageInliner.Page

open Text

namespace Inlining

/-- An inlining that ends the work, and with which error. The asset of a marker that does not occur is never
looked at. -/
inductive Refused (template : Asset) (strict : Bool) (inlining : Inlining) : BuildError → Prop where
  | absent : strict = true → ¬ inlining.key <:+: template.text.toList →
      Refused template strict inlining (.markerNotFound inlining.marker template.path)
  | unembeddable : inlining.key <:+: template.text.toList →
      (∃ error, embeddable inlining.asset = .error error) →
      Refused template strict inlining (.endsOwnBlock inlining.asset.path "</style")

theorem isPresent_iff {template : Asset} {inlining : Inlining} :
    inlining.isPresent template = true ↔ inlining.key <:+: template.text.toList := by
  rw [isPresent, occurs_iff]
  constructor
  · rintro ⟨before, after, whole⟩
    exact ⟨before, after, whole.symm⟩
  · rintro ⟨before, after, whole⟩
    exact ⟨before, after, whole.symm⟩

theorem isPresent_eq_false_iff {template : Asset} {inlining : Inlining} :
    inlining.isPresent template = false ↔ ¬ inlining.key <:+: template.text.toList := by
  rw [← isPresent_iff, Bool.not_eq_true]

theorem embeddable_eq_error {asset : Asset} {error : BuildError} (refused : embeddable asset = .error error) :
    error = .endsOwnBlock asset.path "</style" := by
  unfold embeddable at refused
  split at refused
  · cases refused
  · cases refused
  · split at refused
    · cases refused
      rfl
    · cases refused

theorem block_eq_error_iff {inlining : Inlining} {error : BuildError} :
    inlining.block = .error error ↔ embeddable inlining.asset = .error error := by
  unfold block
  cases embeddable inlining.asset with
  | error other => exact ⟨id, id⟩
  | ok text => exact ⟨nofun, nofun⟩

theorem refused_iff {template : Asset} {strict : Bool} {inlining : Inlining} {error : BuildError} :
    inlining.Refused template strict error ↔ inlining.refusal? template strict = some error := by
  constructor
  · rintro (⟨isStrict, missing⟩ | ⟨present, other, fails⟩)
    · simp [refusal?, isPresent_eq_false_iff.mpr missing, isStrict]
    · obtain rfl := embeddable_eq_error fails
      simp [refusal?, isPresent_iff.mpr present, block_eq_error_iff.mpr fails]
  · intro refused
    unfold refusal? at refused
    split at refused
    case isTrue present =>
      split at refused
      · rename_i other failed
        cases refused
        have fails := block_eq_error_iff.mp failed
        obtain rfl := embeddable_eq_error fails
        exact .unembeddable (isPresent_iff.mp present) ⟨_, fails⟩
      · cases refused
    case isFalse missing =>
      split at refused
      case isTrue isStrict =>
        cases refused
        exact .absent isStrict fun occurs => missing (isPresent_iff.mpr occurs)
      case isFalse => cases refused

theorem not_refused_iff {template : Asset} {strict : Bool} {inlining : Inlining} :
    (∀ error, ¬ inlining.Refused template strict error) ↔ inlining.refusal? template strict = none := by
  simp only [refused_iff, Option.eq_none_iff_forall_ne_some]

end Inlining

section Answer

variable {template : Asset} {strict : Bool} {inlinings : List Inlining}

/-- The warnings are those of the inlinings that are skipped before the first that is refused. -/
theorem fromTemplate_events {before after : List Inlining} (whole : inlinings = before ++ after)
    (accepted : ∀ inlining ∈ before, inlining.refusal? template strict = none)
    (stops : ∀ inlining, after.head? = some inlining → inlining.refusal? template strict ≠ none) :
    (fromTemplate template inlinings strict).2 =
      (before.filter fun inlining => !inlining.isPresent template).map (Inlining.warning template) := by
  have reached : inlinings.takeWhile (fun inlining => (inlining.refusal? template strict).isNone) = before := by
    rw [whole, List.takeWhile_append_of_pos fun inlining member => by simp [accepted inlining member]]
    cases after with
    | nil => simp
    | cons inlining rest => simp [stops inlining rfl]
  simp only [fromTemplate, markerBlocks_eq, reached]

/-- What is absent does not count leniently, and what is present counts alike in both modes. -/
theorem refusal?_present (template : Asset) (inlinings : List Inlining) :
    (present template inlinings).findSome? (Inlining.refusal? template true) =
      inlinings.findSome? (Inlining.refusal? template false) := by
  induction inlinings with
  | nil => rfl
  | cons inlining rest ih =>
    cases found : inlining.isPresent template with
    | true =>
      have alike : inlining.refusal? template true = inlining.refusal? template false := by
        simp [Inlining.refusal?, found]
      rw [present_cons_of_present found, List.findSome?_cons, List.findSome?_cons, alike, ih]
    | false =>
      have skipped : inlining.refusal? template false = none := by
        simp [Inlining.refusal?, found]
      rw [present_cons_of_absent found, List.findSome?_cons, skipped, ih]

theorem present_present (template : Asset) (inlinings : List Inlining) :
    present template (present template inlinings) = present template inlinings := by
  simp [present]

theorem fromTemplate_lenient (template : Asset) (inlinings : List Inlining) :
    (fromTemplate template inlinings false).1 = (fromTemplate template (present template inlinings) true).1 := by
  cases answer : (fromTemplate template inlinings false).1 with
  | error error =>
    rw [fromTemplate_eq_error_iff, ← refusal?_present] at answer
    exact (fromTemplate_eq_error_iff.mpr answer).symm
  | ok html =>
    rw [fromTemplate_eq_ok_iff, ← refusal?_present] at answer
    exact (fromTemplate_eq_ok_iff.mpr (by rwa [present_present])).symm

theorem fromTemplate_of_strict {html : String} (made : (fromTemplate template inlinings true).1 = .ok html) :
    fromTemplate template inlinings false = (.ok html, []) := by
  obtain ⟨accepted, rfl⟩ := fromTemplate_eq_ok_iff.mp made
  rw [List.findSome?_eq_none_iff] at accepted
  have noneSkipped : (inlinings.filter fun inlining => !inlining.isPresent template) = [] := by
    rw [List.filter_eq_nil_iff]
    intro inlining member
    simp [(Inlining.accepted_of_strict (accepted inlining member)).1]
  have lenient : ∀ inlining ∈ inlinings, inlining.refusal? template false = none :=
    fun inlining member => (Inlining.accepted_of_strict (accepted inlining member)).2
  apply Prod.ext
  · exact fromTemplate_eq_ok_iff.mpr ⟨List.findSome?_eq_none_iff.mpr lenient, rfl⟩
  · rw [fromTemplate_events (List.append_nil inlinings).symm lenient nofun, noneSkipped]
    rfl

theorem strict_of_fromTemplate {html : String} (made : fromTemplate template inlinings false = (.ok html, [])) :
    (fromTemplate template inlinings true).1 = .ok html := by
  have answer : (fromTemplate template inlinings false).1 = .ok html := congrArg Prod.fst made
  have silent : (fromTemplate template inlinings false).2 = [] := congrArg Prod.snd made
  have accepted := List.findSome?_eq_none_iff.mp (fromTemplate_eq_ok_iff.mp answer).1
  rw [fromTemplate_events (List.append_nil inlinings).symm accepted nofun, List.map_eq_nil_iff,
    List.filter_eq_nil_iff] at silent
  have whole : present template inlinings = inlinings := by
    rw [present, List.filter_eq_self]
    intro inlining member
    simpa using silent inlining member
  rw [fromTemplate_lenient, whole] at answer
  exact answer

end Answer

/-- The exact outcome of a page made from a template, in both modes, and how they agree. The first inlining
that is refused gives the error; without one the page is the template with the blocks of all inlinings whose
markers occur. Skipped inlinings are warned of as far as the work goes, and if there is none the two modes
make the same page. -/
theorem fromTemplate_modes (template : Asset) (inlinings : List Inlining) :
    (∀ inlining : Inlining, inlining.isPresent template = true ↔ inlining.key <:+: template.text.toList) ∧
    (∀ strict error, (fromTemplate template inlinings strict).1 = .error error ↔
      ∃ before inlining after, inlinings = before ++ inlining :: after ∧
        (∀ earlier ∈ before, ∀ other, ¬ earlier.Refused template strict other) ∧
        inlining.Refused template strict error) ∧
    (∀ strict html, (fromTemplate template inlinings strict).1 = .ok html ↔
      (∀ inlining ∈ inlinings, ∀ error, ¬ inlining.Refused template strict error) ∧
        (∀ inlining ∈ present template inlinings, inlining.block = .ok inlining.shown) ∧
        html = replaceAll template.text
          ((present template inlinings).map fun inlining => (inlining.marker, inlining.shown))) ∧
    (∀ strict before after, inlinings = before ++ after →
      (∀ inlining ∈ before, ∀ error, ¬ inlining.Refused template strict error) →
      (∀ inlining, after.head? = some inlining → ∃ error, inlining.Refused template strict error) →
      (fromTemplate template inlinings strict).2 =
        (before.filter fun inlining => !inlining.isPresent template).map (Inlining.warning template)) ∧
    (fromTemplate template inlinings false).1 = (fromTemplate template (present template inlinings) true).1 ∧
    (∀ html, (fromTemplate template inlinings true).1 = .ok html →
      fromTemplate template inlinings false = (.ok html, [])) ∧
    ∀ html, fromTemplate template inlinings false = (.ok html, []) →
      (fromTemplate template inlinings true).1 = .ok html := by
  refine ⟨fun inlining => Inlining.isPresent_iff, ?_, ?_, ?_, fromTemplate_lenient template inlinings,
    fun _ => fromTemplate_of_strict, fun _ => strict_of_fromTemplate⟩
  · intro strict error
    simp only [Inlining.not_refused_iff, fromTemplate_eq_error_iff, List.findSome?_eq_some_iff]
    simp only [Inlining.refused_iff]
    constructor
    · rintro ⟨before, inlining, after, whole, refused, accepted⟩
      exact ⟨before, inlining, after, whole, accepted, refused⟩
    · rintro ⟨before, inlining, after, whole, accepted, refused⟩
      exact ⟨before, inlining, after, whole, refused, accepted⟩
  · intro strict html
    simp only [fromTemplate_eq_ok_iff, List.findSome?_eq_none_iff, Inlining.not_refused_iff]
    constructor
    · rintro ⟨accepted, rfl⟩
      refine ⟨accepted, ?_, rfl⟩
      intro inlining member
      obtain ⟨among, found⟩ := List.mem_filter.mp member
      exact Inlining.block_eq_shown found (accepted inlining among)
    · rintro ⟨accepted, _, made⟩
      exact ⟨accepted, made⟩
  · intro strict before after whole accepted stops
    simp only [Inlining.not_refused_iff] at accepted
    refine fromTemplate_events whole accepted ?_
    intro inlining first accepts
    obtain ⟨error, refused⟩ := stops inlining first
    exact Inlining.not_refused_iff.mpr accepts error refused

end PageInliner.Page
