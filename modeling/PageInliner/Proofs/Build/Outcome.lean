import PageInliner.Proofs.Build.Embedding
import PageInliner.Proofs.Build.Run
import PageInliner.Proofs.Config.Acceptance

/-!
# How a run of an accepted configuration can end

Once a configuration is accepted, the inputs that are read for a bundle are those that its page is put together
from: none is missing and none is left over. So a bundle can only fail for what is in its files or for what the
file system refuses.
-/

set_option autoImplicit false

namespace PageInliner

open Page

namespace Bundle

variable {bundle : Bundle} {inputs : List Asset}

private theorem exists_template (markers : bundle.strategy = .markers) (parts : bundle.HasParts)
    (kinds : inputs.map Asset.kind = bundle.inputs.map Asset.Source.kind) :
    ∃ template rest, inputs = template :: rest ∧ rest.length = bundle.rules.length := by
  simp only [HasParts, markers] at parts
  obtain ⟨path, isTemplate⟩ := Option.isSome_iff_exists.mp parts.1
  have count := congrArg List.length kinds
  simp only [Bundle.inputs, markers, isTemplate, Option.map_some, Option.toList_some, List.length_map,
    List.length_append, List.length_singleton] at count
  cases inputs with
  | nil =>
    rw [List.length_nil] at count
    omega
  | cons template rest =>
    refine ⟨template, rest, rfl, ?_⟩
    rw [List.length_cons] at count
    omega

theorem map_marker_inlinings (minify : Bool) (sameLength : inputs.length = bundle.rules.length) :
    (bundle.inlinings minify inputs).map Inlining.marker = bundle.rules.map MarkerRule.marker := by
  rw [inlinings, List.map_zipWith, ← List.map_uncurry_zip_eq_zipWith]
  change (bundle.rules.zip inputs).map (MarkerRule.marker ∘ Prod.fst) = _
  rw [← List.map_map, List.map_fst_zip (Nat.le_of_eq sameLength.symm)]

theorem map_asset_inlinings (minify : Bool) (sameLength : inputs.length = bundle.rules.length) :
    (bundle.inlinings minify inputs).map Inlining.asset = inputs.map (Asset.prepared minify) := by
  rw [inlinings, List.map_zipWith, ← List.map_uncurry_zip_eq_zipWith]
  change (bundle.rules.zip inputs).map (Asset.prepared minify ∘ Prod.snd) = _
  rw [← List.map_map, List.map_snd_zip (Nat.le_of_eq sameLength)]

private theorem exists_contents (minify : Bool) (skeleton : bundle.strategy = .skeleton)
    (parts : bundle.HasParts) (kinds : inputs.map Asset.kind = bundle.inputs.map Asset.Source.kind) :
    ∃ contents, bundle.contents minify inputs = .ok contents := by
  simp only [HasParts, skeleton] at parts
  have count := congrArg List.length kinds
  simp only [Bundle.inputs, skeleton, List.length_map, List.length_append] at count
  -- The script comes first, or second behind the style; in both cases there are enough inputs for it.
  have there : (if bundle.style.isSome then inputs.tail else inputs) ≠ [] := by
    obtain ⟨path, isScript⟩ := Option.isSome_iff_exists.mp parts
    rw [isScript] at count
    intro nothing
    have short := congrArg List.length nothing
    cases style : bundle.style with
    | none =>
      simp only [style, Option.isSome_none, Bool.false_eq_true, ↓reduceIte, Option.map_some,
        Option.toList_some, List.length_cons, List.length_nil] at count short
      omega
    | some path =>
      simp only [style, Option.isSome_some, ↓reduceIte, Option.map_some, Option.toList_some,
        List.length_cons, List.length_nil, List.length_tail] at count short
      omega
  obtain ⟨script, rest, taken⟩ := List.exists_cons_of_ne_nil there
  unfold contents
  cases style : bundle.style with
  | none =>
    simp only [style, Option.isSome_none, Bool.false_eq_true, ↓reduceIte] at taken
    simp only [parts, taken, Option.isSome_none, Bool.false_eq_true, ↓reduceIte, List.head?_cons]
    exact ⟨_, rfl⟩
  | some path =>
    simp only [style, Option.isSome_some, ↓reduceIte] at taken
    simp only [parts, taken, Option.isSome_some, ↓reduceIte, List.head?_cons]
    exact ⟨_, rfl⟩

private theorem exists_eq_of_mapError {α : Type} {answer : Except BuildError α} {failure : Failure}
    (failed : answer.mapError Failure.bundle = .error failure) : ∃ error, failure = .bundle error := by
  cases answer with
  | error error =>
    cases failed
    exact ⟨error, rfl⟩
  | ok value => cases failed

private theorem assemble_eq_error {strict minify : Bool} {failure : Failure} (parts : bundle.HasParts)
    (kinds : inputs.map Asset.kind = bundle.inputs.map Asset.Source.kind)
    (failed : (bundle.assemble strict minify inputs).1 = .error failure) :
    ∃ error, failure = .bundle error := by
  unfold assemble at failed
  cases strategy : bundle.strategy with
  | markers =>
    obtain ⟨template, rest, rfl, _⟩ := exists_template strategy parts kinds
    rw [strategy] at failed
    exact exists_eq_of_mapError failed
  | skeleton =>
    obtain ⟨contents, filled⟩ := exists_contents minify strategy parts kinds
    rw [strategy] at failed
    dsimp only at failed
    rw [assembleSkeleton, filled] at failed
    exact exists_eq_of_mapError failed

end Bundle

theorem Machine.draft_eq_error {machine : Machine} {bundle : Bundle} {config : Config} {failure : Failure}
    (parts : bundle.HasParts) (failed : machine.draft bundle config = .error failure) :
    ∃ error, failure = .bundle error := by
  unfold Machine.draft at failed
  split at failed
  case h_1 error _ =>
    cases failed
    exact ⟨error, rfl⟩
  case h_2 inputs read =>
    cases page : (bundle.assemble config.strictMarkers (bundle.minifies config.minify) inputs).1 with
    | error other =>
      rw [page] at failed
      cases failed
      exact Bundle.assemble_eq_error parts (Machine.kinds_of_inputs read) page
    | ok html =>
      rw [page] at failed
      cases failed

theorem Bundle.Stops.exists_eq_bundle {config : Config} {bundle : Bundle} {before after : Machine}
    {failure : Failure} (stops : bundle.Stops config before failure after) (parts : bundle.HasParts) :
    ∃ error, failure = .bundle error := by
  cases stops with
  | drafting drafted =>
    obtain ⟨_, spec⟩ := run_draft bundle config before
    rw [drafted, Prod.mk.injEq] at spec
    exact Machine.draft_eq_error parts spec.1.symm
  | writing => exact ⟨_, rfl⟩

namespace Config

/-- A run of an accepted configuration, with any settings given later, succeeds or ends with the error of one of
the bundles that are asked for, told under its name. What is missing in a bundle can never be the reason: its
inputs are a template and one file for each rule, all of which are paired, or they have the script among them. -/
theorem build_ok_or_bundle_error {config : Config} (accepted : config.validate = .ok ())
    (settings : List BuildOptions) {names : List String}
    (known : ∀ name ∈ names, name ∈ config.bundles.map Bundle.name) (machine : Machine) :
    let config := settings.foldl withOptions config
    (∃ bundles, config.select names = .ok bundles ∧
      ((∃ after, (config.build names : StateM Machine (Except Failure Unit)).run machine =
          (.ok (), after)) ∨
        ∃ failing ∈ bundles, ∃ error middle after,
          (config.build names : StateM Machine (Except Failure Unit)).run machine =
            (.error (.building failing.name (.bundle error)), after) ∧
          (failing.build config : StateM Machine (Except Failure Unit)).run middle =
            (.error (.bundle error), after))) ∧
    ∀ bundle ∈ config.bundles, ∀ (files : Machine) (inputs : List Asset) (minify : Bool),
      files.inputs (bundle.directory config.root) bundle.inputs = .ok inputs →
        match bundle.strategy with
        | .markers => ∃ template rest, inputs = template :: rest ∧ rest.length = bundle.rules.length ∧
            (bundle.inlinings minify rest).map Inlining.marker = bundle.rules.map MarkerRule.marker ∧
            (bundle.inlinings minify rest).map Inlining.asset = rest.map (Asset.prepared minify)
        | .skeleton => ∃ contents, bundle.contents minify inputs = .ok contents := by
  intro config
  have usable : config.Usable := by
    rw [← validate_eq_ok_iff, validate_foldl_withOptions]
    exact accepted
  rw [← names_foldl_withOptions _ settings] at known
  constructor
  · obtain ⟨bundles, selected⟩ := exists_select known
    refine ⟨bundles, selected, ?_⟩
    rcases run_build_of_select selected machine with
      ⟨middle, history, _, runs⟩ | ⟨failing, among, failure, middle, after, runs, fails, stops⟩
    · exact .inl ⟨_, runs⟩
    · have member := (select_sublist selected).subset among
      obtain ⟨error, rfl⟩ := stops.exists_eq_bundle (usable.bundles failing member).parts
      exact .inr ⟨failing, among, error, middle, after, runs, fails⟩
  · intro bundle member files inputs minify read
    have parts := (usable.bundles bundle member).parts
    have kinds := Machine.kinds_of_inputs read
    cases strategy : bundle.strategy with
    | markers =>
      obtain ⟨template, rest, rfl, sameLength⟩ := Bundle.exists_template strategy parts kinds
      exact ⟨template, rest, rfl, sameLength, Bundle.map_marker_inlinings minify sameLength,
        Bundle.map_asset_inlinings minify sameLength⟩
    | skeleton => exact Bundle.exists_contents minify strategy parts kinds

/-- The page of the project asked for where there are no files, first minified and then with markers that may be
missing. -/
theorem build_ok_or_bundle_error_no_files :
    let settings : List BuildOptions := [⟨some true, false, false⟩, ⟨none, true, true⟩]
    let machine := Machine.start .empty []
    let config := settings.foldl withOptions standard
    standard.validate = .ok () ∧ (∀ name ∈ ["site"], name ∈ standard.bundles.map Bundle.name) ∧
      ∃ failing ∈ config.bundles, ∃ error after,
        (config.build ["site"] : StateM Machine (Except Failure Unit)).run machine =
          (.error (.building failing.name (.bundle error)), after) := by
  intro settings machine config
  have accepted : standard.validate = .ok () := by
    rw [validate, if_neg (by decide), if_pos (by decide +kernel)]
  have known : ∀ name ∈ ["site"], name ∈ standard.bundles.map Bundle.name := by decide +kernel
  refine ⟨accepted, known, ?_⟩
  obtain ⟨⟨bundles, selected, ends⟩, _⟩ := build_ok_or_bundle_error accepted settings known machine
  rcases ends with ⟨after, runs⟩ | ⟨failing, among, error, _, after, runs, _⟩
  · have failed :
        ((config.build ["site"] : StateM Machine (Except Failure Unit)).run machine).1.isOk = false := by
      decide +kernel
    rw [runs] at failed
    cases failed
  · exact ⟨failing, (select_sublist selected).subset among, error, after, runs⟩

end Config

end PageInliner
