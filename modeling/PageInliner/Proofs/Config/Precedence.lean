import Mathlib.Data.List.Forall2
import PageInliner.Proofs.Config.Acceptance

/-!
# Settings of builds

What a configuration says once the settings of builds have been applied to it, one after the other. A setting for
minifying is written over what the bundles say themselves, so the three places where minifying can be asked for
are told apart only by what is left: the last setting, else the bundle, else the configuration.
-/

set_option autoImplicit false

namespace PageInliner

/-- The last of the settings for minifying, if any of the builds has one. -/
def BuildOptions.lastMinify? (calls : List BuildOptions) : Option Bool :=
  (calls.filterMap BuildOptions.minify).getLast?

theorem BuildOptions.lastMinify?_cons (call : BuildOptions) (calls : List BuildOptions) :
    lastMinify? (call :: calls) = (lastMinify? calls).or call.minify := by
  unfold lastMinify?
  cases said : call.minify with
  | none => simp [said]
  | some minify => cases later : (calls.filterMap BuildOptions.minify).getLast? <;>
      simp [said, List.getLast?_cons, later]

namespace Bundle

/-- The bundle with nothing to say about minifying once that has been settled elsewhere. -/
def overriddenBy (explicit : Option Bool) (bundle : Bundle) : Bundle :=
  { bundle with minify := if explicit.isSome then none else bundle.minify }

theorem map_overriddenBy_none (bundles : List Bundle) : bundles.map (overriddenBy none) = bundles :=
  List.map_id bundles

theorem overriddenBy_overriddenBy (first second : Option Bool) (bundle : Bundle) :
    (bundle.overriddenBy first).overriddenBy second = bundle.overriddenBy (second.or first) := by
  cases second <;> rfl

theorem minifies_overriddenBy (explicit : Option Bool) (bundle : Bundle) (otherwise : Bool) :
    (bundle.overriddenBy explicit).minifies (explicit.getD otherwise) =
      (explicit.or bundle.minify).getD otherwise := by
  cases explicit <;> rfl

end Bundle

namespace Config

theorem withOptions_eq (config : Config) (options : BuildOptions) :
    config.withOptions options =
      { config with
        minify := options.minify.getD config.minify
        strictMarkers := config.strictMarkers && !options.lenientMarkers
        bundles := config.bundles.map (Bundle.overriddenBy options.minify) } := by
  unfold withOptions
  cases options.minify with
  | none => simp [Bundle.map_overriddenBy_none]
  | some minify => rfl

theorem foldl_withOptions (config : Config) (calls : List BuildOptions) :
    calls.foldl withOptions config =
      { config with
        minify := (BuildOptions.lastMinify? calls).getD config.minify
        strictMarkers := config.strictMarkers && calls.all fun call => !call.lenientMarkers
        bundles := config.bundles.map (Bundle.overriddenBy (BuildOptions.lastMinify? calls)) } := by
  induction calls generalizing config with
  | nil => simp [BuildOptions.lastMinify?, Bundle.map_overriddenBy_none]
  | cons call calls ih =>
    have minify : (BuildOptions.lastMinify? calls).getD (call.minify.getD config.minify) =
        ((BuildOptions.lastMinify? calls).or call.minify).getD config.minify := by
      cases BuildOptions.lastMinify? calls <;> rfl
    simp only [List.foldl_cons, ih, withOptions_eq, BuildOptions.lastMinify?_cons, minify, List.all_cons,
      Bool.and_assoc, List.map_map, Function.comp_def, Bundle.overriddenBy_overriddenBy]

theorem foldl_withOptions_display (display : Display) (calls : List BuildOptions) :
    calls.foldl Display.withOptions display =
      { display with verbose := (calls.getLast?.map BuildOptions.verbose).getD display.verbose } := by
  induction calls generalizing display with
  | nil => rfl
  | cons call calls ih =>
    rw [List.foldl_cons, ih, List.getLast?_cons]
    cases calls.getLast? <;> rfl

/-- After the settings of any row of builds, each bundle is minified as the last explicit setting says, else as it
says itself, else as the configuration did; the markers are strict if they were and no build was lenient, and
details are shown if the last build asked for them. Nothing else has changed, and the configuration is accepted or
refused just as before. -/
theorem settings_precedence (config : Config) (display : Display) (calls : List BuildOptions) :
    let after := calls.foldl withOptions config
    List.Forall₂ (fun before bundle : Bundle =>
        bundle = { before with minify := bundle.minify } ∧
          bundle.minifies after.minify =
            ((calls.filterMap BuildOptions.minify).getLast?.or before.minify).getD config.minify)
      config.bundles after.bundles ∧
    (after.strictMarkers = true ↔
      config.strictMarkers = true ∧ ∀ call ∈ calls, call.lenientMarkers = false) ∧
    calls.foldl Display.withOptions display =
      { display with verbose := (calls.getLast?.map BuildOptions.verbose).getD display.verbose } ∧
    after.root = config.root ∧ after.configPath = config.configPath ∧
    after.validate = config.validate := by
  intro after
  have shape : after = _ := foldl_withOptions config calls
  refine ⟨?_, ?_, foldl_withOptions_display display calls, ?_, ?_, validate_foldl_withOptions config calls⟩
  · rw [shape, List.forall₂_map_right_iff, List.forall₂_same]
    intro bundle _
    exact ⟨rfl, Bundle.minifies_overriddenBy _ bundle config.minify⟩
  · simp [shape]
  · rw [shape]
  · rw [shape]

end Config

end PageInliner
