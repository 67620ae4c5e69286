import PageInliner.Config.Selection
import PageInliner.Config.Validation

/-!
# Configurations that are accepted

A configuration is accepted if every bundle has what its strategy needs and no two of them share a name. The
settings of a build leave that as it is.
-/

set_option autoImplicit false

namespace PageInliner

namespace Diagnostic

theorem fault_eq_nil_iff {condition : Bool} {field message : String} :
    fault condition field message = [] ↔ condition = false := by
  cases condition <;> simp [fault]

theorem hinted_eq_nil_iff {condition : Bool} {field message hint : String} :
    hinted condition field message hint = [] ↔ condition = false := by
  cases condition <;> simp [hinted]

end Diagnostic

open Diagnostic

/-- A rule from which a marker can be replaced. -/
structure MarkerRule.Usable (rule : MarkerRule) : Prop where
  kind : rule.kind ≠ .markup
  marker : rule.marker ≠ ""
  path : rule.path.text ≠ ""

theorem MarkerRule.faults_eq_nil_iff {field : String} {rule : MarkerRule} :
    rule.faults field = [] ↔ rule.Usable := by
  rw [faults, List.append_eq_nil_iff, List.append_eq_nil_iff, fault_eq_nil_iff, fault_eq_nil_iff,
    fault_eq_nil_iff]
  constructor
  · rintro ⟨⟨kind, marker⟩, path⟩
    exact ⟨by simpa using kind, by simpa using marker, by simpa [Path.isEmpty] using path⟩
  · rintro ⟨kind, marker, path⟩
    exact ⟨⟨by simpa using kind, by simpa using marker⟩, by simpa [Path.isEmpty] using path⟩

theorem MarkerRule.allFaults_eq_nil_iff {field : String} {index : Nat} {rules : List MarkerRule} :
    allFaults field index rules = [] ↔ ∀ rule ∈ rules, rule.Usable := by
  induction rules generalizing index with
  | nil => simp [allFaults]
  | cons rule rules ih =>
    rw [allFaults, List.append_eq_nil_iff, faults_eq_nil_iff, ih, List.forall_mem_cons]

namespace Bundle

/-- The bundle has what its strategy cannot do without. -/
def HasParts (bundle : Bundle) : Prop :=
  match bundle.strategy with
  | .markers => bundle.template.isSome = true ∧ bundle.rules ≠ [] ∧ ∀ rule ∈ bundle.rules, rule.Usable
  | .skeleton => bundle.script.isSome = true

structure Usable (bundle : Bundle) : Prop where
  name : Text.allBlank bundle.name.toList = false
  output : bundle.output.text ≠ ""
  parts : bundle.HasParts

theorem strategyFaults_eq_nil_iff {field : String} {bundle : Bundle} :
    bundle.strategyFaults field = [] ↔ bundle.HasParts := by
  unfold strategyFaults HasParts
  cases bundle.strategy with
  | markers =>
    simp only [List.append_eq_nil_iff, hinted_eq_nil_iff, MarkerRule.allFaults_eq_nil_iff,
      Option.isNone_eq_false_iff, List.isEmpty_eq_false_iff, and_assoc, ne_eq]
  | skeleton => simp only [hinted_eq_nil_iff, Option.isNone_eq_false_iff]

theorem faults_eq_nil_iff {field : String} {bundle : Bundle} :
    bundle.faults field = [] ↔ bundle.Usable := by
  rw [faults, List.append_eq_nil_iff, List.append_eq_nil_iff, fault_eq_nil_iff, fault_eq_nil_iff,
    strategyFaults_eq_nil_iff]
  constructor
  · rintro ⟨⟨name, output⟩, parts⟩
    exact ⟨name, by simpa [Path.isEmpty] using output, parts⟩
  · rintro ⟨name, output, parts⟩
    exact ⟨⟨name, by simpa [Path.isEmpty] using output⟩, parts⟩

theorem Usable.name_ne_empty {bundle : Bundle} (usable : bundle.Usable) : bundle.name ≠ "" := by
  intro empty
  have named := usable.name
  rw [empty] at named
  cases named

theorem allFaults_eq_nil_iff {seen : List String} {index : Nat} {bundles : List Bundle} :
    allFaults seen index bundles = [] ↔
      (∀ bundle ∈ bundles, bundle.Usable) ∧ (bundles.map Bundle.name).Nodup ∧
        ∀ bundle ∈ bundles, bundle.name ∉ seen := by
  induction bundles generalizing seen index with
  | nil => simp [allFaults]
  | cons bundle bundles ih =>
    rw [allFaults, List.append_eq_nil_iff, List.append_eq_nil_iff, faults_eq_nil_iff, fault_eq_nil_iff, ih,
      List.forall_mem_cons, List.map_cons, List.nodup_cons, List.forall_mem_cons]
    constructor
    · rintro ⟨⟨usable, unseen⟩, others, distinct, later⟩
      -- A name that is not blank is not empty either, so it counts among those seen.
      have fresh : bundle.name ∉ seen := by
        simpa [usable.name_ne_empty] using unseen
      refine ⟨⟨usable, others⟩, ⟨?_, distinct⟩, fresh, ?_⟩
      · intro again
        obtain ⟨other, among, same⟩ := List.mem_map.mp again
        exact later other among (same ▸ List.mem_cons_self)
      · intro other among old
        exact later other among (List.mem_cons_of_mem _ old)
    · rintro ⟨⟨usable, others⟩, ⟨once, distinct⟩, fresh, later⟩
      refine ⟨⟨usable, by simp [fresh]⟩, others, distinct, ?_⟩
      intro other among old
      rcases List.mem_cons.mp old with same | old
      · exact once (same ▸ List.mem_map_of_mem among)
      · exact later other among old

end Bundle

namespace Config

structure Usable (config : Config) : Prop where
  nonempty : config.bundles ≠ []
  bundles : ∀ bundle ∈ config.bundles, bundle.Usable
  names : (config.bundles.map Bundle.name).Nodup

theorem validate_eq_ok_iff {config : Config} : config.validate = .ok () ↔ config.Usable := by
  have faultless : config.faults = [] ↔
      (∀ bundle ∈ config.bundles, bundle.Usable) ∧ (config.bundles.map Bundle.name).Nodup := by
    rw [faults, Bundle.allFaults_eq_nil_iff]
    simp
  unfold validate
  constructor
  · intro accepted
    split at accepted
    · cases accepted
    · rename_i some
      split at accepted
      · rename_i none
        obtain ⟨usable, distinct⟩ := faultless.mp (List.isEmpty_iff.mp none)
        exact ⟨by simpa using some, usable, distinct⟩
      · cases accepted
  · rintro ⟨nonempty, usable, distinct⟩
    rw [if_neg (by simpa using nonempty), if_pos (List.isEmpty_iff.mpr (faultless.mpr ⟨usable, distinct⟩))]

private theorem allFaults_map_minify (minify : Option Bool) (seen : List String) (index : Nat)
    (bundles : List Bundle) :
    Bundle.allFaults seen index (bundles.map fun bundle : Bundle => { bundle with minify := minify }) =
      Bundle.allFaults seen index bundles := by
  induction bundles generalizing seen index with
  | nil => rfl
  | cons bundle bundles ih =>
    rw [List.map_cons, Bundle.allFaults, Bundle.allFaults, ih]
    rfl

theorem names_withOptions (config : Config) (options : BuildOptions) :
    (config.withOptions options).bundles.map Bundle.name = config.bundles.map Bundle.name := by
  unfold withOptions
  cases options.minify with
  | none => rfl
  | some minify => simp [withMinify]

theorem validate_withOptions (config : Config) (options : BuildOptions) :
    (config.withOptions options).validate = config.validate := by
  unfold withOptions
  cases options.minify with
  | none => rfl
  | some minify =>
    have sameFaults : (config.withMinify minify).faults = config.faults :=
      allFaults_map_minify none [] 0 config.bundles
    have sameCount : (config.withMinify minify).bundles.isEmpty = config.bundles.isEmpty :=
      List.isEmpty_map
    change (config.withMinify minify).validate = config.validate
    rw [validate, validate, sameFaults, sameCount]

theorem validate_foldl_withOptions (config : Config) (options : List BuildOptions) :
    (options.foldl withOptions config).validate = config.validate := by
  induction options generalizing config with
  | nil => rfl
  | cons first options ih => rw [List.foldl_cons, ih, validate_withOptions]

theorem names_foldl_withOptions (config : Config) (options : List BuildOptions) :
    (options.foldl withOptions config).bundles.map Bundle.name = config.bundles.map Bundle.name := by
  induction options generalizing config with
  | nil => rfl
  | cons first options ih => rw [List.foldl_cons, ih, names_withOptions]

end Config

end PageInliner
