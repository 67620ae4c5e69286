import PageInliner.Proofs.Config.Acceptance
import PageInliner.Proofs.Files.Joining

/-!
# The paths of accepted configurations

In an accepted configuration the output of every bundle and the path of every rule that is used have a name. A
template, script, style or app only has to be given, or not even that, so its path may be empty. An input of
which the path is empty leads to the directory of the inputs and cannot be read.
-/

set_option autoImplicit false

namespace PageInliner

namespace Bundle

/-- None of the paths that a bundle can leave open is given and empty. -/
def NamesParts (bundle : Bundle) : Prop :=
  match bundle.strategy with
  | .markers => bundle.template ≠ some .empty
  | .skeleton => bundle.style ≠ some .empty ∧ bundle.script ≠ some .empty ∧ bundle.app ≠ some .empty

private theorem forall_mem_toList_iff {kind : Asset.Kind} {path? : Option Path} :
    (∀ source ∈ (path?.map (Asset.Source.mk kind)).toList, source.path.text ≠ "") ↔ path? ≠ some .empty := by
  cases path? with
  | none => simp
  | some path => simp [Path.text_eq_empty_iff]

theorem Usable.rule_path {bundle : Bundle} (usable : bundle.Usable) (markers : bundle.strategy = .markers)
    {rule : MarkerRule} (among : rule ∈ bundle.rules) : rule.path.text ≠ "" := by
  have parts := usable.parts
  unfold HasParts at parts
  rw [markers] at parts
  exact (parts.2.2 rule among).path

theorem Usable.inputs_named_iff {bundle : Bundle} (usable : bundle.Usable) :
    (∀ source ∈ bundle.inputs, source.path.text ≠ "") ↔ bundle.NamesParts := by
  unfold inputs NamesParts
  cases strategy : bundle.strategy with
  | markers =>
    have rules : ∀ source ∈ bundle.rules.map MarkerRule.source, source.path.text ≠ "" := by
      intro source member
      obtain ⟨rule, among, rfl⟩ := List.mem_map.mp member
      exact usable.rule_path strategy among
    simp only [List.forall_mem_append, forall_mem_toList_iff]
    exact and_iff_left rules
  | skeleton => simp only [List.forall_mem_append, forall_mem_toList_iff, and_assoc]

end Bundle

namespace Config

variable {config : Config} {bundle : Bundle}

/-- In an accepted configuration outputs and the paths of rules have names. All inputs of a bundle have one just
if no template, style, script or app is given as the empty path. An input that has none resolves to the
directory of the inputs, in which it is no file that could be read. -/
theorem accepted_inputs_named_iff (accepted : config.validate = .ok ()) (among : bundle ∈ config.bundles) :
    bundle.output.text ≠ "" ∧
      (bundle.strategy = .markers → ∀ rule ∈ bundle.rules, rule.path.text ≠ "") ∧
      ((∀ source ∈ bundle.inputs, source.path.text ≠ "") ↔ bundle.NamesParts) ∧
      ∀ source ∈ bundle.inputs, source.path.text = "" →
        ∀ (machine : Machine) (base : Path), base.isAbsolute = true →
          let directory := bundle.directory base
          machine.resolve? (directory.join source.path) = machine.resolve? directory ∧
            ∀ bytes, machine.read (directory.join source.path) ≠ .ok bytes := by
  have usable := (validate_eq_ok_iff.mp accepted).bundles bundle among
  refine ⟨usable.output, fun markers rule member => usable.rule_path markers member,
    usable.inputs_named_iff, ?_⟩
  intro source _ unnamed machine base absolute directory
  have empty : source.path = .empty := Path.text_eq_empty_iff.mp unnamed
  have fromRoot : directory.isAbsolute = true := Path.isAbsolute_join absolute bundle.root
  rw [empty]
  exact ⟨Machine.resolve?_join_empty machine fromRoot,
    Machine.read_ne_ok_of_endsOpen (Path.isAbsolute_join fromRoot _) (Path.endsOpen_join_empty fromRoot)⟩

/-- A bundle that names its script and gives an empty path for its app. -/
def appUnnamed : Config :=
  { standard with bundles := [{ Bundle.demo with app := some .empty }, .site] }

theorem accepted_inputs_named_iff_app_unnamed :
    appUnnamed.validate = .ok () ∧ { Bundle.demo with app := some .empty } ∈ appUnnamed.bundles ∧
      ¬ ∀ source ∈ ({ Bundle.demo with app := some .empty } : Bundle).inputs, source.path.text ≠ "" := by
  have accepted : appUnnamed.validate = .ok () := by decide +kernel
  have among : { Bundle.demo with app := some .empty } ∈ appUnnamed.bundles := List.mem_cons_self
  obtain ⟨_, _, named, _⟩ := accepted_inputs_named_iff accepted among
  refine ⟨accepted, among, fun all => ?_⟩
  obtain ⟨_, _, app⟩ := named.mp all
  exact app rfl

/-- A template, a script, a style and an app are accepted with the empty path. -/
theorem accepted_with_unnamed_inputs :
    ∃ config : Config, config.validate = .ok () ∧
      ∀ kind : Asset.Kind, ∃ bundle ∈ config.bundles, ⟨kind, .empty⟩ ∈ bundle.inputs := by
  refine ⟨{ standard with bundles := [{ Bundle.site with template := some .empty },
    { Bundle.demo with style := some .empty, script := some .empty, app := some .empty }] },
    by decide +kernel, ?_⟩
  intro kind
  cases kind <;> decide +kernel

end Config

end PageInliner
