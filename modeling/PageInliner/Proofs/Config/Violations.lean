import PageInliner.Proofs.Config.Acceptance

/-!
# Violations

What a configuration that has bundles must satisfy, told by the single ways to violate it. Every violation has
its place: the bundle, and in it the name, the output, what the strategy asks for, each of the rules, and at last
the name once more. The faults of a configuration are its violations in the order of their places, each once.
-/

set_option autoImplicit false

namespace PageInliner

open Diagnostic

/-- An item, if a condition holds. -/
def itemIf {α : Type} (condition : Prop) [Decidable condition] (item : α) : List α :=
  if condition then [item] else []

section ItemIf

variable {α : Type} {condition : Prop} [Decidable condition] {item other : α}

theorem mem_itemIf : other ∈ itemIf condition item ↔ other = item ∧ condition := by
  by_cases holds : condition <;> simp [itemIf, holds]

theorem pairwise_itemIf (relation : α → α → Prop) : (itemIf condition item).Pairwise relation := by
  by_cases holds : condition <;> simp [itemIf, holds]

theorem Diagnostic.fault_eq_map (report : α → Diagnostic) (item : α) {check : Bool} {field message : String}
    (same : check = true ↔ condition) (reported : report item = ⟨field, message, none⟩) :
    fault check field message = (itemIf condition item).map report := by
  by_cases holds : condition <;> simp [fault, itemIf, same, holds, reported]

theorem Diagnostic.hinted_eq_map (report : α → Diagnostic) (item : α) {check : Bool}
    {field message hint : String} (same : check = true ↔ condition)
    (reported : report item = ⟨field, message, some hint⟩) :
    hinted check field message hint = (itemIf condition item).map report := by
  by_cases holds : condition <;> simp [hinted, itemIf, same, holds, reported]

end ItemIf

section Numbered

variable {α β : Type} {rows : List α} {entries : α × Nat → List β}

/-- Entries for the rows of a list are in order if those for one row are, and those for a row come before those
for the rows behind it. -/
theorem pairwise_flatMap_zipIdx {relation : β → β → Prop} (inside : ∀ row, (entries row).Pairwise relation)
    (across : ∀ first second, first.2 < second.2 → ∀ former ∈ entries first, ∀ latter ∈ entries second,
      relation former latter) (index : Nat) :
    ((rows.zipIdx index).flatMap entries).Pairwise relation := by
  have numbers : (rows.zipIdx index).Pairwise fun first second => first.2 < second.2 := by
    rw [← List.pairwise_map (f := Prod.snd), List.zipIdx_map_snd]
    exact List.pairwise_lt_range'
  rw [List.pairwise_flatMap]
  exact ⟨fun row _ => inside row, numbers.imp fun before => across _ _ before⟩

end Numbered

namespace MarkerRule

/-- What can be wrong with a rule. -/
inductive Violation where
  | kind
  | marker
  | path
  deriving Repr, DecidableEq

namespace Violation

def number : Violation → Nat
  | kind => 0
  | marker => 1
  | path => 2

/-- How the violation is reported, if `field` says where the rule stands. -/
def diagnostic (field : String) : Violation → Diagnostic
  | kind => ⟨field ++ ".kind", "inline rules must be `style` or `script`", none⟩
  | marker => ⟨field ++ ".marker", "marker must not be empty", none⟩
  | path => ⟨field ++ ".path", "path must not be empty", none⟩

end Violation

def Violates (rule : MarkerRule) : Violation → Prop
  | .kind => rule.kind = .markup
  | .marker => rule.marker = ""
  | .path => rule.path.text = ""

def violations (rule : MarkerRule) : List Violation :=
  itemIf (rule.kind = .markup) .kind ++ itemIf (rule.marker = "") .marker ++ itemIf (rule.path.text = "") .path

theorem faults_eq_map (field : String) (rule : MarkerRule) :
    rule.faults field = rule.violations.map (Violation.diagnostic field) := by
  let report := Violation.diagnostic field
  rw [faults, violations, List.map_append, List.map_append, Diagnostic.fault_eq_map report .kind beq_iff_eq rfl,
    Diagnostic.fault_eq_map report .marker String.isEmpty_iff rfl,
    Diagnostic.fault_eq_map report .path Path.isEmpty_iff rfl]

theorem mem_violations_iff {rule : MarkerRule} {violation : Violation} :
    violation ∈ rule.violations ↔ rule.Violates violation := by
  cases violation <;> simp [violations, mem_itemIf, Violates]

theorem pairwise_violations (rule : MarkerRule) :
    rule.violations.Pairwise fun first second => first.number < second.number := by
  simp [violations, List.pairwise_append, pairwise_itemIf, mem_itemIf, Violation.number, or_imp, forall_and]

theorem usable_iff {rule : MarkerRule} :
    rule.Usable ↔ (rule.kind = .style ∨ rule.kind = .script) ∧ rule.marker ≠ "" ∧ rule.path.text ≠ "" := by
  have embedded : rule.kind ≠ .markup ↔ rule.kind = .style ∨ rule.kind = .script := by
    cases rule.kind <;> decide
  rw [← embedded]
  exact ⟨fun ⟨kind, marker, path⟩ => ⟨kind, marker, path⟩, fun ⟨kind, marker, path⟩ => ⟨kind, marker, path⟩⟩

end MarkerRule

namespace Bundle

/-- What can be wrong with a bundle. -/
inductive Violation where
  | name
  | output
  | template
  | noRules
  | script
  /-- A violation of the rule of that number. -/
  | rule (number : Nat) (violation : MarkerRule.Violation)
  /-- The name of a bundle before it. -/
  | duplicate (name : String)
  deriving Repr, DecidableEq

namespace Violation

/-- The place of the violation among all that can be wrong with the bundle. -/
def rank : Violation → List Nat
  | name => [0]
  | output => [1]
  | template => [2]
  | noRules => [3]
  | script => [4]
  | rule number violation => [5, number, violation.number]
  | duplicate _ => [6]

/-- How the violation is reported, if `field` says where the bundle stands. -/
def diagnostic (field : String) : Violation → Diagnostic
  | name => ⟨field ++ ".name", "bundle name must not be empty", none⟩
  | output => ⟨field ++ ".output", "output path must not be empty", none⟩
  | template => ⟨field ++ ".template", "markers strategy requires a template",
      some "set `template = \"index.html\"`"⟩
  | noRules => ⟨field ++ ".inline", "markers strategy requires at least one [[bundle.inline]] rule",
      some "add a rule with `kind`, `marker` and `path`"⟩
  | script => ⟨field ++ ".script", "skeleton strategy requires a primary script",
      some "set `script = \"lxclua.js\"`"⟩
  | rule number violation => violation.diagnostic s!"{field}.inline[{number}]"
  | duplicate used => ⟨field ++ ".name", s!"duplicate bundle name `{used}`", none⟩

end Violation

/-- The bundle is wrong in this way; `earlier` are the bundles before it. -/
def Violates (earlier : List Bundle) (bundle : Bundle) : Violation → Prop
  | .name => ∀ c ∈ bundle.name.toList, Text.isBlank c = true
  | .output => bundle.output.text = ""
  | .template => bundle.strategy = .markers ∧ bundle.template = none
  | .noRules => bundle.strategy = .markers ∧ bundle.rules = []
  | .script => bundle.strategy = .skeleton ∧ bundle.script = none
  | .rule number violation =>
    bundle.strategy = .markers ∧ ∃ rule, bundle.rules[number]? = some rule ∧ rule.Violates violation
  | .duplicate name => name = bundle.name ∧ name ≠ "" ∧ ∃ other ∈ earlier, other.name = name

/-- The violations of the rules, in the order of the rules. -/
def ruleViolations (index : Nat) (rules : List MarkerRule) : List Violation :=
  (rules.zipIdx index).flatMap fun numbered => numbered.1.violations.map (.rule numbered.2)

def strategyViolations (bundle : Bundle) : List Violation :=
  match bundle.strategy with
  | .markers =>
    itemIf (bundle.template = none) .template ++ itemIf (bundle.rules = []) .noRules ++
      ruleViolations 0 bundle.rules
  | .skeleton => itemIf (bundle.script = none) .script

/-- All violations of a bundle that stands behind others, in the order of their places. -/
def violations (earlier : List Bundle) (bundle : Bundle) : List Violation :=
  itemIf (Text.allBlank bundle.name.toList = true) .name ++ itemIf (bundle.output.text = "") .output ++
    bundle.strategyViolations ++
    itemIf (bundle.name ≠ "" ∧ ∃ other ∈ earlier, other.name = bundle.name) (.duplicate bundle.name)

theorem allFaults_rules_eq_map (field : String) (index : Nat) (rules : List MarkerRule) :
    MarkerRule.allFaults field index rules = (ruleViolations index rules).map (Violation.diagnostic field) := by
  induction rules generalizing index with
  | nil => rfl
  | cons rule rules ih =>
    rw [MarkerRule.allFaults, ruleViolations, List.zipIdx_cons, List.flatMap_cons, List.map_append, ih,
      MarkerRule.faults_eq_map, List.map_map]
    rfl

theorem strategyFaults_eq_map (field : String) (bundle : Bundle) :
    bundle.strategyFaults field = bundle.strategyViolations.map (Violation.diagnostic field) := by
  let report := Violation.diagnostic field
  unfold strategyFaults strategyViolations
  cases bundle.strategy with
  | markers =>
    dsimp only
    rw [List.map_append, List.map_append, allFaults_rules_eq_map,
      Diagnostic.hinted_eq_map report .template Option.isNone_iff_eq_none rfl,
      Diagnostic.hinted_eq_map report .noRules List.isEmpty_iff rfl]
  | skeleton => exact Diagnostic.hinted_eq_map report .script Option.isNone_iff_eq_none rfl

theorem mem_ruleViolations_iff {rules : List MarkerRule} {violation : Violation} :
    violation ∈ ruleViolations 0 rules ↔
      ∃ number inner, violation = .rule number inner ∧
        ∃ rule, rules[number]? = some rule ∧ rule.Violates inner := by
  simp only [ruleViolations, List.mem_flatMap, Prod.exists, List.mk_mem_zipIdx_iff_getElem?, List.mem_map,
    MarkerRule.mem_violations_iff]
  constructor
  · rintro ⟨rule, number, found, inner, wrong, rfl⟩
    exact ⟨number, inner, rfl, rule, found, wrong⟩
  · rintro ⟨number, inner, rfl, rule, found, wrong⟩
    exact ⟨rule, number, found, inner, wrong, rfl⟩

theorem mem_strategyViolations_iff {bundle : Bundle} {violation : Violation} :
    violation ∈ bundle.strategyViolations ↔
      bundle.strategy = .markers ∧ (violation = .template ∧ bundle.template = none ∨
        violation = .noRules ∧ bundle.rules = [] ∨ violation ∈ ruleViolations 0 bundle.rules) ∨
      bundle.strategy = .skeleton ∧ violation = .script ∧ bundle.script = none := by
  unfold strategyViolations
  cases bundle.strategy <;> simp [mem_itemIf]

theorem mem_violations_iff {earlier : List Bundle} {bundle : Bundle} {violation : Violation} :
    violation ∈ bundle.violations earlier ↔ bundle.Violates earlier violation := by
  simp only [violations, List.mem_append, mem_itemIf, mem_strategyViolations_iff, mem_ruleViolations_iff]
  cases violation with
  | duplicate used =>
    have renamed : used = bundle.name →
        ((bundle.name ≠ "" ∧ ∃ other ∈ earlier, other.name = bundle.name) ↔
          (used ≠ "" ∧ ∃ other ∈ earlier, other.name = used)) := by
      rintro rfl
      rfl
    simpa [Violates] using renamed
  | _ => simp [Violates, Text.allBlank, and_assoc]

theorem pairwise_ruleViolations (rules : List MarkerRule) :
    (ruleViolations 0 rules).Pairwise fun first second => first.rank < second.rank := by
  apply pairwise_flatMap_zipIdx
  · intro numbered
    rw [List.pairwise_map]
    refine numbered.1.pairwise_violations.imp ?_
    intro first second before
    simpa [Violation.rank, List.cons_lt_cons_iff] using before
  · intro first second before former isFormer latter isLatter
    obtain ⟨_, _, rfl⟩ := List.mem_map.mp isFormer
    obtain ⟨_, _, rfl⟩ := List.mem_map.mp isLatter
    simp [Violation.rank, List.cons_lt_cons_iff, before]

theorem pairwise_strategyViolations (bundle : Bundle) :
    bundle.strategyViolations.Pairwise fun first second => first.rank < second.rank := by
  unfold strategyViolations
  cases bundle.strategy with
  | markers =>
    dsimp only
    simp only [List.pairwise_append, pairwise_itemIf, pairwise_ruleViolations, List.mem_append, mem_itemIf,
      mem_ruleViolations_iff, true_and]
    constructor
    · rintro _ ⟨rfl, _⟩ _ ⟨rfl, _⟩
      decide
    · rintro _ (⟨rfl, _⟩ | ⟨rfl, _⟩) _ ⟨_, _, rfl, _⟩
      all_goals simp [Violation.rank, List.cons_lt_cons_iff]
  | skeleton => exact pairwise_itemIf _

/-- What the strategy asks for has its place behind the output and before the second look at the name. -/
theorem rank_of_mem_strategyViolations {bundle : Bundle} {violation : Violation}
    (member : violation ∈ bundle.strategyViolations) :
    Violation.output.rank < violation.rank ∧ ∀ used, violation.rank < (Violation.duplicate used).rank := by
  rw [mem_strategyViolations_iff, mem_ruleViolations_iff] at member
  rcases member with ⟨_, ⟨rfl, _⟩ | ⟨rfl, _⟩ | ⟨_, _, rfl, _⟩⟩ | ⟨_, rfl, _⟩
  all_goals simp [Violation.rank, List.cons_lt_cons_iff]

theorem pairwise_violations (earlier : List Bundle) (bundle : Bundle) :
    (bundle.violations earlier).Pairwise fun first second => first.rank < second.rank := by
  have start : Violation.name.rank < Violation.output.rank := by decide
  simp only [violations, List.pairwise_append, pairwise_itemIf, pairwise_strategyViolations, List.mem_append,
    mem_itemIf, true_and]
  refine ⟨⟨?_, ?_⟩, ?_⟩
  · rintro _ ⟨rfl, _⟩ _ ⟨rfl, _⟩
    exact start
  · rintro _ (⟨rfl, _⟩ | ⟨rfl, _⟩) violation member
    · exact List.lt_trans start (rank_of_mem_strategyViolations member).1
    · exact (rank_of_mem_strategyViolations member).1
  · rintro violation ((⟨rfl, _⟩ | ⟨rfl, _⟩) | member) _ ⟨rfl, _⟩
    · simp [Violation.rank, List.cons_lt_cons_iff]
    · simp [Violation.rank, List.cons_lt_cons_iff]
    · exact (rank_of_mem_strategyViolations member).2 _

/-- The faults of a bundle, and behind them the fault of a name that was used before it. -/
theorem faults_eq_map (field : String) (earlier : List Bundle) (bundle : Bundle) :
    bundle.faults field ++ fault (!bundle.name.isEmpty && (earlier.map Bundle.name).contains bundle.name)
        (field ++ ".name") s!"duplicate bundle name `{bundle.name}`" =
      (bundle.violations earlier).map (Violation.diagnostic field) := by
  let report := Violation.diagnostic field
  have used : (!bundle.name.isEmpty && (earlier.map Bundle.name).contains bundle.name) = true ↔
      bundle.name ≠ "" ∧ ∃ other ∈ earlier, other.name = bundle.name := by
    simp
  rw [faults, violations, List.map_append, List.map_append, List.map_append, strategyFaults_eq_map,
    Diagnostic.fault_eq_map report .name Iff.rfl rfl,
    Diagnostic.fault_eq_map report .output Path.isEmpty_iff rfl,
    Diagnostic.fault_eq_map report (.duplicate bundle.name) used rfl]

theorem usable_iff {bundle : Bundle} :
    bundle.Usable ↔
      (∃ c ∈ bundle.name.toList, Text.isBlank c = false) ∧ bundle.output.text ≠ "" ∧
      (bundle.strategy = .markers → bundle.template.isSome = true ∧ bundle.rules ≠ [] ∧
        ∀ rule ∈ bundle.rules, (rule.kind = .style ∨ rule.kind = .script) ∧ rule.marker ≠ "" ∧
          rule.path.text ≠ "") ∧
      (bundle.strategy = .skeleton → bundle.script.isSome = true) := by
  have named : Text.allBlank bundle.name.toList = false ↔ ∃ c ∈ bundle.name.toList, Text.isBlank c = false := by
    simp [Text.allBlank]
  have parts : bundle.HasParts ↔
      (bundle.strategy = .markers → bundle.template.isSome = true ∧ bundle.rules ≠ [] ∧
        ∀ rule ∈ bundle.rules, (rule.kind = .style ∨ rule.kind = .script) ∧ rule.marker ≠ "" ∧
          rule.path.text ≠ "") ∧
      (bundle.strategy = .skeleton → bundle.script.isSome = true) := by
    unfold HasParts
    cases bundle.strategy <;> simp [MarkerRule.usable_iff]
  rw [← named, ← parts]
  exact ⟨fun ⟨name, output, parts⟩ => ⟨name, output, parts⟩, fun ⟨name, output, parts⟩ => ⟨name, output, parts⟩⟩

end Bundle

namespace Config

theorem usable_iff {config : Config} :
    config.Usable ↔ config.bundles ≠ [] ∧ (∀ bundle ∈ config.bundles, bundle.Usable) ∧
      (config.bundles.map Bundle.name).Nodup :=
  ⟨fun ⟨nonempty, bundles, names⟩ => ⟨nonempty, bundles, names⟩,
    fun ⟨nonempty, bundles, names⟩ => ⟨nonempty, bundles, names⟩⟩

/-- A violation of the bundle of that number. -/
structure Violation where
  bundle : Nat
  violation : Bundle.Violation
  deriving Repr, DecidableEq

namespace Violation

/-- The place of the violation among all that can be wrong with the configuration. -/
def rank (violation : Violation) : List Nat :=
  violation.bundle :: violation.violation.rank

/-- How the violation is reported. -/
def diagnostic (violation : Violation) : Diagnostic :=
  violation.violation.diagnostic s!"bundle[{violation.bundle}]"

end Violation

/-- The configuration has a bundle of that number, and it is wrong in this way. -/
def Violates (config : Config) (violation : Violation) : Prop :=
  ∃ bundle, config.bundles[violation.bundle]? = some bundle ∧
    bundle.Violates (config.bundles.take violation.bundle) violation.violation

/-- All violations of a configuration, in the order of their places. -/
def violations (config : Config) : List Violation :=
  config.bundles.zipIdx.flatMap fun numbered =>
    (numbered.1.violations (config.bundles.take numbered.2)).map (.mk numbered.2)

theorem mem_violations_iff {config : Config} {violation : Violation} :
    violation ∈ config.violations ↔ config.Violates violation := by
  obtain ⟨index, inner⟩ := violation
  simp only [violations, Violates, List.mem_flatMap, Prod.exists, List.mk_mem_zipIdx_iff_getElem?, List.mem_map,
    Bundle.mem_violations_iff]
  constructor
  · rintro ⟨bundle, _, found, _, wrong, ⟨⟩⟩
    exact ⟨bundle, found, wrong⟩
  · rintro ⟨bundle, found, wrong⟩
    exact ⟨bundle, index, found, inner, wrong, rfl⟩

theorem pairwise_violations (config : Config) :
    config.violations.Pairwise fun first second => first.rank < second.rank := by
  apply pairwise_flatMap_zipIdx
  · intro numbered
    rw [List.pairwise_map]
    refine (Bundle.pairwise_violations _ numbered.1).imp ?_
    intro first second before
    exact List.cons_lt_cons_iff.mpr (.inr ⟨rfl, before⟩)
  · intro first second before former isFormer latter isLatter
    obtain ⟨_, _, rfl⟩ := List.mem_map.mp isFormer
    obtain ⟨_, _, rfl⟩ := List.mem_map.mp isLatter
    exact List.cons_lt_cons_iff.mpr (.inl before)

/-- The names that have been seen on the way to a bundle are those of the bundles before it. -/
private theorem allFaults_eq_map (seen : List String) (earlier bundles : List Bundle)
    (known : ∀ name, name ∈ seen ↔ name ∈ earlier.map Bundle.name) :
    Bundle.allFaults seen earlier.length bundles =
      ((bundles.zipIdx earlier.length).flatMap fun numbered =>
        (numbered.1.violations ((earlier ++ bundles).take numbered.2)).map (.mk numbered.2)).map
        Violation.diagnostic := by
  induction bundles generalizing seen earlier with
  | nil => rfl
  | cons bundle bundles ih =>
    have same : seen.contains bundle.name = (earlier.map Bundle.name).contains bundle.name := by
      simp only [List.contains_eq_mem, known]
    have later := ih (bundle.name :: seen) (earlier ++ [bundle]) (by simp [known, or_comm])
    rw [List.length_append, List.length_singleton, List.append_assoc, List.singleton_append] at later
    simp only [Bundle.allFaults]
    rw [later, same, List.zipIdx_cons, List.flatMap_cons, List.map_append, List.take_left,
      Bundle.faults_eq_map, List.map_map]
    rfl

theorem faults_eq_map_violations (config : Config) :
    config.faults = config.violations.map Violation.diagnostic :=
  allFaults_eq_map [] [] config.bundles (by simp)

example : violations { standard with bundles := [.demo, { Bundle.demo with output := .empty }] } =
    [⟨1, .output⟩, ⟨1, .duplicate "demo"⟩] := by decide +kernel

/-- A configuration is accepted just if it has bundles, every name has a character that is not blank, every
output is named, every bundle has what its strategy asks for, with rules that name a style or a script, a marker
and a path, and no two bundles share a name. If it has bundles and is not accepted, its report holds one
diagnostic for each of its violations and nothing else, in the order of their places. -/
theorem validate_reports_violations (config : Config) :
    (config.validate = .ok () ↔
      config.bundles ≠ [] ∧
      (∀ bundle ∈ config.bundles,
        (∃ c ∈ bundle.name.toList, Text.isBlank c = false) ∧ bundle.output.text ≠ "" ∧
        (bundle.strategy = .markers → bundle.template.isSome = true ∧ bundle.rules ≠ [] ∧
          ∀ rule ∈ bundle.rules, (rule.kind = .style ∨ rule.kind = .script) ∧ rule.marker ≠ "" ∧
            rule.path.text ≠ "") ∧
        (bundle.strategy = .skeleton → bundle.script.isSome = true)) ∧
      (config.bundles.map Bundle.name).Nodup) ∧
    (config.bundles = [] → config.validate = .error .noBundles) ∧
    (config.bundles ≠ [] → config.validate ≠ .ok () →
      ∃ violations : List Violation,
        config.validate = .error (.faulty (violations.map Violation.diagnostic)) ∧
        (∀ violation, violation ∈ violations ↔ config.Violates violation) ∧
        violations.Pairwise fun first second => first.rank < second.rank) := by
  refine ⟨?_, ?_, ?_⟩
  · simp only [validate_eq_ok_iff, usable_iff, Bundle.usable_iff]
  · intro none
    rw [validate, if_pos (List.isEmpty_iff.mpr none)]
  · intro some rejected
    refine ⟨config.violations, ?_, fun _ => mem_violations_iff, pairwise_violations config⟩
    rw [← faults_eq_map_violations]
    unfold validate at rejected ⊢
    rw [if_neg (by simpa using some)] at rejected ⊢
    split at rejected
    · exact absurd rfl rejected
    · rename_i faulty
      rw [if_neg faulty]

end Config

end PageInliner
