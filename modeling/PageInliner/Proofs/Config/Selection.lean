import Mathlib.Data.List.Dedup
import PageInliner.Proofs.Config.Acceptance

/-!
# Bundles asked for by name

Which bundles a row of names selects. Neither the order of the names nor how often one is given matters: the
bundles come in the order of the configuration, and a configuration that is accepted has one for each name.
-/

set_option autoImplicit false

namespace PageInliner

section Places

variable {α : Type}

/-- What a filter keeps, told by the places at which it stands. -/
theorem exists_places_of_filter (rows : List α) (keeps : α → Bool) :
    ∃ places : List Nat, places.Pairwise (· < ·) ∧
      (∀ place, place ∈ places ↔ ∃ row, rows[place]? = some row ∧ keeps row = true) ∧
      (rows.filter keeps).map some = places.map (rows[·]?) := by
  let kept := rows.zipIdx.filter fun numbered => keeps numbered.1
  refine ⟨kept.map Prod.snd, ?_, ?_, ?_⟩
  · have among : (kept.map Prod.snd).Sublist (rows.zipIdx.map Prod.snd) := List.filter_sublist.map _
    rw [List.zipIdx_map_snd] at among
    exact List.Pairwise.sublist among List.pairwise_lt_range'
  · intro place
    simp [kept, List.mk_mem_zipIdx_iff_getElem?]
  · have values : rows.filter keeps = kept.map Prod.fst := by
      conv_lhs => rw [← List.zipIdx_map_fst 0 rows, List.filter_map]
      rfl
    rw [values, List.map_map, List.map_map]
    apply List.map_congr_left
    intro numbered member
    exact (List.mem_zipIdx_iff_getElem?.mp (List.mem_filter.mp member).1).symm

end Places

namespace Config

/-- There is a bundle of that name. -/
def Names (config : Config) (name : String) : Prop :=
  ∃ bundle ∈ config.bundles, bundle.name = name

theorem find?_unknown_eq_none_iff {config : Config} {names : List String} :
    names.find? (fun name => !config.bundles.any fun bundle => bundle.name == name) = none ↔
      ∀ name ∈ names, config.Names name := by
  simp [Names]

theorem find?_unknown_eq_some_iff {config : Config} {names : List String} {unknown : String} :
    names.find? (fun name => !config.bundles.any fun bundle => bundle.name == name) = some unknown ↔
      ∃ before after, names = before ++ unknown :: after ∧ (∀ name ∈ before, config.Names name) ∧
        ¬ config.Names unknown := by
  rw [List.find?_eq_some_iff_append]
  constructor
  · intro ⟨missing, before, after, split, known⟩
    exact ⟨before, after, split, by simpa [Names] using known, by simpa [Names] using missing⟩
  · intro ⟨before, after, split, known, missing⟩
    exact ⟨by simpa [Names] using missing, before, after, split, by simpa [Names] using known⟩

theorem select_eq_ok_iff {config : Config} {names : List String} {bundles : List Bundle} (named : names ≠ []) :
    config.select names = .ok bundles ↔
      (∀ name ∈ names, config.Names name) ∧
        bundles = config.bundles.filter fun bundle => names.contains bundle.name := by
  rw [select, if_neg (by simpa using named), ← find?_unknown_eq_none_iff]
  split
  case h_1 found => simp [found]
  case h_2 found => simp [found, eq_comm]

theorem select_eq_error_iff {config : Config} {names : List String} {unknown : UnknownBundle} :
    config.select names = .error unknown ↔
      (∃ before after, names = before ++ unknown.name :: after ∧ (∀ name ∈ before, config.Names name) ∧
        ¬ config.Names unknown.name) ∧
      unknown.available = config.bundles.map Bundle.name := by
  cases names with
  | nil => simp [select]
  | cons first names =>
    obtain ⟨name, available⟩ := unknown
    rw [select, if_neg (by simp), ← find?_unknown_eq_some_iff]
    split
    case h_1 found => simp [found, eq_comm]
    case h_2 found => simp [found]

theorem select_sublist {config : Config} {names : List String} {bundles : List Bundle}
    (selected : config.select names = .ok bundles) : bundles.Sublist config.bundles := by
  by_cases none : names = []
  · subst none
    cases selected
    exact .refl _
  · rw [((select_eq_ok_iff none).mp selected).2]
    exact List.filter_sublist

theorem exists_select {config : Config} {names : List String}
    (known : ∀ name ∈ names, name ∈ config.bundles.map Bundle.name) :
    ∃ bundles, config.select names = .ok bundles := by
  by_cases none : names = []
  · exact ⟨config.bundles, none ▸ rfl⟩
  · exact ⟨_, (select_eq_ok_iff none).mpr ⟨fun name among => List.mem_map.mp (known name among), rfl⟩⟩

theorem mem_of_select_iff {config : Config} {names : List String} {bundles : List Bundle}
    (selected : config.select names = .ok bundles) {bundle : Bundle} :
    bundle ∈ bundles ↔ bundle ∈ config.bundles ∧ (names = [] ∨ bundle.name ∈ names) := by
  by_cases none : names = []
  · subst none
    cases selected
    simp
  · rw [((select_eq_ok_iff none).mp selected).2]
    simp [none]

/-- Only which names are given matters for what is selected. -/
theorem select_congr {config : Config} {names others : List String}
    (same : ∀ name, name ∈ others ↔ name ∈ names) (bundles : List Bundle) :
    config.select others = .ok bundles ↔ config.select names = .ok bundles := by
  by_cases none : names = []
  · have noOthers : others = [] := by
      simpa [none, List.eq_nil_iff_forall_not_mem] using same
    rw [none, noOthers]
  · have someOthers : others ≠ [] := by
      intro empty
      obtain ⟨name, member⟩ := List.exists_mem_of_ne_nil names none
      simpa [empty] using (same name).mpr member
    simp only [select_eq_ok_iff none, select_eq_ok_iff someOthers, same, List.contains_eq_mem]

/-- An accepted configuration has one bundle for each of the names. -/
theorem names_of_select {config : Config} {names : List String} {bundles : List Bundle}
    (accepted : config.validate = .ok ()) (named : names ≠ [])
    (selected : config.select names = .ok bundles) :
    (bundles.map Bundle.name).Perm names.dedup := by
  obtain ⟨known, rfl⟩ := (select_eq_ok_iff named).mp selected
  have distinct : (config.bundles.map Bundle.name).Nodup := (validate_eq_ok_iff.mp accepted).names
  rw [List.perm_ext_iff_of_nodup (distinct.sublist (List.filter_sublist.map _)) names.nodup_dedup]
  intro name
  simp only [List.mem_map, List.mem_filter, List.contains_eq_mem, decide_eq_true_eq, List.mem_dedup]
  constructor
  · intro ⟨bundle, ⟨_, asked⟩, same⟩
    exact same ▸ asked
  · intro asked
    obtain ⟨bundle, member, same⟩ := known name asked
    exact ⟨bundle, ⟨member, same ▸ asked⟩, same⟩

/-- No names select every bundle. Otherwise selecting fails just if one of the names is unknown, and the first such
name is told; if it succeeds, the bundles of those names are selected where they stand, each once, and from an
accepted configuration as many as there are different names. What is selected depends on nothing but which names
are given. -/
theorem select_by_names (config : Config) (names : List String) :
    config.select [] = .ok config.bundles ∧
    (names ≠ [] →
      ((∃ unknown, config.select names = .error unknown) ↔ ∃ name ∈ names, ¬ config.Names name) ∧
      (∀ unknown, config.select names = .error unknown →
        (∃ before after, names = before ++ unknown.name :: after ∧
          (∀ name ∈ before, config.Names name) ∧ ¬ config.Names unknown.name) ∧
        unknown.available = config.bundles.map Bundle.name) ∧
      ∀ bundles, config.select names = .ok bundles →
        (∃ places : List Nat, places.Pairwise (· < ·) ∧
          (∀ place, place ∈ places ↔
            ∃ bundle, config.bundles[place]? = some bundle ∧ bundle.name ∈ names) ∧
          bundles.map some = places.map (config.bundles[·]?)) ∧
        (config.validate = .ok () → bundles.length = names.dedup.length ∧
          ∀ name, name ∈ bundles.map Bundle.name ↔ name ∈ names)) ∧
    ∀ others, (∀ name, name ∈ others ↔ name ∈ names) →
      ∀ bundles, config.select others = .ok bundles ↔ config.select names = .ok bundles := by
  refine ⟨rfl, fun named => ⟨?_, fun unknown => select_eq_error_iff.mp, ?_⟩, fun others => select_congr⟩
  · constructor
    · intro ⟨unknown, failed⟩
      obtain ⟨⟨before, after, split, _, missing⟩, _⟩ := select_eq_error_iff.mp failed
      exact ⟨unknown.name, by simp [split], missing⟩
    · intro ⟨name, member, missing⟩
      cases answer : config.select names with
      | error unknown => exact ⟨unknown, rfl⟩
      | ok bundles => exact absurd (((select_eq_ok_iff named).mp answer).1 name member) missing
  · intro bundles selected
    constructor
    · obtain ⟨_, rfl⟩ := (select_eq_ok_iff named).mp selected
      simpa using exists_places_of_filter config.bundles fun bundle => names.contains bundle.name
    · intro accepted
      have each := names_of_select accepted named selected
      refine ⟨?_, fun name => ?_⟩
      · simpa using each.length_eq
      · rw [each.mem_iff, List.mem_dedup]

end Config

end PageInliner
