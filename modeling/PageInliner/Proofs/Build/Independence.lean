import Mathlib.Data.List.Nodup
import PageInliner.Proofs.Build.Outputs
import PageInliner.Proofs.Config.Acceptance

/-!
# Bundles that are independent of each other

If no bundle is written to what another one needs, it makes no difference in what order they are built, in
how many runs and how often: once all of them have been built, there is the same at every place.
-/

set_option autoImplicit false

namespace PageInliner

/-- No bundle is written to an input of any bundle, to the file of another one or to a place that the path of
another one's file goes through. -/
structure Config.Independent (config : Config) (machine : Machine) : Prop where
  inputs : ∀ bundle ∈ config.bundles, ∀ other ∈ config.bundles, ∀ source ∈ other.inputs,
    machine.resolve? (bundle.destination config.root) ≠
      machine.resolve? ((other.directory config.root).join source.path)
  outputs : ∀ bundle ∈ config.bundles, ∀ other ∈ config.bundles, bundle ≠ other →
    machine.resolve? (bundle.destination config.root) ≠ machine.resolve? (other.destination config.root)
  ways : ∀ bundle ∈ config.bundles, ∀ other ∈ config.bundles, bundle ≠ other →
    ∀ place ∈ machine.placesOnWay (other.destination config.root),
      machine.resolve? (bundle.destination config.root) ≠ some place

namespace Bundle

/-- The draft of a bundle can be made, and it can be written: `name` is the name of its file, in the directory
that `way` leads to. -/
structure Buildable (config : Config) (bundle : Bundle) (machine : Machine) (html : String) (way : List String)
    (name : String) : Prop where
  draft : machine.draft bundle config = .ok ⟨bundle.destination config.root, html⟩
  writable : machine.Writable (bundle.destination config.root) way name

variable {config : Config} {bundle : Bundle} {machine after : Machine}

theorem Buildable.exists_completes {html : String} {way : List String} {name : String}
    (buildable : bundle.Buildable config machine html way name) :
    ∃ after, bundle.Completes config machine after ∧
      machine.Writes after (bundle.destination config.root) html.toUTF8 (name :: Place.ofNames way) := by
  rcases bundle.completes_or_stops config machine with ⟨after, completes⟩ | ⟨failure, after, _, stops⟩
  · obtain ⟨place, writes⟩ := completes.writes_of_draft buildable.draft
    have same := writes.resolve?_eq.symm.trans buildable.writable.resolve?_eq
    cases same
    exact ⟨after, completes, writes⟩
  · cases stops with
    | drafting drafted =>
      obtain ⟨_, spec⟩ := run_draft bundle config machine
      rw [drafted, buildable.draft] at spec
      cases spec
    | @writing _ history _ _ _ refused _ => exact absurd refused (buildable.writable.told history).not_refuses

theorem Completes.exists_buildable (completes : bundle.Completes config machine after) :
    ∃ html way name, bundle.Buildable config machine html way name := by
  obtain ⟨html, place, made, _⟩ := completes.exists_draft
  obtain ⟨history, drafted⟩ := run_draft bundle config machine
  have runs := completes.runs
  rw [made] at drafted
  rw [Bundle.build, run_bind, drafted] at runs
  dsimp only at runs
  rw [run_bind] at runs
  cases written : ((Draft.mk (bundle.destination config.root) html).write :
      StateM Machine (Except BuildError Nat)).run (machine.told history) with
  | mk result next =>
    rw [written] at runs
    cases result with
    | error error => cases runs
    | ok size =>
      obtain ⟨way, name, writable⟩ := exists_writable_of_write written
      exact ⟨html, way, name, made, writable.told machine.history⟩

end Bundle

namespace Config

/-- Each bundle can be built where nothing has been built before, and none is in the way of another. -/
structure Separable (config : Config) (start : Machine) : Prop extends config.Independent start where
  buildable : ∀ bundle ∈ config.bundles, ∃ html way name, bundle.Buildable config start html way name

/-- What is at a place once some bundles have been built. -/
inductive Leaves (config : Config) (start : Machine) (done : List Bundle) (place : Place) :
    Option Entry → Prop where
  | file {bundle : Bundle} {html : String} : bundle ∈ done →
      start.draft bundle config = .ok ⟨bundle.destination config.root, html⟩ →
      start.resolve? (bundle.destination config.root) = some place →
      Leaves config start done place (some (.file html.toUTF8))
  | way {bundle : Bundle} : bundle ∈ done → place ∈ start.placesOnWay (bundle.destination config.root) →
      Leaves config start done place (some .directory)
  | same : (∀ bundle ∈ done, start.resolve? (bundle.destination config.root) ≠ some place ∧
        place ∉ start.placesOnWay (bundle.destination config.root)) →
      Leaves config start done place (start.tree.find? place)

/-- Some bundles have been built, in whatever order and however often. -/
structure Built (config : Config) (start : Machine) (done : List Bundle) (machine : Machine) : Prop where
  known : ∀ bundle ∈ done, bundle ∈ config.bundles
  keeps : start.Keeps machine
  leaves : ∀ place, config.Leaves start done place (machine.tree.find? place)

/-- In what order bundles have been built, and how often, does not show. -/
theorem Leaves.congr {config : Config} {start : Machine} {done others : List Bundle} {place : Place}
    {found : Option Entry} (leaves : config.Leaves start done place found)
    (sameBundles : ∀ bundle, bundle ∈ done ↔ bundle ∈ others) : config.Leaves start others place found := by
  cases leaves with
  | file member drafted leads => exact .file ((sameBundles _).mp member) drafted leads
  | way member onWay => exact .way ((sameBundles _).mp member) onWay
  | same free => exact .same fun bundle member => free bundle ((sameBundles bundle).mpr member)

/-- A bundle makes no difference to the places it has nothing to do with. -/
theorem Leaves.append {config : Config} {start : Machine} {done : List Bundle} {place : Place}
    {found : Option Entry} (leaves : config.Leaves start done place found) {bundle : Bundle}
    (elsewhere : start.resolve? (bundle.destination config.root) ≠ some place)
    (offWay : place ∉ start.placesOnWay (bundle.destination config.root)) :
    config.Leaves start (done ++ [bundle]) place found := by
  cases leaves with
  | file among drafted leads => exact .file (List.mem_append_left _ among) drafted leads
  | way among through => exact .way (List.mem_append_left _ among) through
  | same free =>
    apply Leaves.same
    intro other among
    rcases List.mem_append.mp among with before | now
    · exact free other before
    · rw [List.mem_singleton.mp now]
      exact ⟨elsewhere, offWay⟩

section Separable

variable {config : Config} {start : Machine} (separable : config.Separable start)

include separable

theorem Separable.resolve?_ne_of_mem {bundle other : Bundle} (member : bundle ∈ config.bundles)
    (otherMember : other ∈ config.bundles) {place : Place}
    (onWay : place ∈ start.placesOnWay (other.destination config.root)) :
    start.resolve? (bundle.destination config.root) ≠ some place := by
  by_cases same : bundle = other
  · subst same
    obtain ⟨_, _, _, buildable⟩ := separable.buildable bundle member
    rw [buildable.writable.resolve?_eq]
    rintro ⟨⟩
    exact buildable.writable.not_mem_placesOnWay onWay
  · exact separable.ways bundle member other otherMember same place onWay

theorem Separable.leaves_unique {done : List Bundle} (known : ∀ bundle ∈ done, bundle ∈ config.bundles)
    {place : Place} {first second : Option Entry} (leaves : config.Leaves start done place first)
    (leavesAlso : config.Leaves start done place second) : first = second := by
  cases leaves with
  | @file bundle html member drafted leads =>
    cases leavesAlso with
    | @file other page otherMember otherDrafted otherLeads =>
      by_cases same : bundle = other
      · subst same
        cases drafted.symm.trans otherDrafted
        rfl
      · exact absurd (leads.trans otherLeads.symm)
          (separable.outputs bundle (known _ member) other (known _ otherMember) same)
    | way otherMember onWay =>
      exact absurd leads (separable.resolve?_ne_of_mem (known _ member) (known _ otherMember) onWay)
    | same free => exact absurd leads (free bundle member).1
  | way member onWay =>
    cases leavesAlso with
    | file otherMember _ otherLeads =>
      exact absurd otherLeads (separable.resolve?_ne_of_mem (known _ otherMember) (known _ member) onWay)
    | way _ _ => rfl
    | same free => exact absurd onWay (free _ member).2
  | same free =>
    cases leavesAlso with
    | file otherMember _ otherLeads => exact absurd otherLeads (free _ otherMember).1
    | way otherMember onWay => exact absurd onWay (free _ otherMember).2
    | same _ => rfl

end Separable

namespace Built

variable {config : Config} {start machine : Machine} {done : List Bundle}

theorem none (config : Config) (start : Machine) : config.Built start [] start :=
  ⟨nofun, .refl start, fun _ => .same nofun⟩

theorem told (built : config.Built start done machine) (history : List Event) :
    config.Built start done (machine.told history) :=
  ⟨built.known, ⟨built.keeps.directory, built.keeps.removed, built.keeps.directories⟩, built.leaves⟩

variable (separable : config.Separable start) (built : config.Built start done machine)

include separable built

/-- Nothing is built in the place of an input. -/
theorem read_input {bundle : Bundle} (member : bundle ∈ config.bundles) {source : Asset.Source}
    (among : source ∈ bundle.inputs) {bytes : ByteArray}
    (read : start.read ((bundle.directory config.root).join source.path) = .ok bytes) :
    machine.read ((bundle.directory config.root).join source.path) = .ok bytes := by
  obtain ⟨place, leads, found⟩ := Machine.find?_of_read read
  apply Machine.read_of_keeps read built.keeps leads
  have leaves := built.leaves place
  generalize machine.tree.find? place = there at leaves
  cases leaves with
  | @file other _ otherMember _ otherLeads =>
    exact absurd (otherLeads.trans leads.symm)
      (separable.inputs other (built.known other otherMember) bundle member source among)
  | @way other otherMember onWay =>
    obtain ⟨_, _, _, buildable⟩ := separable.buildable other (built.known other otherMember)
    exact absurd found (buildable.writable.free onWay bytes)
  | same _ => exact found

theorem buildable {bundle : Bundle} (member : bundle ∈ config.bundles) {html : String} {way : List String}
    {name : String} (buildable : bundle.Buildable config start html way name) :
    bundle.Buildable config machine html way name := by
  constructor
  · obtain ⟨inputs, read, page, _⟩ := Machine.draft_eq_ok buildable.draft
    have readAlso := Machine.inputs_of_read read fun source among bytes =>
      built.read_input separable member among
    rw [Machine.draft, readAlso]
    dsimp only
    rw [page]
    rfl
  · apply buildable.writable.transfer built.keeps
    · intro place onWay bytes isFile
      have leaves := built.leaves place
      generalize machine.tree.find? place = there at leaves isFile
      cases leaves with
      | file otherMember _ leads =>
        exact separable.resolve?_ne_of_mem (built.known _ otherMember) member onWay leads
      | way _ _ => cases isFile
      | same _ => exact buildable.writable.free onWay bytes isFile
    · intro isDirectory
      have leaves := built.leaves (name :: Place.ofNames way)
      generalize machine.tree.find? (name :: Place.ofNames way) = there at leaves isDirectory
      cases leaves with
      | file _ _ _ => cases isDirectory
      | way otherMember onWay =>
        exact separable.resolve?_ne_of_mem member (built.known _ otherMember) onWay
          buildable.writable.resolve?_eq
      | same _ => exact buildable.writable.vacant isDirectory

theorem step {bundle : Bundle} (member : bundle ∈ config.bundles) :
    ∃ after, bundle.Completes config machine after ∧ config.Built start (done ++ [bundle]) after := by
  obtain ⟨html, way, name, alone⟩ := separable.buildable bundle member
  obtain ⟨after, completes, writes⟩ := (built.buildable separable member alone).exists_completes
  refine ⟨after, completes, ?_, built.keeps.trans writes.keeps, ?_⟩
  · intro other among
    rcases List.mem_append.mp among with before | now
    · exact built.known other before
    · rw [List.mem_singleton.mp now]
      exact member
  · intro place
    have last : bundle ∈ done ++ [bundle] := by simp
    by_cases here : place = name :: Place.ofNames way
    · rw [here, writes.find?_place]
      exact .file last alone.draft alone.writable.resolve?_eq
    · by_cases onWay : place ∈ start.placesOnWay (bundle.destination config.root)
      · rw [writes.find?_of_mem (by rwa [Machine.placesOnWay_congr built.keeps.directory built.keeps.removed])]
        exact .way last onWay
      · rw [writes.find?_of_not_mem here
          (by rwa [Machine.placesOnWay_congr built.keeps.directory built.keeps.removed])]
        apply (built.leaves place).append ?_ onWay
        rw [alone.writable.resolve?_eq]
        exact fun same => here (Option.some.inj same).symm

theorem completesEach {bundles : List Bundle} (members : ∀ bundle ∈ bundles, bundle ∈ config.bundles) :
    ∃ after, Bundle.CompletesEach config bundles machine after ∧
      config.Built start (done ++ bundles) after := by
  induction bundles generalizing done machine with
  | nil =>
    rw [List.append_nil]
    exact ⟨machine, .nil, built⟩
  | cons bundle bundles ih =>
    rw [List.forall_mem_cons] at members
    obtain ⟨middle, completes, builtNow⟩ := built.step separable members.1
    obtain ⟨after, completed, builtAll⟩ := ih builtNow members.2
    rw [List.append_assoc] at builtAll
    exact ⟨after, .cons completes completed, builtAll⟩

theorem build {names : List String} (known : ∀ name ∈ names, name ∈ config.bundles.map Bundle.name) :
    ∃ bundles after, config.select names = .ok bundles ∧
      (config.build names : StateM Machine (Except Failure Unit)).run machine = (.ok (), after) ∧
      config.Built start (done ++ bundles) after := by
  obtain ⟨bundles, selected⟩ := exists_select known
  obtain ⟨middle, completed, builtNow⟩ :=
    built.completesEach separable fun bundle among => (select_sublist selected).subset among
  obtain ⟨history, ran⟩ := run_build_of_completes selected completed
  exact ⟨bundles, _, selected, ran, builtNow.told history⟩

end Built

/-- One run of the program after the other, all of which succeed. -/
inductive RunsEach (config : Config) : List (List String) → Machine → Machine → Prop where
  | nil {machine : Machine} : RunsEach config [] machine machine
  | cons {names : List String} {runs : List (List String)} {before middle after : Machine} :
      (config.build names : StateM Machine (Except Failure Unit)).run before = (.ok (), middle) →
      RunsEach config runs middle after → RunsEach config (names :: runs) before after

/-- All runs succeed, and there is then what a tree has, at every place. -/
def RunsTo (config : Config) (runs : List (List String)) (machine : Machine) (tree : FileTree) : Prop :=
  ∃ last, config.RunsEach runs machine last ∧ ∀ place, last.tree.find? place = tree.find? place

/-- The runs ask for every bundle, and for nothing that is not a bundle. A run without names asks for all. -/
structure Covers (config : Config) (runs : List (List String)) : Prop where
  known : ∀ names ∈ runs, ∀ name ∈ names, name ∈ config.bundles.map Bundle.name
  all : ∀ name ∈ config.bundles.map Bundle.name, ∃ names ∈ runs, names = [] ∨ name ∈ names

theorem Built.runsEach {config : Config} {start machine : Machine} {done : List Bundle}
    (separable : config.Separable start) (built : config.Built start done machine) {runs : List (List String)}
    (known : ∀ names ∈ runs, ∀ name ∈ names, name ∈ config.bundles.map Bundle.name) :
    ∃ others after, config.RunsEach runs machine after ∧ config.Built start others after ∧
      (∀ bundle ∈ done, bundle ∈ others) ∧
      ∀ names ∈ runs, ∀ bundle ∈ config.bundles, names = [] ∨ bundle.name ∈ names → bundle ∈ others := by
  induction runs generalizing done machine with
  | nil => exact ⟨done, machine, .nil, built, fun _ among => among, nofun⟩
  | cons names runs ih =>
    rw [List.forall_mem_cons] at known
    obtain ⟨bundles, middle, selected, ran, builtNow⟩ := built.build separable known.1
    obtain ⟨others, after, rest, builtAll, kept, asked⟩ := ih builtNow known.2
    refine ⟨others, after, .cons ran rest, builtAll, ?_, ?_⟩
    · intro bundle among
      exact kept bundle (List.mem_append_left _ among)
    · intro names' among bundle member named
      rcases List.mem_cons.mp among with rfl | later
      · exact kept bundle (List.mem_append_right _ ((mem_of_select_iff selected).mpr ⟨member, named⟩))
      · exact asked names' later bundle member named

/-- A run of one name builds the bundle of that name, as there is no other. -/
theorem exists_completes_of_build {config : Config} (distinct : (config.bundles.map Bundle.name).Nodup)
    {bundle : Bundle} (member : bundle ∈ config.bundles) {before after : Machine}
    (ran : (config.build [bundle.name] : StateM Machine (Except Failure Unit)).run before = (.ok (), after)) :
    ∃ middle, bundle.Completes config before middle := by
  have known : ∀ name ∈ [bundle.name], name ∈ config.bundles.map Bundle.name := by
    intro name isName
    rw [List.mem_singleton.mp isName]
    exact List.mem_map_of_mem member
  obtain ⟨bundles, selected⟩ := exists_select known
  rcases run_build_of_select selected before with ⟨_, _, completed, _⟩ | ⟨_, _, _, _, _, runs, _⟩
  · have among := (mem_of_select_iff selected).mpr ⟨member, .inr (List.mem_singleton_self _)⟩
    cases completed with
    | nil => cases among
    | @cons first _ _ middle _ completes _ =>
      obtain ⟨firstMember, named⟩ := (mem_of_select_iff selected).mp List.mem_cons_self
      have sameName : first.name = bundle.name := by simpa using named
      have same : first = bundle := List.inj_on_of_nodup_map distinct firstMember member sameName
      exact ⟨middle, same ▸ completes⟩
  · cases ran.symm.trans runs

theorem Covers.append {config : Config} {runs more : List (List String)} (covers : config.Covers runs)
    (coversAlso : config.Covers more) : config.Covers (runs ++ more) := by
  constructor
  · intro names among
    rcases List.mem_append.mp among with first | second
    · exact covers.known names first
    · exact coversAlso.known names second
  · intro name isName
    obtain ⟨names, among, asked⟩ := covers.all name isName
    exact ⟨names, List.mem_append_left _ among, asked⟩

theorem covers_all (config : Config) : config.Covers [[]] :=
  ⟨by simp, fun _ _ => ⟨[], List.mem_singleton_self _, .inl rfl⟩⟩

theorem covers_each {config : Config} {order : List String}
    (sameNames : order.Perm (config.bundles.map Bundle.name)) :
    config.Covers (order.map fun name => [name]) := by
  constructor
  · intro names among name isName
    obtain ⟨other, member, rfl⟩ := List.mem_map.mp among
    rw [List.mem_singleton.mp isName]
    exact sameNames.subset member
  · intro name isName
    exact ⟨[name], List.mem_map_of_mem (sameNames.symm.subset isName), .inr (List.mem_singleton_self _)⟩

/-- Bundles that are independent of each other, each of which can be built on its own, can be built all at
once, one by one in any order, and again: every run succeeds, and the tree of files is the same in the end. -/
theorem build_independent {config : Config} {machine : Machine} (accepted : config.validate = .ok ())
    (alone : ∀ bundle ∈ config.bundles, ∃ after,
      (config.build [bundle.name] : StateM Machine (Except Failure Unit)).run machine = (.ok (), after))
    (independent : config.Independent machine) :
    ∃ after, (config.build [] : StateM Machine (Except Failure Unit)).run machine = (.ok (), after) ∧
      config.RunsTo [[], []] machine after.tree ∧
      (∀ order : List String, order.Perm (config.bundles.map Bundle.name) →
        let each := order.map fun name => [name]
        config.RunsTo each machine after.tree ∧ config.RunsTo (each ++ each) machine after.tree) ∧
      ∀ runs, config.Covers runs → config.RunsTo runs machine after.tree := by
  have distinct := (validate_eq_ok_iff.mp accepted).names
  have separable : config.Separable machine := by
    refine ⟨independent, ?_⟩
    intro bundle member
    obtain ⟨after, ran⟩ := alone bundle member
    obtain ⟨middle, completes⟩ := exists_completes_of_build distinct member ran
    exact completes.exists_buildable
  have known : ∀ name ∈ [], name ∈ config.bundles.map Bundle.name := nofun
  obtain ⟨bundles, after, selected, ran, built⟩ := (Built.none config machine).build separable known
  cases selected
  have all : ∀ runs, config.Covers runs → config.RunsTo runs machine after.tree := by
    intro runs covers
    obtain ⟨others, last, ranEach, builtEach, _, asked⟩ :=
      (Built.none config machine).runsEach separable covers.known
    refine ⟨last, ranEach, ?_⟩
    have sameBundles : ∀ bundle, bundle ∈ others ↔ bundle ∈ [] ++ config.bundles := by
      intro bundle
      constructor
      · exact builtEach.known bundle
      · intro member
        obtain ⟨names, among, named⟩ := covers.all bundle.name (List.mem_map_of_mem member)
        exact asked names among bundle member named
    intro place
    exact separable.leaves_unique built.known ((builtEach.leaves place).congr sameBundles) (built.leaves place)
  refine ⟨after, ran, all _ ((covers_all config).append (covers_all config)), ?_, all⟩
  intro order sameNames each
  have covers := covers_each sameNames
  exact ⟨all each covers, all _ (covers.append covers)⟩

/-- Two bundles with a file each. There has to be a directory for either of them. -/
def twoFiles : Config :=
  { oneFile with
    bundles := [
      scripted "first" ⟨"out/a.html"⟩ ⟨"a.js"⟩,
      scripted "second" ⟨"new/../b.html"⟩ ⟨"b.js"⟩] }

theorem build_independent_twoFiles :
    twoFiles.validate = .ok () ∧
      (∀ bundle ∈ twoFiles.bundles, ∃ after,
        (twoFiles.build [bundle.name] : StateM Machine (Except Failure Unit)).run scriptSources =
          (.ok (), after)) ∧
      twoFiles.Independent scriptSources ∧
      ∃ after,
        (twoFiles.build [] : StateM Machine (Except Failure Unit)).run scriptSources = (.ok (), after) ∧
        twoFiles.RunsTo [["second"], ["first"]] scriptSources after.tree := by
  have accepted : twoFiles.validate = .ok () := by
    rw [validate, if_neg (by decide), if_pos (by decide +kernel)]
  have succeeds : ∀ bundle ∈ twoFiles.bundles,
      ((twoFiles.build [bundle.name] : StateM Machine (Except Failure Unit)).run scriptSources).1.isOk =
        true := by
    decide +kernel
  have alone := fun bundle member => exists_eq_of_isOk (succeeds bundle member)
  have independent : twoFiles.Independent scriptSources :=
    ⟨by decide +kernel, by decide +kernel, by decide +kernel⟩
  obtain ⟨after, ran, _, each, _⟩ := build_independent accepted alone independent
  exact ⟨accepted, alone, independent, after, ran, (each ["second", "first"] (.swap _ _ _)).1⟩

end Config

end PageInliner
