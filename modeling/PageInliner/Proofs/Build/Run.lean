import PageInliner.Proofs.Build.Drafting
import PageInliner.Proofs.Config.Selection
import PageInliner.Proofs.Files.Writing

/-!
# Runs of bundles

A run builds one bundle after the other, each on the tree that those before it have left, until all are built
or one fails. A bundle that is built changes its own file and nothing else but the directories for it; the one
that fails may leave such directories behind, and those after it have no part in the run.
-/

set_option autoImplicit false

namespace PageInliner

/-- What was reported makes no difference to what has been written. -/
theorem Machine.Writes.told {before after : Machine} {first second : List Event} {path : Path}
    {bytes : ByteArray} {place : Place} (writes : (before.told first).Writes after path bytes place) :
    before.Writes (after.told second) path bytes place := by
  obtain ⟨directory, removed, found, vacant, ways, parents, others⟩ := writes
  refine ⟨directory, removed, ?_, vacant, ways, parents, others⟩
  rw [locate_told]
  exact found

theorem Machine.AddsParents.of_told {before after : Machine} {history : List Event} {path : Path}
    (adds : (before.told history).AddsParents after path) : before.AddsParents after path :=
  ⟨adds.directory, adds.removed, adds.places⟩

namespace Bundle

/-- The bundle is built: its draft is made from the files there are, and written. -/
structure Completes (config : Config) (bundle : Bundle) (before after : Machine) : Prop where
  runs : (bundle.build config : StateM Machine (Except Failure Unit)).run before = (.ok (), after)
  writes : ∃ html history place,
    (bundle.draft config : StateM Machine (Except Failure Draft)).run before =
      (.ok ⟨bundle.destination config.root, html⟩, before.told history) ∧
    before.Writes after (bundle.destination config.root) html.toUTF8 place

theorem Completes.exists_draft {config : Config} {bundle : Bundle} {before after : Machine}
    (completes : bundle.Completes config before after) :
    ∃ html place, before.draft bundle config = .ok ⟨bundle.destination config.root, html⟩ ∧
      before.Writes after (bundle.destination config.root) html.toUTF8 place := by
  obtain ⟨html, history, place, drafted, writes⟩ := completes.writes
  obtain ⟨_, spec⟩ := run_draft bundle config before
  rw [drafted, Prod.mk.injEq] at spec
  exact ⟨html, place, spec.1.symm, writes⟩

theorem Completes.writes_of_draft {config : Config} {bundle : Bundle} {before after : Machine}
    {html : String} (completes : bundle.Completes config before after)
    (drafted : before.draft bundle config = .ok ⟨bundle.destination config.root, html⟩) :
    ∃ place, before.Writes after (bundle.destination config.root) html.toUTF8 place := by
  obtain ⟨other, place, made, writes⟩ := completes.exists_draft
  cases drafted.symm.trans made
  exact ⟨place, writes⟩

/-- The bundle is not built. If its draft could not be made, the files are as they were; if the file for it was
refused, there may be directories that were made for it. -/
inductive Stops (config : Config) (bundle : Bundle) (before : Machine) : Failure → Machine → Prop where
  | drafting {failure : Failure} {history : List Event} :
      (bundle.draft config : StateM Machine (Except Failure Draft)).run before =
        (.error failure, before.told history) →
      Stops config bundle before failure (before.told history)
  | writing {html : String} {history : List Event} {cause : Cause} {after : Machine} :
      (bundle.draft config : StateM Machine (Except Failure Draft)).run before =
        (.ok ⟨bundle.destination config.root, html⟩, before.told history) →
      (before.told history).Refuses (bundle.destination config.root) html.toUTF8 cause after →
      before.AddsParents after (bundle.destination config.root) →
      Stops config bundle before (.bundle (.unwritable (bundle.destination config.root) cause)) after

theorem completes_or_stops (config : Config) (bundle : Bundle) (machine : Machine) :
    (∃ after, bundle.Completes config machine after) ∨
      ∃ failure after, (bundle.build config : StateM Machine (Except Failure Unit)).run machine =
          (.error failure, after) ∧
        bundle.Stops config machine failure after := by
  obtain ⟨history, drafted⟩ := run_draft bundle config machine
  cases made : machine.draft bundle config with
  | error failure =>
    rw [made] at drafted
    refine .inr ⟨failure, machine.told history, ?_, .drafting drafted⟩
    rw [Bundle.build, run_bind, drafted]
    rfl
  | ok draft =>
    obtain ⟨path, html⟩ := draft
    obtain ⟨_, _, _, rfl⟩ := Machine.draft_eq_ok made
    rw [made] at drafted
    rcases run_write ⟨bundle.destination config.root, html⟩ (machine.told history) with
      ⟨after, place, wrote, writes⟩ | ⟨cause, after, wrote, refused⟩
    · refine .inl ⟨after.told (.sized html.toUTF8.size :: .wrote (bundle.destination config.root) ::
        after.history), ?_, html, history, place, drafted, writes.told⟩
      rw [Bundle.build, run_bind, drafted]
      dsimp only
      rw [run_bind, wrote]
      rfl
    · refine .inr ⟨.bundle (.unwritable (bundle.destination config.root) cause), after, ?_,
        .writing drafted refused refused.addsParents.of_told⟩
      rw [Bundle.build, run_bind, drafted]
      dsimp only
      rw [run_bind, wrote]
      rfl

/-- Bundles are built one after the other, each on what those before it have left. -/
inductive CompletesEach (config : Config) : List Bundle → Machine → Machine → Prop where
  | nil {machine : Machine} : CompletesEach config [] machine machine
  | cons {bundle : Bundle} {bundles : List Bundle} {before middle after : Machine} :
      bundle.Completes config before middle → CompletesEach config bundles middle after →
      CompletesEach config (bundle :: bundles) before after

end Bundle

namespace Config

theorem run_buildEach_cons {config : Config} {bundle : Bundle} {before after : Machine}
    (built : (bundle.build config : StateM Machine (Except Failure Unit)).run before = (.ok (), after))
    (bundles : List Bundle) :
    (config.buildEach (bundle :: bundles) : StateM Machine (Except Failure Unit)).run before =
      (config.buildEach bundles : StateM Machine (Except Failure Unit)).run after := by
  rw [buildEach, run_bind, built]

theorem run_buildEach_append {config : Config} {done : List Bundle} {before after : Machine}
    (completed : Bundle.CompletesEach config done before after) (bundles : List Bundle) :
    (config.buildEach (done ++ bundles) : StateM Machine (Except Failure Unit)).run before =
      (config.buildEach bundles : StateM Machine (Except Failure Unit)).run after := by
  induction completed with
  | nil => rfl
  | cons first _ ih => rw [List.cons_append, run_buildEach_cons first.runs, ih]

theorem exists_completesEach (config : Config) (bundles : List Bundle) (machine : Machine) :
    ∃ done rest middle, bundles = done ++ rest ∧
      Bundle.CompletesEach config done machine middle ∧
      (rest = [] ∨ ∃ failing later failure after, rest = failing :: later ∧
        (failing.build config : StateM Machine (Except Failure Unit)).run middle =
          (.error failure, after) ∧
        failing.Stops config middle failure after) := by
  induction bundles generalizing machine with
  | nil => exact ⟨[], [], machine, rfl, .nil, .inl rfl⟩
  | cons bundle bundles ih =>
    rcases bundle.completes_or_stops config machine with
      ⟨after, completes⟩ | ⟨failure, after, runs, stops⟩
    · obtain ⟨done, rest, middle, rfl, completed, ends⟩ := ih after
      exact ⟨bundle :: done, rest, middle, rfl, .cons completes completed, ends⟩
    · exact ⟨[], bundle :: bundles, machine, rfl, .nil,
        .inr ⟨bundle, bundles, failure, after, rfl, runs, stops⟩⟩

theorem run_build_of_completes {config : Config} {names : List String} {bundles : List Bundle}
    {machine middle : Machine} (selected : config.select names = .ok bundles)
    (completed : Bundle.CompletesEach config bundles machine middle) :
    ∃ history, (config.build names : StateM Machine (Except Failure Unit)).run machine =
      (.ok (), middle.told history) := by
  have whole := run_buildEach_append completed []
  rw [List.append_nil] at whole
  rw [build, selected]
  dsimp only
  rw [run_bind, whole]
  change ∃ history, (if bundles.length > 1 then
    Host.report (.builtAll bundles.length) >>= fun _ => pure (.ok ()) else pure (.ok ()) :
      StateM Machine (Except Failure Unit)).run middle = (.ok (), middle.told history)
  split
  · exact ⟨_, rfl⟩
  · exact ⟨middle.history, rfl⟩

theorem run_buildEach_of_stops {config : Config} {done : List Bundle} {failing : Bundle} {failure : Failure}
    {machine middle after : Machine} (completed : Bundle.CompletesEach config done machine middle)
    (runs : (failing.build config : StateM Machine (Except Failure Unit)).run middle = (.error failure, after))
    (others : List Bundle) :
    (config.buildEach (done ++ failing :: others) : StateM Machine (Except Failure Unit)).run machine =
      (.error (.building failing.name failure), after) := by
  rw [run_buildEach_append completed, buildEach, run_bind, runs]
  rfl

theorem run_build_of_stops {config : Config} {names : List String} {bundles : List Bundle} {failure : Failure}
    {machine after : Machine} (selected : config.select names = .ok bundles)
    (stopped : (config.buildEach bundles : StateM Machine (Except Failure Unit)).run machine =
      (.error failure, after)) :
    (config.build names : StateM Machine (Except Failure Unit)).run machine = (.error failure, after) := by
  rw [build, selected]
  dsimp only
  rw [run_bind, stopped]
  rfl

/-- The run of a row of bundles succeeds, or it ends with the first of them that fails. -/
theorem run_build_of_select {config : Config} {names : List String} {bundles : List Bundle}
    (selected : config.select names = .ok bundles) (machine : Machine) :
    (∃ middle history, Bundle.CompletesEach config bundles machine middle ∧
      (config.build names : StateM Machine (Except Failure Unit)).run machine =
        (.ok (), middle.told history)) ∨
    ∃ failing ∈ bundles, ∃ failure middle after,
      (config.build names : StateM Machine (Except Failure Unit)).run machine =
        (.error (.building failing.name failure), after) ∧
      (failing.build config : StateM Machine (Except Failure Unit)).run middle = (.error failure, after) ∧
      failing.Stops config middle failure after := by
  obtain ⟨done, rest, middle, rfl, completed, ends⟩ := exists_completesEach config bundles machine
  rcases ends with rfl | ⟨failing, later, failure, after, rfl, runs, stops⟩
  · left
    rw [List.append_nil] at selected ⊢
    obtain ⟨history, runs⟩ := run_build_of_completes selected completed
    exact ⟨middle, history, completed, runs⟩
  · right
    have stopped := run_buildEach_of_stops completed runs later
    exact ⟨failing, by simp, failure, middle, after, run_build_of_stops selected stopped, runs, stops⟩

/-- All that a run of bundles does. Nothing happens if a bundle is asked for that there is not. Otherwise the
bundles are built in their order, and the run ends with all of them built or with the first that fails, whose
name goes with the failure; the same happens whatever bundles come after that one. -/
theorem run_build (config : Config) (names : List String) (machine : Machine) :
    match config.select names with
    | .error unknown =>
      (config.build names : StateM Machine (Except Failure Unit)).run machine =
        (.error (.unknownBundle unknown), machine)
    | .ok bundles => bundles.Sublist config.bundles ∧
      ∃ done rest middle, bundles = done ++ rest ∧ Bundle.CompletesEach config done machine middle ∧
        ((rest = [] ∧ ∃ history,
            (config.build names : StateM Machine (Except Failure Unit)).run machine =
              (.ok (), middle.told history)) ∨
          ∃ failing later failure after, rest = failing :: later ∧
            (config.build names : StateM Machine (Except Failure Unit)).run machine =
              (.error (.building failing.name failure), after) ∧
            (failing.build config : StateM Machine (Except Failure Unit)).run middle =
              (.error failure, after) ∧
            failing.Stops config middle failure after ∧
            ∀ others, (config.buildEach (done ++ failing :: others) :
                StateM Machine (Except Failure Unit)).run machine =
              (.error (.building failing.name failure), after)) := by
  cases selected : config.select names with
  | error unknown =>
    dsimp only
    rw [build, selected]
    rfl
  | ok bundles =>
    obtain ⟨done, rest, middle, rfl, completed, ends⟩ := exists_completesEach config bundles machine
    refine ⟨select_sublist selected, done, rest, middle, rfl, completed, ?_⟩
    rcases ends with rfl | ⟨failing, later, failure, after, rfl, runs, stops⟩
    · left
      rw [List.append_nil] at selected
      exact ⟨rfl, run_build_of_completes selected completed⟩
    · right
      have stopped := run_buildEach_of_stops completed runs
      exact ⟨failing, later, failure, after, rfl, run_build_of_stops selected (stopped later), runs, stops, stopped⟩

end Config

end PageInliner
