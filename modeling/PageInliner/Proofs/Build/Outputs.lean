import PageInliner.Proofs.Build.Run
import PageInliner.Proofs.Files.Writable

/-!
# What a run leaves in the files it has written

Nothing keeps two bundles from being written to the same file, under one path or under two that lead to one
place. In the order of the run each page takes the place of the one before, so the last of them is what the file
holds.
-/

set_option autoImplicit false

namespace PageInliner

/-- Bundles are built one after the other. Beside each stands the page that was composed for it, from the files
that those before it had left. -/
inductive Config.Composes (config : Config) : List (Bundle × String) → Machine → Machine → Prop where
  | nil {machine : Machine} : Composes config [] machine machine
  | cons {bundle : Bundle} {html : String} {rows : List (Bundle × String)} {before middle after : Machine} :
      before.draft bundle config = .ok ⟨bundle.destination config.root, html⟩ →
      bundle.Completes config before middle → Composes config rows middle after →
      Composes config ((bundle, html) :: rows) before after

/-- The page of the last bundle of a row that is written to a place. -/
def Machine.lastPage? (machine : Machine) (config : Config) (place : Place) (rows : List (Bundle × String)) :
    Option String :=
  (rows.filter fun row => machine.resolve? (row.1.destination config.root) = some place).getLast?.map Prod.snd

theorem Machine.lastPage?_congr {machine other : Machine} (kept : machine.Keeps other) :
    other.lastPage? = machine.lastPage? := by
  funext config place rows
  rw [lastPage?, lastPage?, resolve?_congr kept.directory kept.removed]

theorem Machine.getD_lastPage?_cons (machine : Machine) (config : Config) (place : Place) (bundle : Bundle)
    (html old : String) (rows : List (Bundle × String)) :
    (machine.lastPage? config place ((bundle, html) :: rows)).getD old =
      (machine.lastPage? config place rows).getD
        (if machine.resolve? (bundle.destination config.root) = some place then html else old) := by
  unfold lastPage?
  by_cases here : machine.resolve? (bundle.destination config.root) = some place
  · rw [List.filter_cons_of_pos (by simpa using here), List.getLast?_cons, if_pos here]
    generalize (rows.filter _).getLast? = last
    cases last <;> rfl
  · rw [List.filter_cons_of_neg (by simpa using here), if_neg here]

namespace Config

theorem exists_composes {config : Config} {bundles : List Bundle} {before after : Machine}
    (completed : Bundle.CompletesEach config bundles before after) :
    ∃ rows, rows.map Prod.fst = bundles ∧ config.Composes rows before after := by
  induction completed with
  | nil => exact ⟨[], rfl, .nil⟩
  | cons first _ ih =>
    obtain ⟨rows, same, composes⟩ := ih
    obtain ⟨html, _, drafted, _⟩ := first.exists_draft
    exact ⟨(_, html) :: rows, by rw [List.map_cons, same], .cons drafted first composes⟩

namespace Composes

variable {config : Config} {rows : List (Bundle × String)} {before after : Machine}

theorem draft_head {bundle : Bundle} {html : String}
    (composes : config.Composes ((bundle, html) :: rows) before after) :
    before.draft bundle config = .ok ⟨bundle.destination config.root, html⟩ := by
  cases composes with
  | cons drafted _ _ => exact drafted

theorem keeps (composes : config.Composes rows before after) : before.Keeps after := by
  induction composes with
  | nil => exact .refl _
  | cons drafted first _ ih =>
    obtain ⟨_, writes⟩ := first.writes_of_draft drafted
    exact writes.keeps.trans ih

/-- A file that was there is there at the end, with the page of the last bundle that was written to it. -/
theorem find?_of_file (composes : config.Composes rows before after) {place : Place} {old : String}
    (found : before.tree.find? place = some (.file old.toUTF8)) :
    after.tree.find? place = some (.file ((before.lastPage? config place rows).getD old).toUTF8) := by
  induction composes generalizing old with
  | nil => exact found
  | @cons bundle html rows before middle after drafted first _ ih =>
    obtain ⟨target, writes⟩ := first.writes_of_draft drafted
    rw [Machine.getD_lastPage?_cons, writes.resolve?_eq, ← Machine.lastPage?_congr writes.keeps]
    apply ih
    by_cases here : target = place
    · subst here
      rw [if_pos rfl]
      exact writes.find?_place
    · rw [if_neg fun same => here (Option.some.inj same), ← found]
      apply writes.find?_of_not_mem (Ne.symm here)
      intro onWay
      rcases writes.before_of_mem onWay with isDirectory | missing
      · rw [found] at isDirectory
        cases isDirectory
      · rw [found] at missing
        cases missing

/-- The file of a bundle holds its page or that of the last bundle after it that is written to the same place. -/
theorem read (composes : config.Composes rows before after) {front back : List (Bundle × String)}
    {bundle : Bundle} {html : String} (split : rows = front ++ (bundle, html) :: back) :
    ∃ place, before.resolve? (bundle.destination config.root) = some place ∧
      after.read (bundle.destination config.root) =
        .ok ((before.lastPage? config place back).getD html).toUTF8 := by
  induction composes generalizing front with
  | nil => cases front <;> cases split
  | @cons first page rows before middle after drafted completes rest ih =>
    obtain ⟨target, writes⟩ := completes.writes_of_draft drafted
    cases front with
    | nil =>
      rw [List.nil_append, List.cons.injEq] at split
      obtain ⟨⟨rfl, rfl⟩, rfl⟩ := split
      refine ⟨target, writes.resolve?_eq, ?_⟩
      have found := rest.find?_of_file writes.find?_place
      rw [← Machine.lastPage?_congr writes.keeps]
      apply Machine.read_of_keeps writes.read rest.keeps ?_ found
      rw [Machine.resolve?_congr writes.directory writes.removed]
      exact writes.resolve?_eq
    | cons row front =>
      rw [List.cons_append, List.cons.injEq] at split
      obtain ⟨place, leads, holds⟩ := ih split.2
      rw [Machine.resolve?_congr writes.directory writes.removed] at leads
      rw [Machine.lastPage?_congr writes.keeps] at holds
      exact ⟨place, leads, holds⟩

end Composes

theorem exists_composes_of_build {config : Config} {names : List String} {machine after : Machine}
    (ran : (config.build names : StateM Machine (Except Failure Unit)).run machine = (.ok (), after)) :
    ∃ rows history, config.select names = .ok (rows.map Prod.fst) ∧
      config.Composes rows machine (after.told history) := by
  cases selected : config.select names with
  | error unknown =>
    rw [build, selected] at ran
    cases ran
  | ok bundles =>
    rcases run_build_of_select selected machine with
      ⟨middle, history, completed, runs⟩ | ⟨_, _, _, _, _, runs, _⟩
    · rw [ran, Prod.mk.injEq] at runs
      obtain ⟨_, rfl⟩ := runs
      obtain ⟨rows, rfl, composes⟩ := exists_composes completed
      exact ⟨rows, middle.history, rfl, composes⟩
    · cases ran.symm.trans runs

/-- After a run that succeeds the file of each bundle that was asked for holds the page that was composed for it,
or that of the last bundle behind it whose file is the same. -/
theorem build_holds_last_page {config : Config} {names : List String} {machine after : Machine}
    (ran : (config.build names : StateM Machine (Except Failure Unit)).run machine = (.ok (), after)) :
    ∃ rows history, config.select names = .ok (rows.map Prod.fst) ∧
      config.Composes rows machine (after.told history) ∧
      ∀ front bundle html back, rows = front ++ (bundle, html) :: back →
        ∃ spot, machine.resolve? (bundle.destination config.root) = some spot.place ∧
          after.locate (bundle.destination config.root) = .ok (some spot) ∧
          after.read (bundle.destination config.root) =
            .ok ((machine.lastPage? config spot.place back).getD html).toUTF8 := by
  obtain ⟨rows, history, selected, composes⟩ := exists_composes_of_build ran
  refine ⟨rows, history, selected, composes, ?_⟩
  intro front bundle html back split
  obtain ⟨place, leads, holds⟩ := composes.read split
  rw [Machine.read_told] at holds
  obtain ⟨spot, located, _⟩ := Machine.read_eq_ok_iff.mp holds
  have same : after.resolve? = machine.resolve? :=
    Machine.resolve?_congr composes.keeps.directory composes.keeps.removed
  have reached := Machine.resolve?_of_locate located
  rw [same, leads] at reached
  cases reached
  exact ⟨spot, leads, located, holds⟩

/-- A bundle with one script in a template. -/
def scripted (name : String) (output script : Path) : Bundle :=
  { Bundle.blank with
    name := name
    output := output
    template := some ⟨"t.html"⟩
    rules := [⟨.script, "S", script⟩] }

/-- Two bundles with one file between them, under two paths. -/
def oneFile : Config where
  configPath := none
  root := .empty
  strictMarkers := true
  minify := false
  bundles := [
    scripted "first" ⟨"page.html"⟩ ⟨"a.js"⟩,
    scripted "second" ⟨"out/../page.html"⟩ ⟨"b.js"⟩]

/-- A template and two scripts. -/
def scriptSources : Machine :=
  .start ⟨[("t.html", .file "S".toUTF8), ("a.js", .file "1".toUTF8), ("b.js", .file "2".toUTF8)]⟩ []

private theorem exists_run_oneFile :
    ∃ after, (oneFile.build [] : StateM Machine (Except Failure Unit)).run scriptSources = (.ok (), after) ∧
      after.read ⟨"page.html"⟩ = .ok "<script>\n2\n</script>".toUTF8 := by
  have succeeds :
      ((oneFile.build [] : StateM Machine (Except Failure Unit)).run scriptSources).1.isOk = true := by
    decide +kernel
  have holds : (((oneFile.build [] : StateM Machine (Except Failure Unit)).run scriptSources).2.read
      ⟨"page.html"⟩).toOption = some "<script>\n2\n</script>".toUTF8 := by
    decide +kernel
  obtain ⟨after, ran⟩ := exists_eq_of_isOk succeeds
  rw [ran] at holds
  refine ⟨after, ran, ?_⟩
  cases read : after.read ⟨"page.html"⟩ with
  | error cause =>
    rw [read] at holds
    cases holds
  | ok bytes =>
    rw [read] at holds
    exact congrArg Except.ok (Option.some.inj holds)

theorem build_holds_last_page_oneFile :
    ∃ after rows history,
      (oneFile.build [] : StateM Machine (Except Failure Unit)).run scriptSources = (.ok (), after) ∧
        rows.map Prod.fst = oneFile.bundles ∧ oneFile.Composes rows scriptSources (after.told history) ∧
        ∀ front bundle html back, rows = front ++ (bundle, html) :: back →
          ∃ spot, scriptSources.resolve? (bundle.destination oneFile.root) = some spot.place ∧
            after.locate (bundle.destination oneFile.root) = .ok (some spot) ∧
            after.read (bundle.destination oneFile.root) =
              .ok ((scriptSources.lastPage? oneFile spot.place back).getD html).toUTF8 := by
  obtain ⟨after, ran, _⟩ := exists_run_oneFile
  obtain ⟨rows, history, selected, composes, holds⟩ := build_holds_last_page ran
  exact ⟨after, rows, history, ran, (Except.ok.inj selected).symm, composes, holds⟩

/-- The page of the first bundle is lost, though the configuration is accepted and the run succeeds. -/
theorem page_lost_in_oneFile :
    oneFile.validate = .ok () ∧
      ∃ after rows history,
        (oneFile.build [] : StateM Machine (Except Failure Unit)).run scriptSources = (.ok (), after) ∧
          oneFile.select [] = .ok (rows.map Prod.fst) ∧
          oneFile.Composes rows scriptSources (after.told history) ∧
          ∃ row ∈ rows, after.read (row.1.destination oneFile.root) ≠ .ok row.2.toUTF8 := by
  have accepted : oneFile.validate = .ok () := by
    rw [validate, if_neg (by decide), if_pos (by decide +kernel)]
  obtain ⟨after, ran, holds⟩ := exists_run_oneFile
  obtain ⟨rows, history, selected, composes⟩ := exists_composes_of_build ran
  refine ⟨accepted, after, rows, history, ran, selected, composes, ?_⟩
  have same : oneFile.bundles = rows.map Prod.fst := Except.ok.inj selected
  cases rows with
  | nil => cases same
  | cons row rows =>
    obtain ⟨bundle, html⟩ := row
    have drafted := composes.draft_head
    rw [oneFile, List.map_cons, List.cons.injEq] at same
    obtain ⟨rfl, _⟩ := same
    refine ⟨(_, html), List.mem_cons_self, ?_⟩
    have page :
        (scriptSources.draft (scripted "first" ⟨"page.html"⟩ ⟨"a.js"⟩) oneFile).toOption.map Draft.html =
          some "<script>\n1\n</script>" := by
      decide +kernel
    rw [drafted] at page
    cases page
    change after.read ⟨"page.html"⟩ ≠ _
    rw [holds]
    decide +kernel

end Config

end PageInliner
