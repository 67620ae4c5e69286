import PageInliner.Build
import PageInliner.Proofs.Answer
import PageInliner.Proofs.Files.Requests

/-!
# Drafts on a tree of files

On a tree of files the draft of a bundle is a function of the tree, the bundle and the configuration. Making
it leaves the tree as it is: all that is added to the machine is what was reported.
-/

set_option autoImplicit false

namespace PageInliner

namespace Machine

/-- The asset in a file, whose path is seen from the directory. -/
def input (machine : Machine) (directory : Path) (source : Asset.Source) : Except BuildError Asset :=
  match machine.text (directory.join source.path) with
  | .error cause => .error (.ofRead (directory.join source.path) cause)
  | .ok text => .ok ⟨source.kind, directory.join source.path, text⟩

def inputs (machine : Machine) (directory : Path) (sources : List Asset.Source) :
    Except BuildError (List Asset) :=
  sources.mapM (machine.input directory)

/-- The draft of a bundle, as the files of the machine have it. -/
def draft (machine : Machine) (bundle : Bundle) (config : Config) : Except Failure Draft :=
  match machine.inputs (bundle.directory config.root) bundle.inputs with
  | .error error => .error (.bundle error)
  | .ok inputs =>
    (bundle.assemble config.strictMarkers (bundle.minifies config.minify) inputs).1.map
      (Draft.mk (bundle.destination config.root))

/-- A draft is made of the inputs that were read, and it is to be written to the file of the bundle. -/
theorem draft_eq_ok {machine : Machine} {bundle : Bundle} {config : Config} {draft : Draft}
    (made : machine.draft bundle config = .ok draft) :
    ∃ inputs, machine.inputs (bundle.directory config.root) bundle.inputs = .ok inputs ∧
      (bundle.assemble config.strictMarkers (bundle.minifies config.minify) inputs).1 = .ok draft.html ∧
      draft.path = bundle.destination config.root := by
  unfold Machine.draft at made
  split at made
  case h_1 => cases made
  case h_2 inputs read =>
    obtain ⟨html, page, rfl⟩ := map_eq_ok made
    exact ⟨inputs, read, page, rfl⟩

theorem input_of_read {machine other : Machine} {directory : Path} {source : Asset.Source} {asset : Asset}
    (made : machine.input directory source = .ok asset)
    (reads : ∀ bytes, machine.read (directory.join source.path) = .ok bytes →
      other.read (directory.join source.path) = .ok bytes) : other.input directory source = .ok asset := by
  unfold input text at made ⊢
  cases read : machine.read (directory.join source.path) with
  | error cause =>
    rw [read] at made
    cases made
  | ok bytes =>
    rw [read] at made
    rw [reads bytes read]
    exact made

/-- Inputs that were read are read in any machine that has their files. -/
theorem inputs_of_read {machine other : Machine} {directory : Path} {sources : List Asset.Source}
    {assets : List Asset} (made : machine.inputs directory sources = .ok assets)
    (reads : ∀ source ∈ sources, ∀ bytes, machine.read (directory.join source.path) = .ok bytes →
      other.read (directory.join source.path) = .ok bytes) : other.inputs directory sources = .ok assets := by
  induction sources generalizing assets with
  | nil => exact made
  | cons source sources ih =>
    rw [List.forall_mem_cons] at reads
    rw [inputs, List.mapM_cons] at made ⊢
    obtain ⟨asset, first, made⟩ := bind_eq_ok made
    obtain ⟨rest, later, made⟩ := bind_eq_ok made
    have firstAlso := input_of_read first reads.1
    have laterAlso := ih later reads.2
    rw [inputs] at laterAlso
    rw [firstAlso, laterAlso]
    exact made

theorem input_told (machine : Machine) (history : List Event) :
    (machine.told history).input = machine.input := by
  funext directory source
  unfold input text
  rw [read_told]

theorem inputs_told (machine : Machine) (history : List Event) :
    (machine.told history).inputs = machine.inputs := by
  unfold inputs
  rw [input_told]

end Machine

theorem run_readInput (directory : Path) (source : Asset.Source) (machine : Machine) :
    ∃ history, (readInput directory source : StateM Machine (Except BuildError Asset)).run machine =
      (machine.input directory source, machine.told history) := by
  unfold readInput Machine.input
  rw [run_bind, run_readText]
  cases machine.text (directory.join source.path) with
  | error cause =>
    refine ⟨machine.history, ?_⟩
    dsimp only
    rw [run_pure]
    rfl
  | ok text =>
    refine ⟨.loaded source.kind (directory.join source.path) text.utf8ByteSize :: machine.history, ?_⟩
    dsimp only
    rw [run_bind, run_report, run_pure]

theorem run_readInputs (directory : Path) (sources : List Asset.Source) (machine : Machine) :
    ∃ history,
      (readInputs directory sources : StateM Machine (Except BuildError (List Asset))).run machine =
        (machine.inputs directory sources, machine.told history) := by
  induction sources generalizing machine with
  | nil => exact ⟨machine.history, rfl⟩
  | cons source sources ih =>
    obtain ⟨history, first⟩ := run_readInput directory source machine
    rw [readInputs, run_bind, first, Machine.inputs, List.mapM_cons]
    cases machine.input directory source with
    | error error =>
      refine ⟨history, ?_⟩
      dsimp only
      rw [run_pure]
      rfl
    | ok asset =>
      obtain ⟨later, rest⟩ := ih (machine.told history)
      refine ⟨later, ?_⟩
      dsimp only
      rw [run_bind, rest, Machine.inputs_told, Machine.told_told, run_pure, Machine.inputs]
      cases sources.mapM (machine.input directory) <;> rfl

/-- The draft of a bundle changes nothing but the history. -/
theorem run_draft (bundle : Bundle) (config : Config) (machine : Machine) :
    ∃ history, (bundle.draft config : StateM Machine (Except Failure Draft)).run machine =
      (machine.draft bundle config, machine.told history) := by
  obtain ⟨history, read⟩ := run_readInputs (bundle.directory config.root) bundle.inputs
    (machine.told (.bundleStarted bundle.name (bundle.directory config.root) :: machine.history))
  rw [Machine.inputs_told, Machine.told_told] at read
  rw [Bundle.draft, run_bind, run_report, run_bind, read, Machine.draft]
  cases machine.inputs (bundle.directory config.root) bundle.inputs with
  | error error => exact ⟨history, rfl⟩
  | ok inputs =>
    dsimp only
    obtain ⟨later, reported⟩ := run_forM_report
      (bundle.assemble config.strictMarkers (bundle.minifies config.minify) inputs).2
      (machine.told history)
    refine ⟨later, ?_⟩
    rw [run_bind, reported, Machine.told_told, run_pure]

end PageInliner
