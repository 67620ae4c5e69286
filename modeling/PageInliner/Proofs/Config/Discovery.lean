import PageInliner.Config.Loading
import PageInliner.Proofs.Config.Acceptance
import PageInliner.Proofs.Files.Ancestors
import PageInliner.Proofs.Files.Requests

/-!
# Where the configuration of a run comes from

The configuration is read from the nearest file there is, from the working directory upwards. A directory of
that name is passed over, but a file that cannot be used is an error, whatever stands further up. The standard
configuration is for runs that name no file and find none.
-/

set_option autoImplicit false

namespace PageInliner

namespace Machine

/-- From the directory at that place the name leads to a file. -/
def HasFile (machine : Machine) (name : Path) (place : Place) : Prop :=
  machine.isFile (place.path.join name) = true

instance (machine : Machine) (name : Path) (place : Place) : Decidable (machine.HasFile name place) :=
  inferInstanceAs (Decidable (machine.isFile (place.path.join name) = true))

/-- What a configuration file says. -/
def reading (machine : Machine) (file : Path) : Except ConfigError (Reading Config) :=
  match machine.text file with
  | .error cause => .error (.unreadable file cause)
  | .ok text =>
    match Config.ofText? text with
    | none => .error .malformed
    | some reading => .ok reading

/-- The configuration in a file, with the root it is given, if it can be used. -/
def configuration (machine : Machine) (file root : Path) : Except Failure Config :=
  match machine.reading file with
  | .error error => .error (.config error)
  | .ok reading =>
    let config := { reading.value with root := root, configPath := some file }
    match config.validate with
    | .error error => .error (.config error)
    | .ok () => .ok config

theorem reading_told (machine : Machine) (history : List Event) (file : Path) :
    (machine.told history).reading file = machine.reading file := by
  rw [reading, reading, text, text, read_told]

theorem text_of_reading {machine : Machine} {file : Path} {given : Reading Config}
    (reads : machine.reading file = .ok given) : ∃ text, machine.text file = .ok text := by
  unfold reading at reads
  cases contents : machine.text file with
  | error cause =>
    rw [contents] at reads
    cases reads
  | ok text => exact ⟨text, rfl⟩

theorem configuration_eq_ok {machine : Machine} {file root : Path} {config : Config}
    (given : machine.configuration file root = .ok config) :
    config.validate = .ok () ∧ config.root = root ∧ config.configPath = some file ∧
      ∃ text, machine.text file = .ok text := by
  unfold configuration at given
  cases reads : machine.reading file with
  | error error =>
    rw [reads] at given
    cases given
  | ok reading =>
    rw [reads] at given
    dsimp only at given
    split at given
    · cases given
    · rename_i accepted
      cases given
      exact ⟨accepted, rfl, rfl, text_of_reading reads⟩

end Machine

namespace Config

/-- What the search for a configuration leads to: a file, the standard configuration, or the word that there
is no such file. -/
inductive Discovery (machine : Machine) : (name : Option Path) → Except Failure Config → Prop where
  | usual {top : Place} : Place.Nearest (machine.HasFile ⟨fileName⟩) machine.directory top →
      Discovery machine none (machine.configuration (top.path.join ⟨fileName⟩) top.path)
  | standard : (∀ top, top <:+ machine.directory → ¬ machine.HasFile ⟨fileName⟩ top) →
      Discovery machine none (.ok { standard with root := machine.directory.path })
  | relative {name parent : Path} {top : Place} : name.isAbsolute = false →
      Place.Nearest (machine.HasFile name) machine.directory top → (top.path.join name).parent? = some parent →
      Discovery machine (some name) (machine.configuration (top.path.join name) parent)
  | relativeMissing {name : Path} : name.isAbsolute = false →
      (∀ top, top <:+ machine.directory → ¬ machine.HasFile name top) →
      Discovery machine (some name) (.error (.config (.unreadable name .noConfigFile)))
  | absolute {name parent : Path} : name.isAbsolute = true → machine.isFile name = true →
      name.parent? = some parent → Discovery machine (some name) (machine.configuration name parent)
  | absoluteMissing {name : Path} : name.isAbsolute = true → machine.isFile name = false →
      Discovery machine (some name) (.error (.config (.unreadable name .noConfigFile)))

section Search

variable {machine : Machine} {name : Option Path}

theorem run_ofFile (file : Path) (machine : Machine) :
    ∃ history, (ofFile file : StateM Machine (Except ConfigError Config)).run machine =
      ((machine.reading file).map fun reading : Reading Config =>
        { reading.value with root := file.parent?.getD .empty, configPath := some file }, machine.told history) := by
  rw [ofFile, run_bind, run_readText, Machine.reading]
  cases machine.text file with
  | error cause => exact ⟨machine.history, rfl⟩
  | ok text =>
    dsimp only
    cases ofText? text with
    | none => exact ⟨machine.history, rfl⟩
    | some reading =>
      dsimp only
      cases reading.ignored.isEmpty with
      | true => exact ⟨machine.history, rfl⟩
      | false => exact ⟨_, rfl⟩

theorem run_find_of_file {directory file : Path}
    (found : (candidates directory (name.getD ⟨fileName⟩)).find? machine.isFile = some file) :
    ∃ history, (find directory name : StateM Machine (Except ConfigError Config)).run machine =
      ((machine.reading file).map fun reading : Reading Config =>
        { reading.value with root := file.parent?.getD .empty, configPath := some file }, machine.told history) := by
  unfold find
  rw [run_bind, run_findFile, found]
  dsimp only
  rw [run_bind, run_report]
  obtain ⟨history, run⟩ := run_ofFile file (machine.told (.configUsed file :: machine.history))
  rw [Machine.reading_told] at run
  exact ⟨history, run⟩

theorem run_find_of_none {directory : Path}
    (missing : (candidates directory (name.getD ⟨fileName⟩)).find? machine.isFile = none) :
    ∃ history, (find directory name : StateM Machine (Except ConfigError Config)).run machine =
      (match name with
        | some name => .error (.unreadable name .noConfigFile)
        | none => .ok standard, machine.told history) := by
  unfold find
  rw [run_bind, run_findFile, missing]
  cases name <;> exact ⟨_, rfl⟩

theorem run_load_of_error {error : ConfigError} {after : Machine} (present : machine.removed = 0)
    (found : (find machine.directory.path name : StateM Machine (Except ConfigError Config)).run machine =
      (.error error, after)) :
    (load name : StateM Machine (Except Failure Config)).run machine = (.error (.config error), after) := by
  rw [load, run_bind, run_workingDirectory, if_pos present]
  dsimp only
  rw [run_bind, found]
  rfl

theorem run_load_of_ok {config : Config} {after : Machine} (present : machine.removed = 0)
    (found : (find machine.directory.path name : StateM Machine (Except ConfigError Config)).run machine =
      (.ok config, after)) :
    (load name : StateM Machine (Except Failure Config)).run machine =
      (match (config.rootedAt machine.directory.path).validate with
        | .error error => .error (.config error)
        | .ok () => .ok (config.rootedAt machine.directory.path), after) := by
  rw [load, run_bind, run_workingDirectory, if_pos present]
  dsimp only
  rw [run_bind, found]
  dsimp only
  cases (config.rootedAt machine.directory.path).validate <;> rfl

theorem validate_standard (root : Path) : { standard with root := root }.validate = .ok () := rfl

/-- A file that is found is read, with the directory it is in as the root. -/
theorem run_load_of_file (name : Option Path) {file parent : Path} (present : machine.removed = 0)
    (found : (candidates machine.directory.path (name.getD ⟨fileName⟩)).find? machine.isFile = some file)
    (inParent : file.parent? = some parent) (absolute : parent.isAbsolute = true) :
    ∃ history, (load name : StateM Machine (Except Failure Config)).run machine =
      (machine.configuration file parent, machine.told history) := by
  obtain ⟨history, run⟩ := run_find_of_file found
  refine ⟨history, ?_⟩
  rw [inParent] at run
  rw [Machine.configuration]
  cases reads : machine.reading file with
  | error error =>
    rw [reads] at run
    exact run_load_of_error present run
  | ok reading =>
    rw [reads] at run
    have rooted : ({ reading.value with root := parent, configPath := some file } : Config).rootedAt
        machine.directory.path = { reading.value with root := parent, configPath := some file } := by
      rw [rootedAt, if_neg (by simp [Path.isEmpty_of_isAbsolute absolute])]
    have whole := run_load_of_ok present run
    rwa [Option.getD_some, rooted] at whole

theorem run_load_of_none (name : Option Path) (present : machine.removed = 0)
    (missing : (candidates machine.directory.path (name.getD ⟨fileName⟩)).find? machine.isFile = none) :
    ∃ history, (load name : StateM Machine (Except Failure Config)).run machine =
      (match name with
        | some name => .error (.config (.unreadable name .noConfigFile))
        | none => .ok { standard with root := machine.directory.path }, machine.told history) := by
  obtain ⟨history, run⟩ := run_find_of_none missing
  refine ⟨history, ?_⟩
  cases name with
  | some name => exact run_load_of_error present run
  | none =>
    have whole := run_load_of_ok present run
    have rooted : standard.rootedAt machine.directory.path = { standard with root := machine.directory.path } := rfl
    rwa [rooted, validate_standard] at whole

theorem find?_candidates {name : Path} (relative : name.isAbsolute = false) (named : machine.directory.Named) :
    (∃ top, Place.Nearest (machine.HasFile name) machine.directory top ∧
        (candidates machine.directory.path name).find? machine.isFile = some (top.path.join name)) ∨
      (∀ top, top <:+ machine.directory → ¬ machine.HasFile name top) ∧
        (candidates machine.directory.path name).find? machine.isFile = none := by
  -- The search along the paths is one along the places they belong to.
  have search : (candidates machine.directory.path name).find? machine.isFile =
      (machine.directory.tails.find? fun top => machine.isFile ((Place.path top).join name)).map
        fun top => (Place.path top).join name := by
    rw [candidates, if_neg (by simp [relative]), Place.ancestors_path named, List.map_map, List.find?_map]
    rfl
  rcases Place.find?_tails (fun top => machine.isFile ((Place.path top).join name)) machine.directory with
    ⟨top, nearest, found⟩ | ⟨none, missing⟩
  · refine .inl ⟨top, nearest, ?_⟩
    rw [search, found, Option.map_some]
  · refine .inr ⟨fun top above => by simp [Machine.HasFile, none top above], ?_⟩
    rw [search, missing, Option.map_none]

theorem find?_candidates_of_isAbsolute {directory name : Path} (absolute : name.isAbsolute = true) :
    (candidates directory name).find? machine.isFile = if machine.isFile name = true then some name else none := by
  rw [candidates, if_pos absolute, List.find?_singleton]

theorem isName_fileName : Place.IsName fileName := by decide

theorem hasFile_fileName_iff {top : Place} (named : top.Named)
    (short : (Place.path (fileName :: top)).text.utf8ByteSize ≤ FileTree.longestPath) :
    machine.HasFile ⟨fileName⟩ top ↔ ∃ bytes, machine.tree.find? (fileName :: top) = some (.file bytes) := by
  have below := named.cons isName_fileName
  rw [Machine.HasFile, Place.path_join below]
  exact Machine.isFile_path_iff below short

/-- A configuration with which a run can begin: it comes from a file that was read, or none was asked for and
there is none. -/
structure Ready (machine : Machine) (name : Option Path) (config : Config) : Prop where
  accepted : config.validate = .ok ()
  rooted : config.root.isAbsolute = true
  read : ∀ file, config.configPath = some file → ∃ text, machine.text file = .ok text
  unread : config.configPath = none →
    name = none ∧ ∀ top, top <:+ machine.directory → ¬ machine.HasFile ⟨fileName⟩ top

theorem Ready.of_configuration {file root : Path} {config : Config} (absolute : root.isAbsolute = true)
    (given : machine.configuration file root = .ok config) : Ready machine name config := by
  obtain ⟨accepted, rooted, fromFile, reads⟩ := Machine.configuration_eq_ok given
  refine ⟨accepted, rooted ▸ absolute, ?_, ?_⟩
  · intro other same
    rw [fromFile, Option.some_inj] at same
    exact same ▸ reads
  · intro none
    rw [fromFile] at none
    cases none

theorem Discovery.ready {answer : Except Failure Config} {config : Config}
    (discovery : Discovery machine name answer) (given : answer = .ok config) : Ready machine name config := by
  cases discovery with
  | usual nearest => exact .of_configuration (Place.isAbsolute_path _) given
  | standard missing =>
    cases given
    exact ⟨validate_standard _, Place.isAbsolute_path _, nofun, fun _ => ⟨rfl, missing⟩⟩
  | relative _ nearest inParent =>
    obtain ⟨parent, same, absolute⟩ :=
      Machine.exists_parent_of_isFile (Path.isAbsolute_join (Place.isAbsolute_path _) _) nearest.holds
    cases inParent.symm.trans same
    exact .of_configuration absolute given
  | relativeMissing => cases given
  | absolute fromRoot isFile inParent =>
    obtain ⟨parent, same, absolute⟩ := Machine.exists_parent_of_isFile fromRoot isFile
    cases inParent.symm.trans same
    exact .of_configuration absolute given
  | absoluteMissing => cases given

theorem exists_discovery (present : machine.removed = 0) (named : machine.directory.Named) (name : Option Path) :
    ∃ answer history, (load name : StateM Machine (Except Failure Config)).run machine =
      (answer, machine.told history) ∧ Discovery machine name answer := by
  cases name with
  | none =>
    have usual : (Path.mk fileName).isAbsolute = false := by decide
    rcases find?_candidates usual named with ⟨top, nearest, found⟩ | ⟨missing, unfound⟩
    · have inParent : (top.path.join ⟨fileName⟩).parent? = some top.path := by
        have below := (named.suffix nearest.above).cons isName_fileName
        rw [Place.path_join below, Place.parent?_path below]
      obtain ⟨history, run⟩ := run_load_of_file none present found inParent top.isAbsolute_path
      exact ⟨_, history, run, .usual nearest⟩
    · obtain ⟨history, run⟩ := run_load_of_none none present unfound
      exact ⟨_, history, run, .standard missing⟩
  | some name =>
    cases absolute : name.isAbsolute with
    | false =>
      rcases find?_candidates absolute named with ⟨top, nearest, found⟩ | ⟨missing, unfound⟩
      · obtain ⟨parent, inParent, fromRoot⟩ :=
          Machine.exists_parent_of_isFile (Path.isAbsolute_join top.isAbsolute_path name) nearest.holds
        obtain ⟨history, run⟩ := run_load_of_file (some name) present found inParent fromRoot
        exact ⟨_, history, run, .relative absolute nearest inParent⟩
      · obtain ⟨history, run⟩ := run_load_of_none (some name) present unfound
        exact ⟨_, history, run, .relativeMissing absolute missing⟩
    | true =>
      have search : (candidates machine.directory.path name).find? machine.isFile =
          if machine.isFile name = true then some name else none := find?_candidates_of_isAbsolute absolute
      cases isFile : machine.isFile name with
      | true =>
        obtain ⟨parent, inParent, fromRoot⟩ := Machine.exists_parent_of_isFile absolute isFile
        rw [if_pos isFile] at search
        obtain ⟨history, run⟩ := run_load_of_file (some name) present search inParent fromRoot
        exact ⟨_, history, run, .absolute absolute isFile inParent⟩
      | false =>
        rw [if_neg (by simp [isFile])] at search
        obtain ⟨history, run⟩ := run_load_of_none (some name) present search
        exact ⟨_, history, run, .absoluteMissing absolute isFile⟩

/-- A run has its configuration from the nearest file, as the search says. Up to the longest path there is, that
a directory has the usual file is a matter of the tree alone. What the search finds can be used to begin a run,
and a file that was asked for and is missing counts as not found. -/
theorem load_discovers (present : machine.removed = 0) (named : machine.directory.Named) (name : Option Path) :
    ∃ answer history, (load name : StateM Machine (Except Failure Config)).run machine =
        (answer, machine.told history) ∧
      Discovery machine name answer ∧
      (∀ config, answer = .ok config → Ready machine name config) ∧
      Cause.noConfigFile.isNotFound = true ∧
      ∀ top, top <:+ machine.directory →
        (Place.path (fileName :: top)).text.utf8ByteSize ≤ FileTree.longestPath →
          (machine.HasFile ⟨fileName⟩ top ↔ ∃ bytes, machine.tree.find? (fileName :: top) = some (.file bytes)) := by
  obtain ⟨answer, history, run, discovery⟩ := exists_discovery present named name
  refine ⟨answer, history, run, discovery, fun config given => discovery.ready given, rfl, ?_⟩
  intro top above short
  exact hasFile_fileName_iff (named.suffix above) short

end Search

/-- Below a directory that has the usual file, one that has a directory of that name. -/
def overlaid : Machine :=
  .start ⟨[("work", .directory [(fileName, .file "minify = true".toUTF8),
    ("site", .directory [(fileName, .directory [])])])]⟩ ["site", "work"]

theorem load_discovers_past_directory :
    overlaid.removed = 0 ∧ overlaid.directory.Named ∧
      ∃ history, (load none : StateM Machine (Except Failure Config)).run overlaid =
        (.ok { standard with minify := true, root := ⟨"/work"⟩, configPath := some ⟨"/work/monohtml.toml"⟩ },
          overlaid.told history) := by
  have present : overlaid.removed = 0 := rfl
  have named : overlaid.directory.Named := by decide
  have above : overlaid.HasFile ⟨fileName⟩ ["work"] := by decide +kernel
  have here : ¬ overlaid.HasFile ⟨fileName⟩ ["site", "work"] := by decide +kernel
  have given : overlaid.configuration ⟨"/work/monohtml.toml"⟩ ⟨"/work"⟩ = .ok
      { standard with minify := true, root := ⟨"/work"⟩, configPath := some ⟨"/work/monohtml.toml"⟩ } := by
    decide +kernel
  obtain ⟨answer, history, run, discovery, _⟩ := load_discovers present named none
  refine ⟨present, named, history, ?_⟩
  rw [run]
  -- Neither the working directory nor the root is the nearest one, so it is the one between them.
  cases discovery with
  | standard missing => exact absurd above (missing ["work"] (List.suffix_cons "site" ["work"]))
  | @usual top nearest =>
    rcases List.suffix_cons_iff.mp nearest.above with rfl | below
    · exact absurd nearest.holds here
    · rcases List.suffix_cons_iff.mp below with rfl | root
      · rw [← given]
        rfl
      · rw [List.suffix_nil.mp root] at nearest
        exact absurd above (nearest.nearest ["work"] (List.suffix_cons "site" ["work"]) (by decide))

end Config

end PageInliner
