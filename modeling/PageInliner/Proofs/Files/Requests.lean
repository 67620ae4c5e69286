import PageInliner.Files.Machine

/-!
# Requests to a tree of files

What each request gives on a tree of files and what it leaves behind. What has been reported before makes no
difference to it.
-/

set_option autoImplicit false

namespace PageInliner

namespace Machine

/-- The contents of a file as a text. -/
def text (machine : Machine) (path : Path) : Except Cause String :=
  match machine.read path with
  | .error cause => .error cause
  | .ok bytes =>
    match String.fromUTF8? bytes with
    | none => .error .invalidText
    | some text => .ok text

/-- The machine with another history. -/
def told (machine : Machine) (history : List Event) : Machine :=
  { machine with history := history }

theorem told_told (machine : Machine) (first second : List Event) :
    (machine.told first).told second = machine.told second := rfl

theorem follow_told (machine : Machine) (history : List Event) :
    (machine.told history).follow = machine.follow := rfl

theorem locate_told (machine : Machine) (history : List Event) (path : Path) :
    (machine.told history).locate path = machine.locate path := by
  simp only [locate, follow_told]

theorem read_told (machine : Machine) (history : List Event) (path : Path) :
    (machine.told history).read path = machine.read path := by
  simp only [read, entry, locate_told]

end Machine

theorem run_bind {α β : Type} (action : StateM Machine α) (next : α → StateM Machine β)
    (machine : Machine) :
    (action >>= next).run machine = (next (action.run machine).1).run (action.run machine).2 := rfl

theorem run_pure {α : Type} (value : α) (machine : Machine) :
    (pure value : StateM Machine α).run machine = (value, machine) := rfl

theorem run_report (event : Event) (machine : Machine) :
    (Host.report event : StateM Machine Unit).run machine =
      ((), machine.told (event :: machine.history)) := rfl

theorem run_workingDirectory (machine : Machine) :
    (Host.workingDirectory : StateM Machine (Except Cause Path)).run machine =
      (if machine.removed = 0 then .ok machine.directory.path else .error .notFound, machine) := rfl

theorem run_readFile (path : Path) (machine : Machine) :
    (Host.readFile path : StateM Machine (Except Cause ByteArray)).run machine =
      (machine.read path, machine) := rfl

theorem run_isFile (path : Path) (machine : Machine) :
    (Host.isFile path : StateM Machine Bool).run machine = (machine.isFile path, machine) := rfl

theorem run_isDirectory (path : Path) (machine : Machine) :
    (Host.isDirectory path : StateM Machine Bool).run machine = (machine.isDirectory path, machine) := rfl

theorem run_makeDirectory (path : Path) (machine : Machine) :
    (Host.makeDirectory path : StateM Machine (Except Cause Unit)).run machine =
      machine.update (machine.withDirectory path) := rfl

theorem run_writeFile (path : Path) (bytes : ByteArray) (machine : Machine) :
    (Host.writeFile path bytes : StateM Machine (Except Cause Unit)).run machine =
      machine.update (machine.withFile path bytes) := rfl

theorem run_fileSize (path : Path) (machine : Machine) :
    (Host.fileSize path : StateM Machine (Except Cause Nat)).run machine =
      ((machine.read path).map ByteArray.size, machine) := rfl

theorem run_readText (path : Path) (machine : Machine) :
    (Host.readText path : StateM Machine (Except Cause String)).run machine =
      (machine.text path, machine) := by
  rw [Host.readText, run_bind, run_readFile, Machine.text]
  cases machine.read path with
  | error cause => rfl
  | ok bytes =>
    dsimp only
    cases String.fromUTF8? bytes <;> rfl

theorem run_findFile (paths : List Path) (machine : Machine) :
    (Host.findFile paths : StateM Machine (Option Path)).run machine = (paths.find? machine.isFile, machine) := by
  induction paths with
  | nil => rfl
  | cons path paths ih =>
    rw [Host.findFile, run_bind, run_isFile, List.find?_cons]
    dsimp only
    cases machine.isFile path with
    | true => rfl
    | false => exact ih

theorem run_forM_report (events : List Event) (machine : Machine) :
    ∃ history, (events.forM Host.report : StateM Machine Unit).run machine =
      ((), machine.told history) := by
  induction events generalizing machine with
  | nil => exact ⟨machine.history, rfl⟩
  | cons event events ih =>
    obtain ⟨history, rest⟩ := ih (machine.told (event :: machine.history))
    exact ⟨history, rest⟩

end PageInliner
