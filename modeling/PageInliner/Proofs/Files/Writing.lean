import PageInliner.Build
import PageInliner.Proofs.Files.Parents

/-!
# Files written

To write a draft replaces all that was in its file, or makes the file, and adds the directories that its path
goes through. If it fails nothing has happened but that some of these directories are there.
-/

set_option autoImplicit false

namespace PageInliner

namespace Machine

/-- A file at the end of a path has been written, and that is all that has happened. -/
structure Writes (before after : Machine) (path : Path) (bytes : ByteArray) (place : Place) : Prop where
  directory : after.directory = before.directory
  removed : after.removed = before.removed
  /-- The path leads to the file, and there is nothing in it but the bytes. -/
  found : ∃ spot, after.locate path = .ok (some spot) ∧ spot.place = place ∧ spot.branch = .file bytes
  /-- The file takes the place of a file or of nothing. -/
  vacant : before.tree.find? place ≠ some .directory
  /-- There is a directory wherever the path goes through, unless that has been removed. -/
  ways : ∀ names rest, rest ≠ [] → closedSteps path = names ++ rest →
    after.follow path.isAbsolute names = .ok none ∨ ∃ other, after.Leads path.isAbsolute names other
  /-- Such a directory was there before, or there was nothing. -/
  parents : ∀ other, after.OnWay path other →
    before.tree.find? other = some .directory ∨ before.tree.find? other = none
  others : ∀ other, other ≠ place → ¬ after.OnWay path other →
    after.tree.find? other = before.tree.find? other

theorem writes_withFile {machine middle : Machine} {path : Path} {bytes : ByteArray} {tree : FileTree}
    (adds : machine.AddsParents middle path) (made : middle.withFile path bytes = .ok tree) :
    ∃ place, machine.Writes { middle with tree := tree } path bytes place := by
  obtain ⟨allowed, closed, names, name, spot, opening, vacant, rfl⟩ := withFile_eq_ok made
  obtain ⟨keeps, effect, copy, followed, same, isFile⟩ := opening.insert vacant (.file bytes)
  refine ⟨name :: spot.place, adds.directory, adds.removed, ⟨copy, ?_, same, ?_⟩, ?_, ?_, ?_, ?_⟩
  · have steps : path.steps = closedSteps path := by simp [closedSteps, closed]
    rw [locate, allowed, steps]
    exact followed
  · cases branch : copy.branch with
    | directory children =>
      rw [branch] at isFile
      cases isFile
    | file others =>
      rw [branch] at isFile
      cases isFile
      rfl
  · intro taken
    exact vacant (adds.keeps.directories _ taken)
  · intro front rest further steps
    rw [steps] at followed
    exact leads_of_follow followed further
  · intro other onWay
    have isDirectory := onWay.find?
    rw [effect] at isDirectory
    split at isDirectory
    case isTrue => cases isDirectory
    case isFalse =>
      rcases adds.places other with kept | ⟨missing, _⟩
      · exact .inl (kept.symm.trans isDirectory)
      · exact .inr missing
  · intro other elsewhere offWay
    rw [effect, if_neg elsewhere]
    rcases adds.places other with kept | ⟨_, onWay⟩
    · exact kept
    · exact absurd (onWay.transfer keeps) offWay

theorem Writes.read {before after : Machine} {path : Path} {bytes : ByteArray} {place : Place}
    (writes : before.Writes after path bytes place) : after.read path = .ok bytes := by
  obtain ⟨spot, located, _, isFile⟩ := writes.found
  have there : after.entry path = .ok (.file bytes) := by
    rw [entry, located]
    exact congrArg Except.ok (congrArg Branch.entry isFile)
  rw [Machine.read, there]
  rfl

/-- A file is not written: the directories for it cannot be made, or they are there and the file is
refused. -/
inductive Refuses (before : Machine) (path : Path) (bytes : ByteArray) : Cause → Machine → Prop where
  | directories {cause : Cause} {after : Machine} :
      (Host.makeParent path : StateM Machine (Except Cause Unit)).run before = (.error cause, after) →
      Refuses before path bytes cause after
  | file {cause : Cause} {after : Machine} :
      (Host.makeParent path : StateM Machine (Except Cause Unit)).run before = (.ok (), after) →
      after.withFile path bytes = .error cause → Refuses before path bytes cause after

theorem Refuses.addsParents {before after : Machine} {path : Path} {bytes : ByteArray} {cause : Cause}
    (refused : before.Refuses path bytes cause after) : before.AddsParents after path := by
  have adds := addsParents_makeParent path before
  cases refused with
  | directories ran =>
    rw [ran] at adds
    exact adds
  | file ran _ =>
    rw [ran] at adds
    exact adds

end Machine

/-- A draft is written, or its file is refused. The size of a file that was written can always be told. -/
theorem run_write (draft : Draft) (machine : Machine) :
    (∃ after place, (draft.write : StateM Machine (Except BuildError Nat)).run machine =
        (.ok draft.html.toUTF8.size, after) ∧
      machine.Writes after draft.path draft.html.toUTF8 place) ∨
    ∃ cause after, (draft.write : StateM Machine (Except BuildError Nat)).run machine =
        (.error (.unwritable draft.path cause), after) ∧
      machine.Refuses draft.path draft.html.toUTF8 cause after := by
  have adds := Machine.addsParents_makeParent draft.path machine
  rw [Draft.write, run_bind]
  cases ran : (Host.makeParent draft.path : StateM Machine (Except Cause Unit)).run machine with
  | mk result middle =>
    rw [ran] at adds
    cases result with
    | error cause => exact .inr ⟨cause, middle, rfl, .directories ran⟩
    | ok _ =>
      dsimp only
      rw [run_bind, run_writeFile]
      cases made : middle.withFile draft.path draft.html.toUTF8 with
      | error cause => exact .inr ⟨cause, middle, rfl, .file ran made⟩
      | ok tree =>
        obtain ⟨place, writes⟩ := Machine.writes_withFile adds made
        refine .inl ⟨{ middle with tree := tree }, place, ?_, writes⟩
        dsimp only [Machine.update]
        rw [run_bind, run_fileSize, writes.read]
        rfl

end PageInliner
