import PageInliner.Proofs.Files.Making
import PageInliner.Proofs.Files.Writing

/-!
# What can be written, and what is there afterwards

Whether a file can be written depends on no more than what is at the places its path goes through and at the
place it leads to. Afterwards the file is there, and directories wherever the path goes through.
-/

set_option autoImplicit false

namespace PageInliner

namespace Machine

theorem OnWay.mem_placesOnWay {machine : Machine} {path : Path} {place : Place}
    (onWay : machine.OnWay path place) : place ∈ machine.placesOnWay path := by
  obtain ⟨names, rest, further, steps, spot, followed, rfl, _⟩ := onWay
  obtain ⟨way, led, walked⟩ := way_of_follow followed
  have whole : ∃ more, path.steps = names ++ (rest ++ more) := by
    rcases steps_eq_closedSteps path with same | more
    · exact ⟨[], by rw [same, steps, List.append_nil]⟩
    · exact ⟨["."], by rw [more, steps, List.append_assoc]⟩
  obtain ⟨more, whole⟩ := whole
  have ledOn := way_append led (rest ++ more)
  rw [← whole] at ledOn
  rw [mem_placesOnWay_of_way ledOn, FileTree.place_of_walk walked]
  exact ⟨way, rest ++ more, rfl, List.append_ne_nil_of_left_ne_nil further _, rfl⟩

/-- A file can be written at the end of a path: the names of `way` lead from the root to its directory, and
`name` is its own. Nothing but missing directories is on the way, and the file itself is not a place on it. -/
structure Writable (machine : Machine) (path : Path) (way : List String) (name : String) : Prop where
  allowed : checked path = .ok ()
  closed : path.endsOpen = false
  led : ∃ names, closedSteps path = names ++ [name] ∧ machine.way path.isAbsolute names = .ok (some way)
  proper : name ≠ "." ∧ name ≠ ".."
  short : name.utf8ByteSize ≤ FileTree.longestName
  starts : machine.Starts path.isAbsolute
  passable : machine.tree.Passable way
  vacant : machine.tree.find? (name :: Place.ofNames way) ≠ some .directory
  apart : ∀ front rest, way = front ++ rest → Place.ofNames front ≠ name :: Place.ofNames way

namespace Writable

variable {machine : Machine} {path : Path} {way : List String} {name : String}
  (writable : machine.Writable path way name)

include writable

theorem way_steps : machine.way path.isAbsolute path.steps = .ok (some (way ++ [name])) := by
  obtain ⟨names, steps, led⟩ := writable.led
  have whole : path.steps = closedSteps path := by simp [closedSteps, writable.closed]
  rw [whole, steps]
  exact way_append led [name]

theorem resolve?_eq : machine.resolve? path = some (name :: Place.ofNames way) := by
  rw [resolve?, writable.way_steps]
  dsimp only
  rw [Place.ofNames_concat, Place.step, if_neg writable.proper.1, if_neg writable.proper.2]

theorem mem_placesOnWay_iff {place : Place} :
    place ∈ machine.placesOnWay path ↔ ∃ front rest, way = front ++ rest ∧ Place.ofNames front = place := by
  rw [mem_placesOnWay_of_way writable.way_steps]
  constructor
  · rintro ⟨front, rest, whole, further, rfl⟩
    obtain ⟨last, final, rfl⟩ := (List.eq_nil_or_concat rest).resolve_left further
    rw [List.concat_eq_append, ← List.append_assoc] at whole
    exact ⟨front, last, (List.append_inj' whole rfl).1, rfl⟩
  · rintro ⟨front, rest, rfl, rfl⟩
    exact ⟨front, rest ++ [name], List.append_assoc _ _ _, by simp, rfl⟩

theorem free {place : Place} (onWay : place ∈ machine.placesOnWay path) (bytes : ByteArray) :
    machine.tree.find? place ≠ some (.file bytes) := by
  obtain ⟨front, rest, whole, rfl⟩ := writable.mem_placesOnWay_iff.mp onWay
  exact writable.passable.free front rest whole bytes

theorem not_mem_placesOnWay : name :: Place.ofNames way ∉ machine.placesOnWay path := by
  intro onWay
  obtain ⟨front, rest, whole, same⟩ := writable.mem_placesOnWay_iff.mp onWay
  exact writable.apart front rest whole same

/-- Only the places on the way and at the end of a path count. -/
theorem transfer {other : Machine} (kept : machine.Keeps other)
    (free : ∀ place ∈ machine.placesOnWay path, ∀ bytes, other.tree.find? place ≠ some (.file bytes))
    (vacant : other.tree.find? (name :: Place.ofNames way) ≠ some .directory) :
    other.Writable path way name where
  allowed := writable.allowed
  closed := writable.closed
  led := by
    rw [way_congr kept.directory kept.removed]
    exact writable.led
  proper := writable.proper
  short := writable.short
  starts := writable.starts.transfer kept
  passable := by
    constructor
    · exact writable.passable.short
    · intro front rest whole
      exact free _ (writable.mem_placesOnWay_iff.mpr ⟨front, rest, whole, rfl⟩)
  vacant := vacant
  apart := writable.apart

/-- The directory for the file can be made. -/
theorem run_makeParent :
    ∃ after, (Host.makeParent path : StateM Machine (Except Cause Unit)).run machine = (.ok (), after) ∧
      machine.AddsParents after path ∧
      ∃ spot, after.tree.walk way = .ok spot ∧ spot.branch.entry = .directory := by
  obtain ⟨names, steps, led⟩ := writable.led
  have clear : machine.Clear path.isAbsolute names := by
    refine ⟨some way, led, ?_⟩
    rintro _ ⟨⟩
    exact writable.passable
  obtain ⟨after, ran, spot?, followed, directory⟩ :=
    run_makeParent_ok writable.allowed steps writable.proper.1 writable.starts clear
  have adds := addsParents_makeParent path machine
  rw [ran] at adds
  refine ⟨after, ran, adds, ?_⟩
  rw [← way_congr adds.directory adds.removed] at led
  rw [follow_of_way led] at followed
  obtain ⟨spot, walked, rfl⟩ := map_eq_ok followed
  exact ⟨spot, walked, directory spot rfl⟩

theorem exists_withFile (bytes : ByteArray) :
    ∃ after tree,
      (Host.makeParent path : StateM Machine (Except Cause Unit)).run machine = (.ok (), after) ∧
      after.withFile path bytes = .ok tree := by
  obtain ⟨after, ran, adds, spot, walked, directory⟩ := writable.run_makeParent
  obtain ⟨names, steps, led⟩ := writable.led
  have place := FileTree.place_of_walk walked
  have followed : after.follow path.isAbsolute names = .ok (some spot) := by
    rw [← way_congr adds.directory adds.removed] at led
    rw [follow_of_way led, walked]
    rfl
  have vacant : (spot.branch.child? name).map Branch.entry ≠ some .directory := by
    rw [← (liesIn_of_follow followed).find?_cons, place]
    rcases adds.places (name :: Place.ofNames way) with same | ⟨_, onWay⟩
    · rw [same]
      exact writable.vacant
    · have among := onWay.mem_placesOnWay
      rw [placesOnWay_congr adds.directory adds.removed] at among
      exact absurd among writable.not_mem_placesOnWay
  have found : after.slot path = .ok ⟨some spot, some name⟩ := by
    have found := slot_of_follow writable.allowed steps followed (by rintro _ ⟨⟩; exact directory)
    rw [found]
    simp [writable.proper]
  refine ⟨after, after.tree.insert (name :: spot.place) (.file bytes), ran, ?_⟩
  rw [withFile, found]
  change (if path.endsOpen then throw .isADirectory else vacancy (some spot) name >>= _) = _
  rw [writable.closed, vacancy_of_short writable.short]
  cases isChild : (spot.branch.child? name).map Branch.entry with
  | none => rfl
  | some old =>
    cases old with
    | directory => exact absurd isChild vacant
    | file others => rfl

theorem not_refuses {bytes : ByteArray} {cause : Cause} {after : Machine} :
    ¬ machine.Refuses path bytes cause after := by
  intro refused
  obtain ⟨middle, tree, made, written⟩ := writable.exists_withFile bytes
  cases refused with
  | directories ran => cases ran.symm.trans made
  | file ran refused =>
    cases ran.symm.trans made
    cases refused.symm.trans written

theorem told (history : List Event) : (machine.told history).Writable path way name :=
  ⟨writable.allowed, writable.closed, writable.led, writable.proper, writable.short, writable.starts,
    writable.passable, writable.vacant, writable.apart⟩

end Writable

/-- A file that was written could be written. -/
theorem exists_writable {machine middle : Machine} {path : Path} {bytes : ByteArray} {tree : FileTree}
    (ran : (Host.makeParent path : StateM Machine (Except Cause Unit)).run machine = (.ok (), middle))
    (made : middle.withFile path bytes = .ok tree) : ∃ way name, machine.Writable path way name := by
  have adds := addsParents_makeParent path machine
  rw [ran] at adds
  obtain ⟨allowed, closed, names, name, spot, opening, vacant, _⟩ := withFile_eq_ok made
  obtain ⟨way, led, walked⟩ := way_of_follow opening.leads
  have place := FileTree.place_of_walk walked
  have starts : machine.Starts path.isAbsolute := by
    rcases makeParent_starts_or_same path machine with starts | same
    · exact starts
    · rw [ran] at same
      cases same
      exact starts_of_follow opening.leads opening.directory
  rw [place] at vacant
  refine ⟨way, name, allowed, closed, ⟨names, opening.steps, ?_⟩, opening.proper, opening.short, starts,
    ?_, ?_, ?_⟩
  · rw [← way_congr adds.directory adds.removed]
    exact led
  · have passable := FileTree.passable_of_walk walked opening.directory
    exact passable.transfer fun _ _ => adds.find?_eq_file_iff.mpr
  · intro taken
    exact vacant (adds.keeps.directories _ taken)
  · intro front rest whole same
    have isDirectory := FileTree.find?_of_walk_directory (whole ▸ walked) opening.directory
    rw [same] at isDirectory
    exact vacant isDirectory

namespace Writes

variable {before after : Machine} {path : Path} {bytes : ByteArray} {place : Place}
  (writes : before.Writes after path bytes place)

include writes

theorem resolve?_eq : before.resolve? path = some place := by
  obtain ⟨spot, located, rfl, _⟩ := writes.found
  rw [← resolve?_congr writes.directory writes.removed]
  exact resolve?_of_locate located

theorem find?_place : after.tree.find? place = some (.file bytes) := by
  obtain ⟨spot, located, rfl, isFile⟩ := writes.found
  obtain ⟨_, _, followed⟩ := bind_eq_ok located
  rw [(liesIn_of_follow followed).find?_place, isFile]
  rfl

theorem find?_of_mem {other : Place} (onWay : other ∈ before.placesOnWay path) :
    after.tree.find? other = some .directory := by
  obtain ⟨spot, located, rfl, isFile⟩ := writes.found
  obtain ⟨_, _, followed⟩ := bind_eq_ok located
  obtain ⟨way, led, walked⟩ := way_of_follow followed
  rw [← placesOnWay_congr writes.directory writes.removed, mem_placesOnWay_of_way led] at onWay
  obtain ⟨front, rest, rfl, further, rfl⟩ := onWay
  exact FileTree.find?_of_walk_append walked further

theorem not_mem : place ∉ before.placesOnWay path := by
  intro onWay
  have isDirectory := writes.find?_of_mem onWay
  rw [writes.find?_place] at isDirectory
  cases isDirectory

theorem find?_of_not_mem {other : Place} (elsewhere : other ≠ place)
    (offWay : other ∉ before.placesOnWay path) :
    after.tree.find? other = before.tree.find? other := by
  apply writes.others other elsewhere
  intro onWay
  apply offWay
  rw [← placesOnWay_congr writes.directory writes.removed]
  exact onWay.mem_placesOnWay

/-- A place on the way was a directory before, or there was nothing. -/
theorem before_of_mem {other : Place} (onWay : other ∈ before.placesOnWay path) :
    before.tree.find? other = some .directory ∨ before.tree.find? other = none := by
  by_cases made : after.OnWay path other
  · exact writes.parents other made
  · left
    have elsewhere : other ≠ place := by
      rintro rfl
      exact writes.not_mem onWay
    rw [← writes.others other elsewhere made]
    exact writes.find?_of_mem onWay

theorem keeps : before.Keeps after := by
  refine ⟨writes.directory, writes.removed, ?_⟩
  intro other isDirectory
  by_cases onWay : other ∈ before.placesOnWay path
  · exact writes.find?_of_mem onWay
  · rw [← isDirectory]
    apply writes.find?_of_not_mem ?_ onWay
    rintro rfl
    exact writes.vacant isDirectory

end Writes

end Machine

variable {draft : Draft} {machine after : Machine} {way : List String} {name : String}

theorem run_write_of_writable (writable : machine.Writable draft.path way name) :
    ∃ after, (draft.write : StateM Machine (Except BuildError Nat)).run machine =
        (.ok draft.html.toUTF8.size, after) ∧
      machine.Writes after draft.path draft.html.toUTF8 (name :: Place.ofNames way) := by
  rcases run_write draft machine with ⟨after, place, ran, writes⟩ | ⟨_, _, _, refused⟩
  · have same := writes.resolve?_eq.symm.trans writable.resolve?_eq
    cases same
    exact ⟨after, ran, writes⟩
  · exact absurd refused writable.not_refuses

theorem exists_writable_of_write {size : Nat}
    (ran : (draft.write : StateM Machine (Except BuildError Nat)).run machine = (.ok size, after)) :
    ∃ way name, machine.Writable draft.path way name := by
  rw [Draft.write, run_bind] at ran
  cases made : (Host.makeParent draft.path : StateM Machine (Except Cause Unit)).run machine with
  | mk result middle =>
    rw [made] at ran
    cases result with
    | error cause => cases ran
    | ok _ =>
      dsimp only at ran
      rw [run_bind, run_writeFile] at ran
      cases written : middle.withFile draft.path draft.html.toUTF8 with
      | error cause =>
        rw [written] at ran
        cases ran
      | ok tree => exact Machine.exists_writable made written

/-- A draft can be written if and only if nothing is in the way of its file. -/
theorem write_succeeds_iff :
    (∃ size after, (draft.write : StateM Machine (Except BuildError Nat)).run machine = (.ok size, after)) ↔
      ∃ way name, machine.Writable draft.path way name := by
  constructor
  · rintro ⟨size, after, ran⟩
    exact exists_writable_of_write ran
  · rintro ⟨way, name, writable⟩
    obtain ⟨after, ran, _⟩ := run_write_of_writable writable
    exact ⟨_, after, ran⟩

end PageInliner
