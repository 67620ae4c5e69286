import PageInliner.Proofs.Files.Above
import PageInliner.Proofs.Files.Requests
import PageInliner.Proofs.Files.Walk

/-!
# Missing directories made

To make the directories for a file changes a tree in one way only: places where there was nothing become
directories, and each of them is one that the path of the file goes through. That holds however far the
attempt gets.
-/

set_option autoImplicit false

namespace PageInliner.Machine

/-- The names of a path lead to a directory, all but the last one, and the last one is a name that an entry
in the directory can have. -/
structure Opening (machine : Machine) (path : Path) (names : List String) (name : String) (spot : Spot) :
    Prop where
  steps : closedSteps path = names ++ [name]
  proper : name ≠ "." ∧ name ≠ ".."
  short : name.utf8ByteSize ≤ FileTree.longestName
  leads : machine.follow path.isAbsolute names = .ok (some spot)
  directory : spot.branch.entry = .directory

theorem slot_eq_ok {machine : Machine} {path : Path} {slot : Slot} (found : machine.slot path = .ok slot) :
    checked path = .ok () ∧
      machine.follow path.isAbsolute (closedSteps path).dropLast = .ok slot.directory? ∧
      (∀ spot, slot.directory? = some spot → spot.branch.entry = .directory) ∧
      slot.name? = (closedSteps path).getLast?.filter fun name => name ≠ "." && name ≠ ".." := by
  unfold Machine.slot at found
  obtain ⟨_, allowed, found⟩ := bind_eq_ok found
  obtain ⟨directory?, led, found⟩ := bind_eq_ok found
  split at found
  case isTrue => cases found
  case isFalse free =>
    cases found
    refine ⟨allowed, led, ?_, rfl⟩
    rintro spot rfl
    simpa using free

theorem vacancy_eq_ok {directory? : Option Spot} {name : String} {place : Place} {old : Option Entry}
    (found : vacancy directory? name = .ok (place, old)) :
    ∃ spot, directory? = some spot ∧ name.utf8ByteSize ≤ FileTree.longestName ∧
      place = name :: spot.place ∧ old = (spot.branch.child? name).map Branch.entry := by
  cases directory? with
  | none => cases found
  | some spot =>
    simp only [vacancy] at found
    split at found
    case isTrue => cases found
    case isFalse short =>
      cases found
      exact ⟨spot, rfl, Nat.le_of_not_lt short, rfl, rfl⟩

/-- A slot with a name in it and a vacancy there are an opening. -/
theorem exists_opening {machine : Machine} {path : Path} {slot : Slot} {name : String} {place : Place}
    {old : Option Entry} (found : machine.slot path = .ok slot) (named : slot.name? = some name)
    (vacant : vacancy slot.directory? name = .ok (place, old)) :
    ∃ names spot, machine.Opening path names name spot ∧ place = name :: spot.place ∧
      machine.tree.find? place = old := by
  obtain ⟨_, led, isDirectory, names⟩ := slot_eq_ok found
  obtain ⟨spot, there, short, rfl, rfl⟩ := vacancy_eq_ok vacant
  rw [named] at names
  obtain ⟨last, proper⟩ := Option.filter_eq_some_iff.mp names.symm
  rw [there] at led
  refine ⟨(closedSteps path).dropLast, spot, ⟨?_, ?_, short, led, isDirectory spot there⟩, rfl, ?_⟩
  · obtain ⟨front, steps⟩ := List.getLast?_eq_some_iff.mp last
    rw [steps, List.dropLast_concat]
  · simpa using proper
  · exact (liesIn_of_follow led).find?_cons name

theorem withDirectory_eq_ok {machine : Machine} {path : Path} {tree : FileTree}
    (made : machine.withDirectory path = .ok tree) :
    ∃ names name spot, machine.Opening path names name spot ∧
      machine.tree.find? (name :: spot.place) = none ∧
      tree = machine.tree.insert (name :: spot.place) .directory := by
  unfold withDirectory at made
  obtain ⟨slot, found, made⟩ := bind_eq_ok made
  split at made
  · cases made
  · rename_i name named
    obtain ⟨⟨place, old⟩, vacant, made⟩ := bind_eq_ok made
    obtain ⟨names, spot, opening, rfl, there⟩ := exists_opening found named vacant
    cases old with
    | some old => cases made
    | none =>
      cases made
      exact ⟨names, name, spot, opening, there, rfl⟩

theorem withFile_eq_ok {machine : Machine} {path : Path} {bytes : ByteArray} {tree : FileTree}
    (made : machine.withFile path bytes = .ok tree) :
    checked path = .ok () ∧ path.endsOpen = false ∧
      ∃ names name spot, machine.Opening path names name spot ∧
        machine.tree.find? (name :: spot.place) ≠ some .directory ∧
        tree = machine.tree.insert (name :: spot.place) (.file bytes) := by
  unfold withFile at made
  obtain ⟨slot, found, made⟩ := bind_eq_ok made
  split at made
  · cases made
  · rename_i name named
    split at made
    case isTrue => cases made
    case isFalse closed =>
      obtain ⟨⟨place, old⟩, vacant, made⟩ := bind_eq_ok made
      obtain ⟨names, spot, opening, rfl, there⟩ := exists_opening found named vacant
      refine ⟨(slot_eq_ok found).1, by simpa using closed, names, name, spot, opening, ?_⟩
      rw [there]
      split at made
      case h_1 => cases made
      case h_2 notDirectory same =>
        cases same
        cases made
        exact ⟨notDirectory, rfl⟩

/-- Where an entry goes that does not take the place of a directory, the rest of the tree stays as it is and
the path leads to the entry. -/
theorem Opening.insert {machine : Machine} {path : Path} {names : List String} {name : String}
    {spot : Spot} (opening : machine.Opening path names name spot)
    (vacant : machine.tree.find? (name :: spot.place) ≠ some .directory) (entry : Entry) :
    let after := { machine with tree := machine.tree.insert (name :: spot.place) entry }
    machine.Keeps after ∧
      (∀ place, after.tree.find? place =
        if place = name :: spot.place then some entry else machine.tree.find? place) ∧
      ∃ copy, after.follow path.isAbsolute (closedSteps path) = .ok (some copy) ∧
        copy.place = name :: spot.place ∧ copy.branch.entry = entry := by
  intro after
  have leads : machine.Leads path.isAbsolute names spot.place :=
    ⟨spot, opening.leads, rfl, opening.directory⟩
  have effect : ∀ place, after.tree.find? place =
      if place = name :: spot.place then some entry else machine.tree.find? place :=
    FileTree.find?_insert leads.find? vacant entry
  have keeps : machine.Keeps after := by
    refine ⟨rfl, rfl, ?_⟩
    intro place found
    rw [effect]
    split
    case isTrue same =>
      rw [same] at found
      exact absurd found vacant
    case isFalse => exact found
  refine ⟨keeps, effect, ?_⟩
  obtain ⟨copy, followed, same, directory⟩ := leads.transfer keeps
  have found : after.tree.find? (name :: copy.place) = some entry := by
    rw [same, effect, if_pos rfl]
  rw [(liesIn_of_follow followed).find?_cons] at found
  obtain ⟨child, isChild, isEntry⟩ := Option.map_eq_some_iff.mp found
  have taken : copy.step name = .ok ⟨child, (name, copy.branch) :: copy.above⟩ :=
    Spot.step_eq_ok_iff.mpr ⟨directory, .inr (.inr
      ⟨opening.proper.1, opening.proper.2, opening.short, child, isChild, rfl⟩)⟩
  refine ⟨⟨child, (name, copy.branch) :: copy.above⟩, ?_, congrArg (name :: ·) same, isEntry⟩
  rw [opening.steps, follow_snoc followed, taken]
  rfl

/-- The place is that of a directory which a path goes through: some of its names lead there, but not all. -/
def OnWay (machine : Machine) (path : Path) (place : Place) : Prop :=
  ∃ names rest, rest ≠ [] ∧ closedSteps path = names ++ rest ∧ machine.Leads path.isAbsolute names place

theorem OnWay.find? {machine : Machine} {path : Path} {place : Place} (onWay : machine.OnWay path place) :
    machine.tree.find? place = some .directory := by
  obtain ⟨_, _, _, _, leads⟩ := onWay
  exact leads.find?

theorem OnWay.transfer {machine other : Machine} {path : Path} {place : Place}
    (onWay : machine.OnWay path place) (kept : machine.Keeps other) : other.OnWay path place := by
  obtain ⟨names, rest, nonempty, steps, leads⟩ := onWay
  exact ⟨names, rest, nonempty, steps, leads.transfer kept⟩

/-- Nothing is changed but that directories which a path goes through, and which were missing, are there. -/
structure AddsParents (before after : Machine) (path : Path) : Prop where
  directory : after.directory = before.directory
  removed : after.removed = before.removed
  places : ∀ place, after.tree.find? place = before.tree.find? place ∨
    before.tree.find? place = none ∧ after.OnWay path place

namespace AddsParents

theorem refl (machine : Machine) (path : Path) : machine.AddsParents machine path :=
  ⟨rfl, rfl, fun _ => .inl rfl⟩

theorem keeps {before after : Machine} {path : Path} (adds : before.AddsParents after path) :
    before.Keeps after := by
  refine ⟨adds.directory, adds.removed, ?_⟩
  intro place found
  rcases adds.places place with same | ⟨missing, _⟩
  · rw [same, found]
  · rw [missing] at found
    cases found

theorem trans {first second third : Machine} {path : Path} (before : first.AddsParents second path)
    (after : second.AddsParents third path) : first.AddsParents third path := by
  refine ⟨after.directory.trans before.directory, after.removed.trans before.removed, ?_⟩
  intro place
  rcases before.places place with same | ⟨missing, onWay⟩
  · rw [← same]
    exact after.places place
  · exact .inr ⟨missing, onWay.transfer after.keeps⟩

end AddsParents

/-- One directory made above the end of a path, or none if that is refused. -/
theorem addsParents_makeDirectory {short long : Path} (above : IsAbove short long) (machine : Machine) :
    machine.AddsParents (machine.update (machine.withDirectory short)).2 long := by
  cases made : machine.withDirectory short with
  | error cause => exact .refl machine long
  | ok tree =>
    obtain ⟨names, name, spot, opening, missing, rfl⟩ := withDirectory_eq_ok made
    obtain ⟨_, effect, copy, followed, same, directory⟩ :=
      opening.insert (by rw [missing]; nofun) .directory
    obtain ⟨sameStart, rest, nonempty, steps⟩ := above
    refine ⟨rfl, rfl, ?_⟩
    intro place
    by_cases made : place = name :: spot.place
    · subst made
      refine .inr ⟨missing, closedSteps short, rest, nonempty, steps, copy, ?_, same, directory⟩
      rw [← sameStart]
      exact followed
    · left
      change (machine.tree.insert _ _).find? place = _
      rw [effect, if_neg made]

/-- Whatever relates a machine to itself after one directory was asked for relates it to itself after all of them
were, if the relation can be put together. -/
theorem makeDirectories_related {R : Machine → Machine → Prop} (refl : ∀ machine, R machine machine)
    (trans : ∀ first second third, R first second → R second third → R first third) {lead : List Char}
    {pieces : List (List Char)}
    (made : ∀ front piece more, pieces = front ++ piece :: more → Path.isIdle piece = false → ∀ machine,
      R machine (machine.update (machine.withDirectory (Path.ofPiecesBack lead (piece :: more)))).2)
    (machine : Machine) :
    R machine ((Host.makeDirectories lead pieces : StateM Machine (Except Cause Unit)).run machine).2 := by
  induction pieces generalizing machine with
  | nil => exact refl machine
  | cons piece pieces ih =>
    have further := ih fun front next more split =>
      made (piece :: front) next more (by rw [split, List.cons_append])
    cases idle : Path.isIdle piece with
    | true =>
      rw [Host.makeDirectories, if_pos idle]
      exact further machine
    | false =>
      have here := made [] piece pieces rfl idle
      have first := here machine
      rw [Host.makeDirectories, if_neg (by simp [idle]), run_bind, run_makeDirectory]
      generalize machine.update _ = answer at first ⊢
      obtain ⟨result, next⟩ := answer
      cases result with
      | ok _ => exact first
      | error cause =>
        cases cause with
        | notFound =>
          -- The directories above come first, then a second attempt is made.
          have rest := further next
          dsimp only
          rw [run_bind]
          generalize (Host.makeDirectories lead pieces : StateM Machine (Except Cause Unit)).run next =
            answer at rest ⊢
          obtain ⟨result, middle⟩ := answer
          have before := trans _ _ _ first rest
          cases result with
          | error cause => exact before
          | ok _ =>
            have again := here middle
            dsimp only
            rw [run_bind, run_makeDirectory]
            generalize middle.update _ = answer at again ⊢
            obtain ⟨result, after⟩ := answer
            cases result with
            | ok _ => exact trans _ _ _ before again
            | error cause => exact trans _ _ _ before again
        | _ => exact first

theorem addsParents_makeDirectories {path : Path} {lead : List Char} {pieces : List (List Char)}
    (above : ∀ front piece more, pieces = front ++ piece :: more → Path.isIdle piece = false →
      IsAbove (Path.ofPiecesBack lead (piece :: more)) path) (machine : Machine) :
    machine.AddsParents
      ((Host.makeDirectories lead pieces : StateM Machine (Except Cause Unit)).run machine).2 path := by
  apply makeDirectories_related (R := fun before after => before.AddsParents after path)
  · exact fun machine => .refl machine path
  · exact fun _ _ _ before after => before.trans after
  · exact fun front piece more split named => addsParents_makeDirectory (above front piece more split named)

/-- The directories for a file made, as far as that is possible. -/
theorem addsParents_makeParent (path : Path) (machine : Machine) :
    machine.AddsParents
      ((Host.makeParent path : StateM Machine (Except Cause Unit)).run machine).2 path :=
  addsParents_makeDirectories (fun _ _ _ split named => isAbove_of_pieces split named) machine

end PageInliner.Machine
