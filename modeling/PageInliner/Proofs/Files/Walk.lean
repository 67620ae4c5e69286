import PageInliner.Files.Machine
import PageInliner.Proofs.Answer

/-!
# Walks in a tree that has changed

A walk depends on nothing but the directories it goes through. As long as they stay where they are it leads to
the same place, whatever else has been put into the tree.
-/

set_option autoImplicit false

namespace PageInliner

/-- What is a directory in the one tree is one in the other. -/
def FileTree.KeepsDirectories (tree other : FileTree) : Prop :=
  ∀ place, tree.find? place = some .directory → other.find? place = some .directory

namespace Spot

theorem step_eq_ok_iff {spot next : Spot} {name : String} :
    spot.step name = .ok next ↔
      spot.branch.entry = .directory ∧
        (name = "." ∧ next = spot ∨ name = ".." ∧ next = spot.parent ∨
          name ≠ "." ∧ name ≠ ".." ∧ name.utf8ByteSize ≤ FileTree.longestName ∧
            ∃ child, spot.branch.child? name = some child ∧
              next = ⟨child, (name, spot.branch) :: spot.above⟩) := by
  unfold step
  cases shape : spot.branch with
  | file bytes => simp [Branch.entry]
  | directory children =>
    dsimp only
    by_cases dot : name = "."
    · simp [dot, Branch.entry, eq_comm]
    · by_cases dots : name = ".."
      · simp [dots, Branch.entry, eq_comm]
      · by_cases long : name.utf8ByteSize > FileTree.longestName
        · simp [dot, dots, long, Nat.not_le_of_gt long]
        · cases isChild : children.lookup name <;>
            simp [dot, dots, long, Branch.entry, Branch.child?, Branch.children, isChild, eq_comm,
              Nat.le_of_not_lt]

theorem isDirectory_of_walk {spot last : Spot} {names : List String}
    (walked : spot.walk names = .ok last) (ends : last.branch.entry = .directory) :
    spot.branch.entry = .directory := by
  cases names with
  | nil =>
    cases walked
    exact ends
  | cons name names =>
    simp only [walk] at walked
    split at walked
    · cases walked
    · rename_i taken
      exact (step_eq_ok_iff.mp taken).1

theorem walk_append (spot : Spot) (names more : List String) :
    spot.walk (names ++ more) = (spot.walk names).bind fun next => next.walk more := by
  induction names generalizing spot with
  | nil => rfl
  | cons name names ih =>
    simp only [List.cons_append, walk]
    cases spot.step name with
    | error cause => rfl
    | ok next => exact ih next

theorem walk_singleton (spot : Spot) (name : String) : spot.walk [name] = spot.step name := by
  simp only [walk]
  cases spot.step name <;> rfl

theorem place_parent (spot : Spot) : spot.parent.place = spot.place.tail := by
  obtain ⟨branch, above⟩ := spot
  cases above <;> rfl

theorem LiesIn.find?_cons {tree : FileTree} {spot : Spot} (lies : spot.LiesIn tree) (name : String) :
    tree.find? (name :: spot.place) = (spot.branch.child? name).map Branch.entry := by
  simp only [FileTree.find?, List.reverse_cons, Branch.find?_append, lies.find?, Option.bind_some,
    Branch.find?_cons, Branch.find?_nil, Option.bind_fun_some]

theorem LiesIn.find?_place {tree : FileTree} {spot : Spot} (lies : spot.LiesIn tree) :
    tree.find? spot.place = some spot.branch.entry := by
  rw [FileTree.find?, lies.find?]
  rfl

section Transfer

variable {tree other : FileTree} {spot copy : Spot} (kept : tree.KeepsDirectories other)
  (lies : spot.LiesIn tree) (copyLies : copy.LiesIn other) (same : copy.place = spot.place)

include kept lies copyLies same

private theorem isDirectory_transfer (directory : spot.branch.entry = .directory) :
    copy.branch.entry = .directory := by
  have found := kept _ (lies.find?_place.trans (congrArg some directory))
  rw [← same, copyLies.find?_place] at found
  exact Option.some.inj found

private theorem step_transfer {next : Spot} {name : String} (taken : spot.step name = .ok next)
    (ends : next.branch.entry = .directory) :
    ∃ copyNext, copy.step name = .ok copyNext ∧ copyNext.place = next.place := by
  obtain ⟨directory, way⟩ := step_eq_ok_iff.mp taken
  have copyDirectory := isDirectory_transfer kept lies copyLies same directory
  rcases way with ⟨dot, rfl⟩ | ⟨dots, rfl⟩ | ⟨notDot, notDots, short, child, isChild, rfl⟩
  · exact ⟨copy, step_eq_ok_iff.mpr ⟨copyDirectory, .inl ⟨dot, rfl⟩⟩, same⟩
  · refine ⟨copy.parent, step_eq_ok_iff.mpr ⟨copyDirectory, .inr (.inl ⟨dots, rfl⟩)⟩, ?_⟩
    rw [place_parent, place_parent, same]
  · have there : tree.find? (name :: spot.place) = some .directory := by
      rw [lies.find?_cons, isChild]
      exact congrArg some ends
    have found := kept _ there
    rw [← same, copyLies.find?_cons] at found
    obtain ⟨copyChild, isCopyChild, _⟩ := Option.map_eq_some_iff.mp found
    refine ⟨⟨copyChild, (name, copy.branch) :: copy.above⟩, ?_, congrArg (name :: ·) same⟩
    exact step_eq_ok_iff.mpr
      ⟨copyDirectory, .inr (.inr ⟨notDot, notDots, short, copyChild, isCopyChild, rfl⟩)⟩

/-- The steps of a walk that ends in a directory can be taken in any tree that has the directories. -/
theorem walk_transfer {last : Spot} {names : List String} (walked : spot.walk names = .ok last)
    (ends : last.branch.entry = .directory) :
    ∃ copyLast, copy.walk names = .ok copyLast ∧ copyLast.place = last.place ∧
      copyLast.branch.entry = .directory := by
  -- Each spot of the walk is a directory, the last one too, so the copy has it as well.
  induction names generalizing spot copy with
  | nil =>
    cases walked
    exact ⟨copy, rfl, same, isDirectory_transfer kept lies copyLies same ends⟩
  | cons name names ih =>
    simp only [walk] at walked
    cases taken : spot.step name with
    | error cause => simp [taken] at walked
    | ok next =>
      rw [taken] at walked
      obtain ⟨copyNext, copyTaken, nextSame⟩ :=
        step_transfer kept lies copyLies same taken (isDirectory_of_walk walked ends)
      obtain ⟨copyLast, copyWalked, rest⟩ :=
        ih (lies.step taken) (copyLies.step copyTaken) nextSame walked
      refine ⟨copyLast, ?_, rest⟩
      simp only [walk, copyTaken]
      exact copyWalked

end Transfer

end Spot

namespace FileTree

variable {tree : FileTree} {names : List String}

theorem walk_concat {spot : Spot} (walked : tree.walk names = .ok spot) (name : String) :
    tree.walk (names ++ [name]) = spot.step name := by
  rw [walk, Spot.walk_append]
  rw [walk] at walked
  rw [walked, Except.bind, Spot.walk_singleton]

theorem exists_walk_of_append {more : List String} {spot : Spot}
    (walked : tree.walk (names ++ more) = .ok spot) :
    ∃ middle, tree.walk names = .ok middle ∧ middle.walk more = .ok spot := by
  rw [walk, Spot.walk_append] at walked
  exact bind_eq_ok walked

/-- All that a walk goes through are directories. -/
theorem exists_directory_of_walk_append {more : List String} {spot : Spot}
    (walked : tree.walk (names ++ more) = .ok spot) (further : more ≠ []) :
    ∃ middle, tree.walk names = .ok middle ∧ middle.branch.entry = .directory := by
  obtain ⟨middle, reached, rest⟩ := exists_walk_of_append walked
  obtain ⟨name, more, rfl⟩ := List.exists_cons_of_ne_nil further
  refine ⟨middle, reached, ?_⟩
  rw [Spot.walk] at rest
  cases taken : middle.step name with
  | error cause => simp [taken] at rest
  | ok next => exact (Spot.step_eq_ok_iff.mp taken).1

end FileTree

namespace Machine

/-- The machines are in the same place, and the directories of the first are in the second. -/
structure Keeps (machine other : Machine) : Prop where
  directory : other.directory = machine.directory
  removed : other.removed = machine.removed
  directories : machine.tree.KeepsDirectories other.tree

theorem Keeps.refl (machine : Machine) : machine.Keeps machine :=
  ⟨rfl, rfl, fun _ found => found⟩

theorem Keeps.trans {first second third : Machine} (before : first.Keeps second) (after : second.Keeps third) :
    first.Keeps third := by
  refine ⟨after.directory.trans before.directory, after.removed.trans before.removed, ?_⟩
  intro place found
  exact after.directories place (before.directories place found)

/-- Names lead from the start of a path, or from the working directory, to a directory at a place. -/
def Leads (machine : Machine) (fromRoot : Bool) (names : List String) (place : Place) : Prop :=
  ∃ spot, machine.follow fromRoot names = .ok (some spot) ∧ spot.place = place ∧
    spot.branch.entry = .directory

/-- The names that lead from the root to where a row of names leads, if it does not end in a directory that has
been removed. -/
def way (machine : Machine) (fromRoot : Bool) (names : List String) : Except Cause (Option (List String)) :=
  if fromRoot then .ok (some names)
  else (leave machine.removed names).map fun left => left.map (machine.directory.reverse ++ ·)

theorem follow_true (machine : Machine) (names : List String) :
    machine.follow true names = (machine.tree.walk names).map some := by
  unfold follow
  cases machine.tree.walk names <;> rfl

theorem follow_false {machine : Machine} {names left : List String}
    (led : leave machine.removed names = .ok (some left)) :
    machine.follow false names = (machine.tree.walk (machine.directory.reverse ++ left)).map some := by
  unfold follow
  rw [led]
  change (machine.tree.walk (machine.directory.reverse ++ left) >>= fun spot => pure (some spot)) = _
  cases machine.tree.walk (machine.directory.reverse ++ left) <;> rfl

theorem follow_false_removed {machine : Machine} {names : List String}
    (led : leave machine.removed names = .ok none) : machine.follow false names = .ok none := by
  unfold follow
  rw [led]
  rfl

/-- A step between removed directories leads on to the names behind it, whichever they are. -/
theorem leave_cons {removed : Nat} {name : String} {names : List String} {left? : Option (List String)}
    (led : leave (removed + 1) (name :: names) = .ok left?) :
    ∃ still, leave still names = .ok left? ∧
      ∀ others, leave (removed + 1) (name :: others) = leave still others := by
  simp only [leave] at led ⊢
  split at led
  case isTrue dot => exact ⟨removed + 1, led, fun _ => if_pos dot⟩
  case isFalse notDot =>
    split at led
    case isTrue dots => exact ⟨removed, led, fun _ => (if_neg notDot).trans (if_pos dots)⟩
    case isFalse => cases led

theorem leave_append {removed : Nat} {names left : List String} (more : List String)
    (led : leave removed names = .ok (some left)) :
    leave removed (names ++ more) = .ok (some (left ++ more)) := by
  induction names generalizing removed with
  | nil =>
    cases removed with
    | zero =>
      cases led
      exact leave.eq_1 _
    | succ removed => cases led
  | cons name names ih =>
    cases removed with
    | zero =>
      cases led
      exact leave.eq_1 _
    | succ removed =>
      obtain ⟨still, behind, leads⟩ := leave_cons led
      rw [List.cons_append, leads]
      exact ih behind

theorem leave_of_append {removed : Nat} {names more : List String} {left? : Option (List String)}
    (led : leave removed (names ++ more) = .ok left?) :
    ∃ front, leave removed names = .ok front := by
  induction names generalizing removed with
  | nil => cases removed <;> exact ⟨_, rfl⟩
  | cons name names ih =>
    cases removed with
    | zero => exact ⟨_, leave.eq_1 _⟩
    | succ removed =>
      obtain ⟨still, behind, leads⟩ := leave_cons led
      rw [leads]
      exact ih behind

section Way

variable {machine : Machine} {fromRoot : Bool} {names : List String}

theorem follow_of_way_none (led : machine.way fromRoot names = .ok none) :
    machine.follow fromRoot names = .ok none := by
  cases fromRoot with
  | true => cases led
  | false =>
    obtain ⟨left?, left, same⟩ := map_eq_ok led
    cases left? with
    | none => exact follow_false_removed left
    | some _ => cases same

theorem follow_of_way {way : List String} (led : machine.way fromRoot names = .ok (some way)) :
    machine.follow fromRoot names = (machine.tree.walk way).map some := by
  cases fromRoot with
  | true =>
    cases led
    exact follow_true machine names
  | false =>
    obtain ⟨left?, left, same⟩ := map_eq_ok led
    cases left? with
    | none => cases same
    | some left' =>
      cases same
      exact follow_false left

theorem exists_way_of_follow {last? : Option Spot} (followed : machine.follow fromRoot names = .ok last?) :
    ∃ way?, machine.way fromRoot names = .ok way? := by
  cases fromRoot with
  | true => exact ⟨_, rfl⟩
  | false =>
    cases left : leave machine.removed names with
    | error cause => simp [follow, left, bind, Except.bind] at followed
    | ok left? =>
      refine ⟨left?.map (machine.directory.reverse ++ ·), ?_⟩
      rw [way, left]
      rfl

/-- Names that lead to a spot lead there by a walk from the root. -/
theorem way_of_follow {spot : Spot} (followed : machine.follow fromRoot names = .ok (some spot)) :
    ∃ way, machine.way fromRoot names = .ok (some way) ∧ machine.tree.walk way = .ok spot := by
  obtain ⟨way?, led⟩ := exists_way_of_follow followed
  cases way? with
  | none =>
    rw [follow_of_way_none led] at followed
    cases followed
  | some way =>
    rw [follow_of_way led] at followed
    obtain ⟨last, walked, same⟩ := map_eq_ok followed
    cases same
    exact ⟨way, led, walked⟩

theorem way_append {way : List String} (led : machine.way fromRoot names = .ok (some way)) (more : List String) :
    machine.way fromRoot (names ++ more) = .ok (some (way ++ more)) := by
  cases fromRoot with
  | true =>
    cases led
    rfl
  | false =>
    obtain ⟨left?, left, same⟩ := map_eq_ok led
    cases left? with
    | none => cases same
    | some left' =>
      cases same
      simp [Machine.way, leave_append more left, Except.map]

theorem way_of_append {more : List String} {way? : Option (List String)}
    (led : machine.way fromRoot (names ++ more) = .ok way?) :
    ∃ front?, machine.way fromRoot names = .ok front? ∧
      ∀ front, front? = some front → way? = some (front ++ more) := by
  have further : ∀ front?, machine.way fromRoot names = .ok front? →
      ∀ front, front? = some front → way? = some (front ++ more) := by
    rintro _ ledFront front rfl
    rw [way_append ledFront more, Except.ok.injEq] at led
    exact led.symm
  cases fromRoot with
  | true => exact ⟨_, rfl, further _ rfl⟩
  | false =>
    obtain ⟨left?, left, _⟩ := map_eq_ok led
    obtain ⟨front?, ledFront⟩ := leave_of_append left
    have ways : machine.way false names = .ok (front?.map (machine.directory.reverse ++ ·)) := by
      rw [Machine.way, ledFront]
      rfl
    exact ⟨_, ways, further _ ways⟩

theorem way_congr {other : Machine} (directory : other.directory = machine.directory)
    (removed : other.removed = machine.removed) : other.way = machine.way := by
  funext fromRoot names
  rw [way, way, directory, removed]

/-- Names that lead somewhere go through directories on the way. -/
theorem leads_of_follow {more : List String} {spot : Spot}
    (followed : machine.follow fromRoot (names ++ more) = .ok (some spot)) (further : more ≠ []) :
    machine.follow fromRoot names = .ok none ∨ ∃ place, machine.Leads fromRoot names place := by
  obtain ⟨way, led, walked⟩ := way_of_follow followed
  obtain ⟨front?, ledFront, whole⟩ := way_of_append led
  cases front? with
  | none => exact .inl (follow_of_way_none ledFront)
  | some front =>
    cases whole front rfl
    obtain ⟨middle, reached, directory⟩ := FileTree.exists_directory_of_walk_append walked further
    refine .inr ⟨middle.place, middle, ?_, rfl, directory⟩
    rw [follow_of_way ledFront, reached]
    rfl

theorem follow_snoc {spot : Spot} (followed : machine.follow fromRoot names = .ok (some spot)) (name : String) :
    machine.follow fromRoot (names ++ [name]) = (spot.step name).map some := by
  obtain ⟨way, led, walked⟩ := way_of_follow followed
  rw [follow_of_way (way_append led [name]), FileTree.walk_concat walked]

theorem liesIn_of_follow {spot : Spot} (followed : machine.follow fromRoot names = .ok (some spot)) :
    spot.LiesIn machine.tree := by
  obtain ⟨way, _, walked⟩ := way_of_follow followed
  exact Spot.LiesIn.root.walk walked

end Way

theorem Leads.find? {machine : Machine} {fromRoot : Bool} {names : List String} {place : Place}
    (leads : machine.Leads fromRoot names place) : machine.tree.find? place = some .directory := by
  obtain ⟨spot, followed, rfl, directory⟩ := leads
  rw [(liesIn_of_follow followed).find?_place, directory]

theorem Leads.transfer {machine other : Machine} {fromRoot : Bool} {names : List String} {place : Place}
    (leads : machine.Leads fromRoot names place) (kept : machine.Keeps other) :
    other.Leads fromRoot names place := by
  obtain ⟨spot, followed, rfl, directory⟩ := leads
  obtain ⟨way, led, walked⟩ := way_of_follow followed
  obtain ⟨copy, copyWalked, same, copyDirectory⟩ :=
    Spot.walk_transfer kept.directories .root .root rfl walked directory
  refine ⟨copy, ?_, same, copyDirectory⟩
  rw [← way_congr kept.directory kept.removed] at led
  rw [follow_of_way led, FileTree.walk, copyWalked]
  rfl

end Machine

end PageInliner
