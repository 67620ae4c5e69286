import Mathlib.Data.List.Induction
import PageInliner.Proofs.Files.Walk

/-!
# Where a path leads

As there are no links, the place a path leads to can be told from its names and the working directory, whatever
is in the tree: `..` takes the last name back. Whether it is possible to go there is another question. It is if
every place on the way is a directory; if some of them are missing, but none of them is a file, the walk stops
for want of a directory and for no other reason.
-/

set_option autoImplicit false

namespace PageInliner

namespace Place

/-- Where one name leads from a directory. -/
def step (place : Place) (name : String) : Place :=
  if name = "." then place else if name = ".." then place.tail else name :: place

/-- Where names lead from the root. -/
def ofNames (names : List String) : Place :=
  names.foldl step []

/-- The places that names go through from a place, without the last. -/
def through : (place : Place) → (names : List String) → List Place
  | _, [] => []
  | place, name :: names => place :: through (place.step name) names

theorem ofNames_concat (names : List String) (name : String) :
    ofNames (names ++ [name]) = (ofNames names).step name := by
  rw [ofNames, List.foldl_append]
  rfl

theorem mem_through_iff {place other : Place} {names : List String} :
    other ∈ place.through names ↔
      ∃ front rest, names = front ++ rest ∧ rest ≠ [] ∧ front.foldl step place = other := by
  induction names generalizing place with
  | nil =>
    constructor
    · intro member
      cases member
    · rintro ⟨front, rest, whole, further, _⟩
      exact absurd (List.append_eq_nil_iff.mp whole.symm).2 further
  | cons name names ih =>
    rw [through, List.mem_cons, ih]
    constructor
    · rintro (rfl | ⟨front, rest, rfl, further, rfl⟩)
      · exact ⟨[], name :: names, rfl, List.cons_ne_nil _ _, rfl⟩
      · exact ⟨name :: front, rest, rfl, further, rfl⟩
    · rintro ⟨front, rest, whole, further, rfl⟩
      cases front with
      | nil => exact .inl rfl
      | cons first front =>
        rw [List.cons_append, List.cons.injEq] at whole
        obtain ⟨rfl, rfl⟩ := whole
        exact .inr ⟨front, rest, rfl, further, rfl⟩

end Place

namespace Spot

theorem place_of_step {spot next : Spot} {name : String} (taken : spot.step name = .ok next) :
    next.place = spot.place.step name := by
  obtain ⟨_, way⟩ := step_eq_ok_iff.mp taken
  unfold Place.step
  rcases way with ⟨dot, rfl⟩ | ⟨dots, rfl⟩ | ⟨notDot, notDots, _, child, _, rfl⟩
  · rw [if_pos dot]
  · rw [if_neg (by rw [dots]; decide), if_pos dots, place_parent]
  · rw [if_neg notDot, if_neg notDots]
    rfl

theorem place_of_walk {spot last : Spot} {names : List String} (walked : spot.walk names = .ok last) :
    last.place = names.foldl Place.step spot.place := by
  induction names generalizing spot with
  | nil =>
    cases walked
    rfl
  | cons name names ih =>
    rw [walk] at walked
    cases taken : spot.step name with
    | error cause => simp [taken] at walked
    | ok next =>
      rw [taken] at walked
      rw [List.foldl_cons, ← place_of_step taken]
      exact ih walked

theorem LiesIn.isDirectory_parent {tree : FileTree} {spot : Spot} (lies : spot.LiesIn tree)
    (directory : spot.branch.entry = .directory) : spot.parent.branch.entry = .directory := by
  cases lies with
  | root => exact directory
  | @child spot name branch _ isChild =>
    change spot.branch.entry = .directory
    cases shape : spot.branch with
    | file bytes =>
      rw [shape] at isChild
      cases isChild
    | directory children => rfl

theorem short_of_step {spot next : Spot} {name : String} (taken : spot.step name = .ok next) :
    name.utf8ByteSize ≤ FileTree.longestName := by
  obtain ⟨_, way⟩ := step_eq_ok_iff.mp taken
  rcases way with ⟨rfl, _⟩ | ⟨rfl, _⟩ | ⟨_, _, short, _⟩
  · decide
  · decide
  · exact short

theorem step_dots {spot : Spot} (directory : spot.branch.entry = .directory) : spot.step ".." = .ok spot.parent :=
  step_eq_ok_iff.mpr ⟨directory, .inr (.inl ⟨rfl, rfl⟩)⟩

theorem step_dot {spot : Spot} (directory : spot.branch.entry = .directory) : spot.step "." = .ok spot :=
  step_eq_ok_iff.mpr ⟨directory, .inl ⟨rfl, rfl⟩⟩

theorem step_named {spot : Spot} {name : String} (directory : spot.branch.entry = .directory)
    (proper : name ≠ "." ∧ name ≠ "..") (short : name.utf8ByteSize ≤ FileTree.longestName) :
    spot.step name =
      match spot.branch.child? name with
      | none => .error .notFound
      | some child => .ok ⟨child, (name, spot.branch) :: spot.above⟩ := by
  unfold step
  cases shape : spot.branch with
  | file bytes =>
    rw [shape] at directory
    cases directory
  | directory children =>
    dsimp only
    rw [if_neg proper.1, if_neg proper.2, if_neg (Nat.not_lt_of_le short)]
    rfl

end Spot

namespace FileTree

/-- No name is too long, and there is a directory or nothing wherever the names lead. -/
structure Passable (tree : FileTree) (names : List String) : Prop where
  short : ∀ name ∈ names, name.utf8ByteSize ≤ longestName
  free : ∀ front rest, names = front ++ rest → ∀ bytes, tree.find? (.ofNames front) ≠ some (.file bytes)

variable {tree : FileTree} {names : List String}

theorem place_of_walk {spot : Spot} (walked : tree.walk names = .ok spot) : spot.place = .ofNames names :=
  Spot.place_of_walk walked

theorem walk_concat_of_error {cause : Cause} (failed : tree.walk names = .error cause) (name : String) :
    tree.walk (names ++ [name]) = .error cause := by
  rw [walk, Spot.walk_append]
  rw [walk] at failed
  rw [failed]
  rfl

theorem Passable.of_append {more : List String} (passable : tree.Passable (names ++ more)) :
    tree.Passable names := by
  constructor
  · intro name among
    exact passable.short name (List.mem_append_left _ among)
  · intro front rest whole
    exact passable.free front (rest ++ more) (by rw [whole, List.append_assoc])

theorem Passable.transfer {other : FileTree} (passable : tree.Passable names)
    (files : ∀ place bytes, other.find? place = some (.file bytes) → tree.find? place = some (.file bytes)) :
    other.Passable names := by
  constructor
  · exact passable.short
  · intro front rest whole bytes isFile
    exact passable.free front rest whole bytes (files _ _ isFile)

theorem isDirectory_of_passable (passable : tree.Passable names) {spot : Spot}
    (walked : tree.walk names = .ok spot) : spot.branch.entry = .directory := by
  have found := (Spot.LiesIn.root.walk walked).find?_place
  rw [place_of_walk walked] at found
  cases entry : spot.branch.entry with
  | directory => rfl
  | file bytes =>
    rw [entry] at found
    exact absurd found (passable.free names [] (List.append_nil names).symm bytes)

/-- A walk that meets no file gets to its end, or comes to a directory that is missing. -/
theorem walk_of_passable (passable : tree.Passable names) :
    (∃ spot, tree.walk names = .ok spot ∧ spot.branch.entry = .directory) ∨
      tree.walk names = .error .notFound := by
  induction names using List.reverseRecOn with
  | nil => exact .inl ⟨⟨tree.root, []⟩, rfl, rfl⟩
  | append_singleton names name ih =>
    rcases ih passable.of_append with ⟨spot, walked, directory⟩ | missing
    · have steps := walk_concat walked name
      have short := passable.short name (List.mem_append_right _ (List.mem_singleton_self _))
      by_cases dot : name = "."
      · rw [dot] at steps ⊢
        exact .inl ⟨spot, steps.trans (Spot.step_dot directory), directory⟩
      · by_cases dots : name = ".."
        · rw [dots] at steps ⊢
          exact .inl ⟨spot.parent, steps.trans (Spot.step_dots directory),
            (Spot.LiesIn.root.walk walked).isDirectory_parent directory⟩
        · rw [Spot.step_named directory ⟨dot, dots⟩ short] at steps
          cases isChild : spot.branch.child? name with
          | none =>
            rw [isChild] at steps
            exact .inr steps
          | some child =>
            rw [isChild] at steps
            exact .inl ⟨_, steps, isDirectory_of_passable passable steps⟩
    · exact .inr (walk_concat_of_error missing name)

theorem find?_of_walk_append {front rest : List String} {spot : Spot}
    (walked : tree.walk (front ++ rest) = .ok spot) (further : rest ≠ []) :
    tree.find? (.ofNames front) = some .directory := by
  obtain ⟨middle, reached, directory⟩ := exists_directory_of_walk_append walked further
  rw [← place_of_walk reached, find?_of_walk reached, directory]

theorem find?_of_walk_directory {front rest : List String} {spot : Spot}
    (walked : tree.walk (front ++ rest) = .ok spot) (directory : spot.branch.entry = .directory) :
    tree.find? (.ofNames front) = some .directory := by
  cases rest with
  | nil =>
    rw [List.append_nil] at walked
    rw [← place_of_walk walked, find?_of_walk walked, directory]
  | cons name rest => exact find?_of_walk_append walked (List.cons_ne_nil _ _)

theorem passable_of_walk {spot : Spot} (walked : tree.walk names = .ok spot)
    (directory : spot.branch.entry = .directory) : tree.Passable names := by
  constructor
  · intro name among
    obtain ⟨front, rest, rfl⟩ := List.append_of_mem among
    obtain ⟨middle, _, walked⟩ := exists_walk_of_append walked
    rw [Spot.walk] at walked
    cases taken : middle.step name with
    | error cause => simp [taken] at walked
    | ok next => exact Spot.short_of_step taken
  · intro front rest whole bytes isFile
    rw [whole] at walked
    rw [find?_of_walk_directory walked directory] at isFile
    cases isFile

end FileTree

namespace Machine

/-- The place a path leads to, if it can be gone to. -/
def resolve? (machine : Machine) (path : Path) : Option Place :=
  match machine.way path.isAbsolute path.steps with
  | .ok (some way) => some (.ofNames way)
  | _ => none

/-- The places on the way to where a path leads. -/
def placesOnWay (machine : Machine) (path : Path) : List Place :=
  match machine.way path.isAbsolute path.steps with
  | .ok (some way) => Place.through [] way
  | _ => []

section Way

variable {machine : Machine} {fromRoot : Bool} {names : List String}

theorem resolve?_congr {other : Machine} (directory : other.directory = machine.directory)
    (removed : other.removed = machine.removed) : other.resolve? = machine.resolve? := by
  funext path
  rw [resolve?, resolve?, way_congr directory removed]

theorem placesOnWay_congr {other : Machine} (directory : other.directory = machine.directory)
    (removed : other.removed = machine.removed) : other.placesOnWay = machine.placesOnWay := by
  funext path
  rw [placesOnWay, placesOnWay, way_congr directory removed]

theorem mem_placesOnWay_of_way {path : Path} {place : Place} {way : List String}
    (led : machine.way path.isAbsolute path.steps = .ok (some way)) :
    place ∈ machine.placesOnWay path ↔
      ∃ front rest, way = front ++ rest ∧ rest ≠ [] ∧ Place.ofNames front = place := by
  rw [placesOnWay, led]
  exact Place.mem_through_iff

theorem resolve?_of_locate {path : Path} {spot : Spot} (located : machine.locate path = .ok (some spot)) :
    machine.resolve? path = some spot.place := by
  obtain ⟨_, _, followed⟩ := bind_eq_ok located
  obtain ⟨way, led, walked⟩ := way_of_follow followed
  rw [resolve?, led, FileTree.place_of_walk walked]

end Way

theorem entry_of_locate {machine : Machine} {path : Path} {spot : Spot}
    (located : machine.locate path = .ok (some spot)) : machine.entry path = .ok spot.branch.entry := by
  rw [entry, located]
  rfl

theorem entry_of_locate_removed {machine : Machine} {path : Path} (located : machine.locate path = .ok none) :
    machine.entry path = .ok .directory := by
  rw [entry, located]
  rfl

theorem read_of_entry {machine : Machine} {path : Path} {bytes : ByteArray}
    (found : machine.entry path = .ok (.file bytes)) : machine.read path = .ok bytes := by
  rw [read, found]
  rfl

theorem entry_of_read {machine : Machine} {path : Path} {bytes : ByteArray}
    (read : machine.read path = .ok bytes) : machine.entry path = .ok (.file bytes) := by
  obtain ⟨here, found, given⟩ := bind_eq_ok read
  cases here with
  | directory => cases given
  | file others =>
    cases given
    exact found

theorem read_eq_ok_iff {machine : Machine} {path : Path} {bytes : ByteArray} :
    machine.read path = .ok bytes ↔
      ∃ spot, machine.locate path = .ok (some spot) ∧ spot.branch.entry = .file bytes := by
  constructor
  · intro read
    have found := entry_of_read read
    obtain ⟨spot?, located, _⟩ := bind_eq_ok found
    cases spot? with
    | none =>
      rw [entry_of_locate_removed located] at found
      cases found
    | some spot =>
      rw [entry_of_locate located] at found
      exact ⟨spot, located, Except.ok.inj found⟩
  · rintro ⟨spot, located, isFile⟩
    apply read_of_entry
    rw [entry_of_locate located, isFile]

theorem find?_of_read {machine : Machine} {path : Path} {bytes : ByteArray}
    (read : machine.read path = .ok bytes) :
    ∃ place, machine.resolve? path = some place ∧ machine.tree.find? place = some (.file bytes) := by
  obtain ⟨spot, located, isFile⟩ := read_eq_ok_iff.mp read
  obtain ⟨_, _, followed⟩ := bind_eq_ok located
  refine ⟨spot.place, resolve?_of_locate located, ?_⟩
  rw [(liesIn_of_follow followed).find?_place, isFile]

/-- The step of a walk that leads to a file names it. -/
private theorem proper_of_step {tree : FileTree} {spot next : Spot} {name : String} {bytes : ByteArray}
    (lies : spot.LiesIn tree) (taken : spot.step name = .ok next) (isFile : next.branch.entry = .file bytes) :
    spot.branch.entry = .directory ∧ (name ≠ "." ∧ name ≠ "..") ∧
      name.utf8ByteSize ≤ FileTree.longestName := by
  have short := Spot.short_of_step taken
  obtain ⟨directory, way⟩ := Spot.step_eq_ok_iff.mp taken
  rcases way with ⟨_, rfl⟩ | ⟨_, rfl⟩ | ⟨notDot, notDots, _⟩
  · rw [directory] at isFile
    cases isFile
  · rw [lies.isDirectory_parent directory] at isFile
    cases isFile
  · exact ⟨directory, ⟨notDot, notDots⟩, short⟩

/-- Where the directories of a tree have been kept, a path that led to a file leads to what is in its place. -/
theorem read_of_keeps {machine other : Machine} {path : Path} {bytes new : ByteArray} {place : Place}
    (read : machine.read path = .ok bytes) (kept : machine.Keeps other)
    (leads : machine.resolve? path = some place) (found : other.tree.find? place = some (.file new)) :
    other.read path = .ok new := by
  obtain ⟨spot, located, isFile⟩ := read_eq_ok_iff.mp read
  have same := (resolve?_of_locate located).symm.trans leads
  cases same
  obtain ⟨_, allowed, followed⟩ := bind_eq_ok located
  obtain ⟨way, led, walked⟩ := way_of_follow followed
  rw [← way_congr kept.directory kept.removed] at led
  rcases List.eq_nil_or_concat way with rfl | ⟨front, name, rfl⟩
  · cases walked
    cases isFile
  · -- The last step is taken apart, as all before it go through directories.
    rw [List.concat_eq_append] at led walked
    obtain ⟨middle, reached, taken⟩ := FileTree.exists_walk_of_append walked
    rw [Spot.walk_singleton] at taken
    have lies := Spot.LiesIn.root.walk reached
    obtain ⟨directory, proper, short⟩ := proper_of_step lies taken isFile
    obtain ⟨copy, copyReached, samePlace, copyDirectory⟩ :=
      Spot.walk_transfer kept.directories .root .root rfl reached directory
    rw [Spot.place_of_step taken, Place.step, if_neg proper.1, if_neg proper.2, ← samePlace,
      (Spot.LiesIn.root.walk copyReached).find?_cons] at found
    obtain ⟨child, isChild, childFile⟩ := Option.map_eq_some_iff.mp found
    have copyTaken := Spot.step_named copyDirectory proper short
    rw [isChild] at copyTaken
    refine read_eq_ok_iff.mpr ⟨⟨child, (name, copy.branch) :: copy.above⟩, ?_, childFile⟩
    rw [locate, allowed]
    change other.follow path.isAbsolute path.steps = _
    rw [follow_of_way led, FileTree.walk_concat copyReached name, copyTaken]
    rfl

end Machine

end PageInliner
