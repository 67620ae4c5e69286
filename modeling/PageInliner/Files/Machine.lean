import PageInliner.Files.Host
import PageInliner.Files.Tree

/-!
A tree of files as the surroundings of the program: every request is answered from the tree, and what is
reported is kept.
-/

set_option autoImplicit false

namespace PageInliner

/-- A tree of files, a working directory and the events reported so far. A working directory that has
been removed can still be left through `..`, but nothing else can be done in it; a new directory of its
name is another one. -/
structure Machine where
  tree : FileTree
  /-- The working directory or, if it has been removed, the nearest one above it that has not. -/
  directory : Place
  /-- How many directories have been removed on the way down from there to the working directory. -/
  removed : Nat
  /-- The events, the latest first. -/
  history : List Event

namespace Machine

/-- A machine on which nothing has happened yet. -/
def start (tree : FileTree) (directory : Place) : Machine :=
  ⟨tree, directory, 0, []⟩

/-- The events reported so far. -/
def events (machine : Machine) : List Event :=
  machine.history.reverse

/-- The machine without a place of its tree and all below it. -/
def remove (machine : Machine) (place : Place) : Machine :=
  let tree := machine.tree.remove place
  if place.isWithin machine.directory then
    { machine with
      tree := tree
      directory := place.tail
      removed := machine.removed + (machine.directory.length - place.tail.length) }
  else { machine with tree := tree }

/-- A path that can be looked up at all. -/
def checked (path : Path) : Except Cause Unit :=
  if path.text.toList.contains (Char.ofNat 0) then .error .nulInPath
  else if path.isEmpty then .error .notFound
  else if path.text.utf8ByteSize > FileTree.longestPath then .error .nameTooLong
  else .ok ()

/-- The names that are left of a row of names once it has led out of so many removed directories, or
nothing if it ends in one of them. -/
def leave : (removed : Nat) → (names : List String) → Except Cause (Option (List String))
  | 0, names => .ok (some names)
  | _ + 1, [] => .ok none
  | removed + 1, name :: names =>
    if name = "." then leave (removed + 1) names
    else if name = ".." then leave removed names
    else .error .notFound

/-- Where a row of names leads, from the root or from the working directory; nothing for a directory that
has been removed. -/
def follow (machine : Machine) (fromRoot : Bool) (names : List String) :
    Except Cause (Option Spot) := do
  if fromRoot then return some (← machine.tree.walk names)
  else match ← leave machine.removed names with
    | none => return none
    | some names => return some (← machine.tree.walk (machine.directory.reverse ++ names))

/-- Where a path leads. -/
def locate (machine : Machine) (path : Path) : Except Cause (Option Spot) := do
  checked path
  machine.follow path.isAbsolute path.steps

/-- What a path leads to. -/
def entry (machine : Machine) (path : Path) : Except Cause Entry := do
  match ← machine.locate path with
  | none => return .directory
  | some spot => return spot.branch.entry

def read (machine : Machine) (path : Path) : Except Cause ByteArray := do
  match ← machine.entry path with
  | .file bytes => return bytes
  | .directory => throw .isADirectory

def isFile (machine : Machine) (path : Path) : Bool :=
  match machine.entry path with
  | .ok (.file _) => true
  | _ => false

def isDirectory (machine : Machine) (path : Path) : Bool :=
  match machine.entry path with
  | .ok .directory => true
  | _ => false

/-- Where a new entry goes: a directory, unless it has been removed, and a name in it, or no name if the
path ends in `.`, `..` or at the root. -/
structure Slot where
  directory? : Option Spot
  name? : Option String

/-- The names of a path without the step that a separator at its end asks for. -/
def closedSteps (path : Path) : List String :=
  if path.endsOpen then path.steps.dropLast else path.steps

/-- The slot at the end of a path. -/
def slot (machine : Machine) (path : Path) : Except Cause Slot := do
  checked path
  let names := closedSteps path
  let directory? ← machine.follow path.isAbsolute names.dropLast
  if directory?.any (·.branch.entry ≠ .directory) then throw .notADirectory
  return ⟨directory?, names.getLast?.filter fun name => name ≠ "." && name ≠ ".."⟩

/-- The place of a new entry and what is there already. -/
def vacancy (directory? : Option Spot) (name : String) : Except Cause (Place × Option Entry) :=
  match directory? with
  | none => .error .notFound
  | some spot =>
    if name.utf8ByteSize > FileTree.longestName then .error .nameTooLong
    else .ok (name :: spot.place, (spot.branch.child? name).map Branch.entry)

/-- The tree with a new directory in it. -/
def withDirectory (machine : Machine) (path : Path) : Except Cause FileTree := do
  let slot ← machine.slot path
  match slot.name? with
  | none => throw .alreadyExists
  | some name =>
    match ← vacancy slot.directory? name with
    | (place, none) => return machine.tree.insert place .directory
    | (_, some _) => throw .alreadyExists

/-- The tree with a file in it that has these contents. -/
def withFile (machine : Machine) (path : Path) (bytes : ByteArray) : Except Cause FileTree := do
  let slot ← machine.slot path
  match slot.name? with
  | none => throw .isADirectory
  | some name =>
    if path.endsOpen then throw .isADirectory
    match ← vacancy slot.directory? name with
    | (_, some .directory) => throw .isADirectory
    | (place, _) => return machine.tree.insert place (.file bytes)

/-- The machine with its tree changed, unless the change was refused. -/
def update (machine : Machine) : Except Cause FileTree → Except Cause Unit × Machine
  | .error cause => (.error cause, machine)
  | .ok tree => (.ok (), { machine with tree := tree })

end Machine

instance : Host (StateM Machine) where
  workingDirectory := do
    let machine ← get
    return if machine.removed = 0 then .ok machine.directory.path else .error .notFound
  readFile path := return (← get).read path
  isFile path := return (← get).isFile path
  isDirectory path := return (← get).isDirectory path
  makeDirectory path := modifyGet fun machine => machine.update (machine.withDirectory path)
  writeFile path bytes := modifyGet fun machine => machine.update (machine.withFile path bytes)
  fileSize path := return ((← get).read path).map ByteArray.size
  report event := modify fun machine => { machine with history := event :: machine.history }

end PageInliner
