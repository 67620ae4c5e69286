import PageInliner.Files.Cause
import PageInliner.Path

/-!
Files and directories as a value. A place in the tree is the row of names that leads to it, the last one
first, so that the directory of a place is its tail. The root is always there and is a directory; links
are not part of the picture.
-/

set_option autoImplicit false

namespace PageInliner

/-- A place in a tree, the last name first. -/
abbrev Place := List String

namespace Place

/-- The absolute path of a place. -/
def path (place : Place) : Path :=
  ⟨"/" ++ "/".intercalate place.reverse⟩

/-- The place is `top` or below it. -/
def isWithin (top place : Place) : Bool :=
  top.isSuffixOf place

end Place

/-- What is found at a place. -/
inductive Entry where
  | file (bytes : ByteArray)
  | directory

/-- Files are the same if they have the same bytes. -/
instance : DecidableEq Entry
  | .directory, .directory => isTrue rfl
  | .file _, .directory => isFalse nofun
  | .directory, .file _ => isFalse nofun
  | .file bytes, .file others =>
    decidable_of_iff (bytes.data = others.data)
      ⟨fun same => congrArg Entry.file (ByteArray.ext same), fun same => by cases same; rfl⟩

/-- A file, or a directory with all that is in it. -/
inductive Branch where
  | file (bytes : ByteArray)
  | directory (children : List (String × Branch))

namespace Branch

/-- The branch without what is in it. -/
def entry : Branch → Entry
  | file bytes => .file bytes
  | directory _ => .directory

/-- What is in a directory; there is nothing in a file. -/
def children : Branch → List (String × Branch)
  | file _ => []
  | directory children => children

def child? (branch : Branch) (name : String) : Option Branch :=
  branch.children.lookup name

/-- The branch that a row of names leads to. -/
def find? : Branch → (names : List String) → Option Branch
  | branch, [] => some branch
  | branch, name :: names =>
    match branch.child? name with
    | none => none
    | some child => child.find? names

/-- The children with one of them replaced, or put behind all others if it is new. -/
def put (name : String) (child : Branch) : List (String × Branch) → List (String × Branch)
  | [] => [(name, child)]
  | (known, old) :: rest =>
    if name == known then (name, child) :: rest else (known, old) :: put name child rest

/-- The branch with what a row of names leads to changed. What is missing on the way becomes a
directory, and so does a file. -/
def changeAt (change : Option Branch → Branch) : (names : List String) → Option Branch → Branch
  | [], branch => change branch
  | name :: names, branch =>
    let branch := branch.getD (directory [])
    directory (put name (changeAt change names (branch.child? name)) branch.children)

/-- What an entry becomes that is put where a branch may be. A directory keeps what is in it. -/
def ofEntry (entry : Entry) (old : Option Branch) : Branch :=
  match entry, old with
  | .file bytes, _ => file bytes
  | .directory, some (directory children) => directory children
  | .directory, _ => directory []

/-- The children without what a row of names leads to. -/
def removeAt : (names : List String) → List (String × Branch) → List (String × Branch)
  | [], _ => []
  | [name], children => children.filter fun (known, _) => known != name
  | name :: names, children =>
    match children.lookup name with
    | none => children
    | some child => put name (directory (removeAt names child.children)) children

mutual

/-- All that is in a branch at a place, each directory before what is in it. -/
def listing (place : Place) : Branch → List (Place × Entry)
  | file bytes => [(place, .file bytes)]
  | directory children => (place, .directory) :: listings place children

/-- All that is in a directory at a place. -/
def listings (place : Place) : List (String × Branch) → List (Place × Entry)
  | [] => []
  | (name, child) :: children => listing (name :: place) child ++ listings place children

end

theorem lookup_put (name other : String) (child : Branch) (children : List (String × Branch)) :
    (put name child children).lookup other =
      if other = name then some child else children.lookup other := by
  induction children with
  | nil =>
    by_cases same : other = name
    · simp [put, same]
    · have apart : (other == name) = false := by simpa using same
      simp [put, same, List.lookup_cons, apart]
  | cons first rest ih =>
    obtain ⟨known, old⟩ := first
    by_cases replaced : name = known
    · subst replaced
      by_cases same : other = name
      · simp [put, same]
      · have apart : (other == name) = false := by simpa using same
        simp [put, same, List.lookup_cons, apart]
    · have kept : put name child ((known, old) :: rest) = (known, old) :: put name child rest := by
        simp [put, replaced]
      rw [kept, List.lookup_cons, List.lookup_cons, ih]
      by_cases asked : other = known
      · subst asked
        simp [Ne.symm replaced]
      · have apart : (other == known) = false := by simpa using asked
        simp [apart]

theorem child?_put (branch : Branch) (name other : String) (child : Branch) :
    (directory (put name child branch.children)).child? other =
      if other = name then some child else branch.child? other :=
  lookup_put name other child branch.children

theorem find?_nil (branch : Branch) : branch.find? [] = some branch := rfl

theorem find?_cons (branch : Branch) (name : String) (names : List String) :
    branch.find? (name :: names) = (branch.child? name).bind fun child => child.find? names := by
  simp only [find?]
  split <;> simp_all

/-- A way in two parts is gone one part after the other. -/
theorem find?_append (branch : Branch) (names more : List String) :
    branch.find? (names ++ more) = (branch.find? names).bind fun child => child.find? more := by
  induction names generalizing branch with
  | nil => rfl
  | cons name names ih =>
    simp only [List.cons_append, find?_cons, Option.bind_assoc]
    exact congrArg _ (funext fun child => ih child)

theorem entry_ofEntry (new : Entry) (old : Option Branch) : (ofEntry new old).entry = new := by
  unfold ofEntry
  split <;> rfl

/-- There is nothing in what an entry becomes, unless it takes the place of a directory. -/
theorem find?_ofEntry {old : Option Branch} (vacant : old.map entry ≠ some .directory) (new : Entry)
    (name : String) (names : List String) : (ofEntry new old).find? (name :: names) = none := by
  unfold ofEntry
  split
  · rfl
  · exact absurd rfl vacant
  · rfl

/-- There is nothing in what is no directory. -/
theorem find?_of_vacant {old : Option Branch} (vacant : old.map entry ≠ some .directory)
    (name : String) (names : List String) :
    (old.bind fun child => child.find? (name :: names)) = none := by
  cases old with
  | none => rfl
  | some child =>
    cases child with
    | file => rfl
    | directory => exact absurd rfl vacant

/-- Where an entry is put into a directory nothing else is changed, unless it takes the place of a
directory. -/
theorem find?_changeAt {branch folder : Branch} {names : List String} {name : String}
    (found : branch.find? names = some folder) (isDirectory : folder.entry = .directory)
    (vacant : (folder.child? name).map entry ≠ some .directory) (new : Entry)
    (others : List String) :
    ((changeAt (ofEntry new) (names ++ [name]) (some branch)).find? others).map entry =
      if others = names ++ [name] then some new else (branch.find? others).map entry := by
  induction names generalizing branch others with
  | nil =>
    cases found
    cases others with
    | nil => simpa [changeAt, find?_nil, entry] using isDirectory.symm
    | cons other others =>
      simp only [List.nil_append, changeAt, Option.getD_some, find?_cons, child?_put]
      by_cases same : other = name
      · subst same
        cases others with
        | nil => simp [find?_nil, entry_ofEntry]
        | cons next others =>
          rw [find?_of_vacant vacant next others]
          simp [find?_ofEntry vacant]
      · simp [same]
  | cons first names ih =>
    rw [find?_cons] at found
    obtain ⟨child, isChild, below⟩ := Option.bind_eq_some_iff.mp found
    cases others with
    | nil =>
      cases branch with
      | file => cases isChild
      | directory => simp [changeAt, find?_nil, entry]
    | cons other others =>
      simp only [List.cons_append, changeAt, Option.getD_some, find?_cons, child?_put]
      by_cases same : other = first
      · subst same
        simpa [isChild] using ih below others
      · simp [same]

end Branch

/-- A tree of files, as all that is in its root. -/
structure FileTree where
  children : List (String × Branch)

namespace FileTree

/-- The tree with nothing but its root. -/
def empty : FileTree := ⟨[]⟩

def root (tree : FileTree) : Branch :=
  .directory tree.children

/-- What is at a place. -/
def find? (tree : FileTree) (place : Place) : Option Entry :=
  (tree.root.find? place.reverse).map Branch.entry

/-- The tree with an entry put at a place. What is missing on the way becomes a directory, and a
directory that is there already keeps what is in it. -/
def insert (tree : FileTree) (place : Place) (entry : Entry) : FileTree :=
  ⟨(Branch.changeAt (Branch.ofEntry entry) place.reverse tree.root).children⟩

/-- The tree without a place and all below it. -/
def remove (tree : FileTree) (place : Place) : FileTree :=
  ⟨Branch.removeAt place.reverse tree.children⟩

/-- All places of the tree but its root, each directory before what is in it. -/
def listing (tree : FileTree) : List (Place × Entry) :=
  Branch.listings [] tree.children

theorem find?_root (tree : FileTree) : tree.find? [] = some .directory := rfl

/-- An entry that is put into a directory is found there and all else is found as before, unless the
entry takes the place of a directory. -/
theorem find?_insert {tree : FileTree} {name : String} {directory : Place}
    (isDirectory : tree.find? directory = some .directory)
    (vacant : tree.find? (name :: directory) ≠ some .directory) (entry : Entry) (other : Place) :
    (tree.insert (name :: directory) entry).find? other =
      if other = name :: directory then some entry else tree.find? other := by
  obtain ⟨folder, found, isDirectory⟩ := Option.map_eq_some_iff.mp isDirectory
  have free : (folder.child? name).map Branch.entry ≠ some .directory := by
    intro taken
    apply vacant
    simp only [find?, List.reverse_cons, Branch.find?_append, found, Option.bind_some,
      Branch.find?_cons, Branch.find?_nil, Option.bind_fun_some]
    exact taken
  have law := Branch.find?_changeAt found isDirectory free entry other.reverse
  have ends : other.reverse = directory.reverse ++ [name] ↔ other = name :: directory := by
    rw [← List.reverse_cons, List.reverse_inj]
  have whole : (tree.insert (name :: directory) entry).root =
      Branch.changeAt (Branch.ofEntry entry) (directory.reverse ++ [name]) (some tree.root) := by
    rw [root, insert, List.reverse_cons]
    cases directory.reverse <;> rfl
  simp only [ends] at law
  rw [find?, whole, law, find?]

/-- The longest name an entry can have, in bytes. -/
def longestName : Nat := 255

/-- The longest path that is looked up, in bytes. -/
def longestPath : Nat := 4095

end FileTree

/-- Where a walk through a tree has come to: what is there, and the directories above it, each with the
name that was taken in it, nearest first. -/
structure Spot where
  branch : Branch
  above : List (String × Branch)

namespace Spot

def place (spot : Spot) : Place :=
  spot.above.map Prod.fst

/-- The directory of a spot; that of the root is the root. -/
def parent (spot : Spot) : Spot :=
  match spot.above with
  | [] => spot
  | (_, directory) :: above => ⟨directory, above⟩

/-- One step of a walk. Only a directory can be stepped through. -/
def step (spot : Spot) (name : String) : Except Cause Spot :=
  match spot.branch with
  | .file _ => .error .notADirectory
  | .directory children =>
    if name = "." then .ok spot
    else if name = ".." then .ok spot.parent
    else if name.utf8ByteSize > FileTree.longestName then .error .nameTooLong
    else match children.lookup name with
      | none => .error .notFound
      | some child => .ok ⟨child, (name, spot.branch) :: spot.above⟩

/-- The spot a row of names leads to. -/
def walk : Spot → (names : List String) → Except Cause Spot
  | spot, [] => .ok spot
  | spot, name :: names =>
    match spot.step name with
    | .error cause => .error cause
    | .ok next => walk next names

/-- The spot is one of a tree: all above it is what is found on the way to it. -/
inductive LiesIn (tree : FileTree) : Spot → Prop where
  | root : LiesIn tree ⟨tree.root, []⟩
  | child {spot : Spot} {name : String} {branch : Branch} : LiesIn tree spot →
      spot.branch.child? name = some branch → LiesIn tree ⟨branch, (name, spot.branch) :: spot.above⟩

/-- What is at a spot is what the tree has there. -/
theorem LiesIn.find? {tree : FileTree} {spot : Spot} (lies : spot.LiesIn tree) :
    tree.root.find? spot.place.reverse = some spot.branch := by
  induction lies with
  | root => rfl
  | child _ isChild ih =>
    simp only [place] at ih
    simp [place, Branch.find?_append, ih, Branch.find?, isChild]

theorem LiesIn.parent {tree : FileTree} {spot : Spot} (lies : spot.LiesIn tree) :
    spot.parent.LiesIn tree := by
  cases lies with
  | root => exact .root
  | child lies _ => exact lies

theorem LiesIn.step {tree : FileTree} {spot next : Spot} {name : String} (lies : spot.LiesIn tree)
    (taken : spot.step name = .ok next) : next.LiesIn tree := by
  unfold Spot.step at taken
  split at taken
  · cases taken
  · rename_i children shape
    repeat' split at taken
    · cases taken; exact lies
    · cases taken; exact lies.parent
    · cases taken
    · cases taken
    · rename_i isChild
      cases taken
      exact .child lies (by rw [Branch.child?, shape]; exact isChild)

/-- A walk does not leave the tree. -/
theorem LiesIn.walk {tree : FileTree} {spot last : Spot} {names : List String}
    (lies : spot.LiesIn tree) (walked : spot.walk names = .ok last) : last.LiesIn tree := by
  induction names generalizing spot with
  | nil => cases walked; exact lies
  | cons name names ih =>
    simp only [Spot.walk] at walked
    split at walked
    · cases walked
    · rename_i taken
      exact ih (lies.step taken) walked

end Spot

namespace FileTree

/-- The spot that a row of names leads to from the root. -/
def walk (tree : FileTree) (names : List String) : Except Cause Spot :=
  Spot.walk ⟨tree.root, []⟩ names

/-- What a walk finds is in the tree. -/
theorem find?_of_walk {tree : FileTree} {names : List String} {spot : Spot}
    (walked : tree.walk names = .ok spot) : tree.find? spot.place = some spot.branch.entry := by
  rw [find?, (Spot.LiesIn.root.walk walked).find?]
  rfl

end FileTree

end PageInliner
