import PageInliner.Config.Tree

/-!
The tables of a TOML document while it is read. Which keys may be added to a table depends on how the
table came about, so each one remembers that; in the end they become a tree.
-/

set_option autoImplicit false

namespace PageInliner.Toml

/-- How a table came about. -/
inductive Origin where
  /-- It has a header of its own, or it is the document. -/
  | header
  /-- A header names it on the way to another table. -/
  | implied
  /-- A dotted key leads through it. -/
  | dotted
  deriving DecidableEq

/-- What stands behind a key. -/
inductive Node where
  | value (tree : Tree)
  | table (origin : Origin) (entries : List (String × Node))
  /-- A list of tables, the one added last first. -/
  | tables (items : List (List (String × Node)))

/-- The entries of a table, the one added last first. -/
abbrev Entries := List (String × Node)

namespace Entries

def find? (entries : Entries) (key : String) : Option Node :=
  List.lookup key entries

def replace (entries : Entries) (key : String) (node : Node) : Entries :=
  entries.map fun entry => if entry.1 = key then (key, node) else entry

def erase (entries : Entries) (key : String) : Entries :=
  entries.filter fun entry => entry.1 ≠ key

/-- The entries with the table at the end of `path` changed. Tables that are not there yet are added.
The way leads into the last one of a list of tables, but not into a value; a dotted key does not lead
into a table that has a header. -/
def changeAt (dotted : Bool) (change : Origin → Entries → Option Entries) :
    (path : List String) → Origin → Entries → Option Entries
  | [], origin, entries => change origin entries
  | key :: path, _, entries =>
    match entries.find? key with
    | none => do
      let origin := if dotted then Origin.dotted else Origin.implied
      let below ← changeAt dotted change path origin []
      return (key, .table origin below) :: entries
    | some (.value _) => none
    | some (.tables []) => none
    | some (.tables (latest :: earlier)) => do
      let below ← changeAt dotted change path .header latest
      return entries.replace key (.tables (below :: earlier))
    | some (.table origin below) => do
      if dotted && origin == .header then none
      let below ← changeAt dotted change path origin below
      return entries.replace key (.table origin below)

/-- A value added to a table, behind keys that lead to it. The last key must be new, and a table that
did not come about by a dotted key takes none. -/
def add (entries : Entries) (keys : List String) (tree : Tree) : Option Entries := do
  let key ← keys.getLast?
  let path := keys.dropLast
  let change (origin : Origin) (table : Entries) : Option Entries :=
    if (origin == .dotted) == path.isEmpty || (table.find? key).isSome then none
    else some ((key, .value tree) :: table)
  changeAt true change path .header entries

/-- Values added one after the other. -/
def addAll : Entries → List (List String × Tree) → Option Entries
  | entries, [] => some entries
  | entries, (keys, tree) :: pairs => do addAll (← entries.add keys tree) pairs

/-- A table added under its header. It may have been implied before, but it must not have come about in
any other way; it stands where its header stands. -/
def addTable (entries : Entries) (keys : List String) (pairs : List (List String × Tree)) :
    Option Entries := do
  let key ← keys.getLast?
  let change (_ : Origin) (parent : Entries) : Option Entries :=
    match parent.find? key with
    | none => do
      let table ← addAll [] pairs
      return (key, .table .header table) :: parent
    | some (.table .implied known) => do
      let table ← addAll known pairs
      return (key, .table .header table) :: parent.erase key
    | _ => none
  changeAt false change keys.dropLast .header entries

/-- A table added to a list of tables. -/
def addItem (entries : Entries) (keys : List String) (pairs : List (List String × Tree)) :
    Option Entries := do
  let key ← keys.getLast?
  let table ← addAll [] pairs
  let change (_ : Origin) (parent : Entries) : Option Entries :=
    match parent.find? key with
    | none => some ((key, .tables [table]) :: parent)
    | some (.tables items) => some (parent.replace key (.tables (table :: items)))
    | _ => none
  changeAt false change keys.dropLast .header entries

end Entries

mutual

/-- A node as a tree. -/
def Node.tree : Node → Tree
  | .value tree => tree
  | .table _ entries => .table (entryTrees [] entries)
  | .tables items => .list (tableTrees [] items)

/-- The entries as trees, in the order in which they were added, with `later` ones behind them. -/
def entryTrees (later : List (String × Tree)) : List (String × Node) → List (String × Tree)
  | [] => later
  | (key, node) :: earlier => entryTrees ((key, node.tree) :: later) earlier

/-- The tables as trees, in the order in which they were added, with `later` ones behind them. -/
def tableTrees (later : List Tree) : List (List (String × Node)) → List Tree
  | [] => later
  | entries :: earlier => tableTrees (.table (entryTrees [] entries) :: later) earlier

end

/-- The table of a document. -/
def Entries.tree (entries : Entries) : Tree :=
  .table (entryTrees [] entries)

end PageInliner.Toml
