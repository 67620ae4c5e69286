import PageInliner.Config.Basic
import PageInliner.Config.Tree

/-!
Configurations read from trees. A field that is missing keeps its standard value and a field of the
wrong shape is refused; a key that is no field is passed over, but where it stands is noted.
-/

set_option autoImplicit false

namespace PageInliner

/-- What the kinds of configuration files do not agree on. -/
structure Dialect where
  /-- A row of values for the fields of a record may have values left over. -/
  toleratesSurplus : Bool
  /-- The value that stands behind the name of a choice when the choice is written as a table. -/
  isNothing : Tree → Bool

namespace Dialect

/-- TOML: left-over values are not looked at, and a choice may be written as a table with an empty list
or table behind its name. -/
def toml : Dialect where
  toleratesSurplus := true
  isNothing
    | .list [] => true
    | .table [] => true
    | _ => false

/-- JSON: left-over values are refused, and a choice may be written as a table with a null behind its
name. -/
def json : Dialect where
  toleratesSurplus := false
  isNothing
    | .null => true
    | _ => false

end Dialect

/-- Where a value stands in a tree: keys, and numbers of items, from the outermost on. -/
abbrev Trail := List String

/-- The trail as it is shown. -/
def Trail.text (trail : Trail) : String :=
  ".".intercalate trail

/-- A value that was read, and the trails of the keys that were passed over. -/
structure Reading (α : Type) where
  value : α
  ignored : List Trail

namespace Tree

def boolean? : Tree → Option Bool
  | boolean value => some value
  | _ => none

def text? : Tree → Option String
  | text value => some value
  | _ => none

def path? (tree : Tree) : Option Path :=
  tree.text?.map Path.mk

/-- A value that may be left open with a null. -/
def optional? {α : Type} (read? : Tree → Option α) : Tree → Option (Option α)
  | null => some none
  | tree => (read? tree).map some

/-- One of a few choices: its name, or a table with its name as the only key. -/
def choice? {α : Type} (dialect : Dialect) (ofName? : String → Option α) : Tree → Option α
  | text name => ofName? name
  | table [(name, value)] => if dialect.isNothing value then ofName? name else none
  | _ => none

/-- The entries of a table. A moment is a table too, with one key of its own. -/
def entries? : Tree → Option (List (String × Tree))
  | table entries => some entries
  | moment => some [("$__toml_private_datetime", moment)]
  | _ => none

end Tree

/-- A field of a record: its name, and the record with a value read into the field. -/
structure RecordField (α : Type) where
  name : String
  read? : Trail → Tree → α → Option (Reading α)

namespace RecordField

variable {α β : Type}

/-- A field in which no key can be passed over. -/
def plain (name : String) (read? : Tree → Option β) (set : β → α → α) : RecordField α where
  name := name
  read? _ tree record := (read? tree).map fun value => ⟨set value record, []⟩

/-- The entries of a table read into a record, one after the other. -/
def readEntries (fields : List (RecordField α)) (trail : Trail) :
    List (String × Tree) → α → Option (Reading α)
  | [], record => some ⟨record, []⟩
  | (key, tree) :: entries, record =>
    match fields.find? (·.name = key) with
    | none => (readEntries fields trail entries record).map fun reading =>
      { reading with ignored := (trail ++ [key]) :: reading.ignored }
    | some field => do
      let former ← field.read? (trail ++ [key]) tree record
      let latter ← readEntries fields trail entries former.value
      return ⟨latter.value, former.ignored ++ latter.ignored⟩

/-- A row of values read into the fields of a record in their order, counted from `index`. -/
def readRow (dialect : Dialect) (trail : Trail) :
    (index : Nat) → List (RecordField α) → List Tree → α → Option (Reading α)
  | _, _, [], record => some ⟨record, []⟩
  | _, [], _ :: _, record => if dialect.toleratesSurplus then some ⟨record, []⟩ else none
  | index, field :: fields, tree :: trees, record => do
    let former ← field.read? (trail ++ [toString index]) tree record
    let latter ← readRow dialect trail (index + 1) fields trees former.value
    return ⟨latter.value, former.ignored ++ latter.ignored⟩

/-- A record read from a table of its fields or from a row of their values; what is missing stays as it
is in `record`. -/
def readRecord (dialect : Dialect) (fields : List (RecordField α)) (trail : Trail) (tree : Tree)
    (record : α) : Option (Reading α) :=
  match tree with
  | .list items => readRow dialect trail 0 fields items record
  | tree => do readEntries fields trail (← tree.entries?) record

/-- The items of a list read one after the other, counted from `index`. -/
def readItems (read? : Trail → Tree → Option (Reading β)) (trail : Trail) :
    (index : Nat) → List Tree → Option (Reading (List β))
  | _, [] => some ⟨[], []⟩
  | index, tree :: trees => do
    let former ← read? (trail ++ [toString index]) tree
    let latter ← readItems read? trail (index + 1) trees
    return ⟨former.value :: latter.value, former.ignored ++ latter.ignored⟩

/-- A field that holds a list of records. -/
def list (name : String) (read? : Trail → Tree → Option (Reading β)) (set : List β → α → α) :
    RecordField α where
  name := name
  read? trail tree record :=
    match tree with
    | .list items => (readItems read? trail 0 items).map fun reading =>
      ⟨set reading.value record, reading.ignored⟩
    | _ => none

end RecordField

open RecordField

/-- A rule of which some fields may not have been read yet. -/
structure PartialRule where
  kind : Option Asset.Kind
  marker : Option String
  path : Option Path

namespace MarkerRule

def fields (dialect : Dialect) : List (RecordField PartialRule) := [
  plain "kind" (Tree.choice? dialect Asset.Kind.ofName?) fun kind rule =>
    { rule with kind := some kind },
  plain "marker" Tree.text? fun marker rule => { rule with marker := some marker },
  plain "path" Tree.path? fun path rule => { rule with path := some path }]

/-- A rule read from a tree; none of its fields may be missing. -/
def ofTree? (dialect : Dialect) (trail : Trail) (tree : Tree) : Option (Reading MarkerRule) := do
  let reading ← readRecord dialect (fields dialect) trail tree ⟨none, none, none⟩
  let kind ← reading.value.kind
  let marker ← reading.value.marker
  let path ← reading.value.path
  return ⟨⟨kind, marker, path⟩, reading.ignored⟩

end MarkerRule

namespace Bundle

def fields (dialect : Dialect) : List (RecordField Bundle) := [
  plain "name" Tree.text? fun name bundle => { bundle with name := name },
  plain "strategy" (Tree.choice? dialect Strategy.ofName?) fun strategy bundle =>
    { bundle with strategy := strategy },
  plain "root" Tree.path? fun root bundle => { bundle with root := root },
  plain "output" Tree.path? fun output bundle => { bundle with output := output },
  plain "minify" (Tree.optional? Tree.boolean?) fun minify bundle =>
    { bundle with minify := minify },
  plain "template" (Tree.optional? Tree.path?) fun template bundle =>
    { bundle with template := template },
  list "inline" (MarkerRule.ofTree? dialect) fun rules bundle => { bundle with rules := rules },
  plain "script" (Tree.optional? Tree.path?) fun script bundle => { bundle with script := script },
  plain "style" (Tree.optional? Tree.path?) fun style bundle => { bundle with style := style },
  plain "app" (Tree.optional? Tree.path?) fun app bundle => { bundle with app := app },
  plain "title" (Tree.optional? Tree.text?) fun title bundle => { bundle with title := title }]

/-- A bundle read from a tree. -/
def ofTree? (dialect : Dialect) (trail : Trail) (tree : Tree) : Option (Reading Bundle) :=
  readRecord dialect (fields dialect) trail tree blank

end Bundle

namespace Config

def fields (dialect : Dialect) : List (RecordField Config) := [
  plain "strict_markers" Tree.boolean? fun strict config => { config with strictMarkers := strict },
  plain "minify" Tree.boolean? fun minify config => { config with minify := minify },
  list "bundle" (Bundle.ofTree? dialect) fun bundles config => { config with bundles := bundles }]

/-- A configuration read from a tree. Its root and its file are not written in it. -/
def ofTree? (dialect : Dialect) (tree : Tree) : Option (Reading Config) :=
  readRecord dialect (fields dialect) [] tree standard

end Config

end PageInliner
