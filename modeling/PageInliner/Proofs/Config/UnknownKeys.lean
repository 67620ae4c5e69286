import Mathlib.Data.List.Perm.Basic
import PageInliner.Config.Reading
import PageInliner.Toml.Document

/-!
# Keys that are passed over

A configuration is read by the keys of its tables. Keys that are not fields may be added to any of its records:
what is read stays the same, and each of them is noted, whatever stands behind it.
-/

set_option autoImplicit false

namespace PageInliner

/-- How a tree may grow in its place, and the trails of the keys that are added. -/
abbrev Growth := Trail → Tree → Tree → List Trail → Prop

namespace Growth

def Same : Growth :=
  fun _ old new added => new = old ∧ added = []

/-- The entries of a record grow: the value of a field may grow within, and a key may be added that is not the name
of one. -/
inductive Entries (known : List String) (inner : String → Growth) (trail : Trail) :
    List (String × Tree) → List (String × Tree) → List Trail → Prop where
  | nil : Entries known inner trail [] [] []
  | field {key old new entries grown former latter} :
      key ∈ known → inner key (trail ++ [key]) old new former → Entries known inner trail entries grown latter →
      Entries known inner trail ((key, old) :: entries) ((key, new) :: grown) (former ++ latter)
  | other {key tree entries grown added} :
      key ∉ known → Entries known inner trail entries grown added →
      Entries known inner trail ((key, tree) :: entries) ((key, tree) :: grown) added
  | added (key tree) {entries grown added} :
      key ∉ known → Entries known inner trail entries grown added →
      Entries known inner trail entries ((key, tree) :: grown) ((trail ++ [key]) :: added)

/-- Values in a row for fields of these names grow within. -/
inductive Row (inner : String → Growth) (trail : Trail) :
    Nat → List String → List Tree → List Tree → List Trail → Prop where
  | rest {index known items} : Row inner trail index known items items []
  | item {index key known old new items grown former latter} :
      inner key (trail ++ [toString index]) old new former →
      Row inner trail (index + 1) known items grown latter →
      Row inner trail index (key :: known) (old :: items) (new :: grown) (former ++ latter)

/-- A record grows, whichever way it is written. -/
inductive Record (known : List String) (inner : String → Growth) (trail : Trail) :
    Tree → Tree → List Trail → Prop where
  | same (tree) : Record known inner trail tree tree []
  | table {entries grown added} : Entries known inner trail entries grown added →
      Record known inner trail (.table entries) (.table grown) added
  | row {items grown added} : Row inner trail 0 known items grown added →
      Record known inner trail (.list items) (.list grown) added

/-- The items of a list grow, counted from an index on. -/
inductive Items (growth : Growth) (trail : Trail) : Nat → List Tree → List Tree → List Trail → Prop where
  | nil {index} : Items growth trail index [] [] []
  | cons {index old new items grown former latter} :
      growth (trail ++ [toString index]) old new former → Items growth trail (index + 1) items grown latter →
      Items growth trail index (old :: items) (new :: grown) (former ++ latter)

inductive Each (growth : Growth) (trail : Trail) : Tree → Tree → List Trail → Prop where
  | items {items grown added} : Items growth trail 0 items grown added →
      Each growth trail (.list items) (.list grown) added

/-- Of all fields only this one grows. -/
inductive Only (name : String) (growth : Growth) : String → Trail → Tree → Tree → List Trail → Prop where
  | same {key trail tree} : Only name growth key trail tree tree []
  | grown {trail old new added} : growth trail old new added → Only name growth name trail old new added

end Growth

def MarkerRule.keys : List String :=
  ["kind", "marker", "path"]

def MarkerRule.Grown : Growth :=
  .Record MarkerRule.keys fun _ => .Same

def Bundle.keys : List String :=
  ["name", "strategy", "root", "output", "minify", "template", "inline", "script", "style", "app", "title"]

def Bundle.Grown : Growth :=
  .Record Bundle.keys (.Only "inline" (.Each MarkerRule.Grown))

def Config.keys : List String :=
  ["strict_markers", "minify", "bundle"]

/-- A configuration grows by keys that are not fields: of its own, of its bundles or of their rules. -/
def Config.Grown : Growth :=
  .Record Config.keys (.Only "bundle" (.Each Bundle.Grown))

/-! ## Trees in which all keys are known -/

namespace Tree

/-- The keys of a record are among these, and what stands behind them is as it should be. A moment is read as a table
with a key of its own, which is no field. -/
def Within (known : List String) (inner : String → Tree → Prop) : Tree → Prop
  | table entries => ∀ entry ∈ entries, entry.1 ∈ known ∧ inner entry.1 entry.2
  | list items => ∀ entry ∈ known.zip items, inner entry.1 entry.2
  | moment => False
  | _ => True

def EachItem (holds : Tree → Prop) : Tree → Prop
  | list items => ∀ item ∈ items, holds item
  | _ => True

/-- Of all fields only this one is looked into. -/
def Behind (name : String) (holds : Tree → Prop) (key : String) (tree : Tree) : Prop :=
  key = name → tree.EachItem holds

theorem behind_self (name : String) (holds : Tree → Prop) : Behind name holds name = EachItem holds := by
  funext tree
  simp [Behind]

theorem behind_of_ne {name key : String} (other : key ≠ name) (holds : Tree → Prop) :
    Behind name holds key = fun _ => True := by
  funext tree
  simp [Behind, other]

end Tree

def MarkerRule.KeysKnown (tree : Tree) : Prop :=
  tree.Within keys fun _ _ => True

def Bundle.KeysKnown (tree : Tree) : Prop :=
  tree.Within keys (Tree.Behind "inline" MarkerRule.KeysKnown)

/-- The configuration, its bundles and their rules have no keys that are not fields. -/
def Config.KeysKnown (tree : Tree) : Prop :=
  tree.Within keys (Tree.Behind "bundle" Bundle.KeysKnown)

/-! ## Growing trees are read alike -/

/-- The same value has been read, with these keys passed over besides. -/
def Reading.Gains {α : Type} (reading : Reading α) (added : List Trail) (answer : Option (Reading α)) : Prop :=
  ∃ ignored, answer = some ⟨reading.value, ignored⟩ ∧ ignored.Perm (reading.ignored ++ added)

/-- However the tree grows, the same is read from it. -/
def Growth.AbsorbedBy {α : Type} (growth : Growth) (read? : Trail → Tree → Option (Reading α)) : Prop :=
  ∀ trail old new added reading, growth trail old new added → read? trail old = some reading →
    reading.Gains added (read? trail new)

namespace Reading

variable {α β : Type}

theorem gains_nil (reading : Reading α) : reading.Gains [] (some reading) :=
  ⟨reading.ignored, rfl, by simp⟩

theorem Gains.perm_append {first second third fourth : List Trail} :
    ((first ++ second) ++ (third ++ fourth)).Perm ((first ++ third) ++ (second ++ fourth)) := by
  simp only [List.perm_iff_count, List.count_append]
  omega

/-- What two readers note one after the other grows by what each of them notes besides. -/
theorem Gains.bind {former : Reading α} {latter : Reading β} {ahead behind : List Trail}
    {answer : Option (Reading α)} (combine : α → β → β) (next : α → Option (Reading β))
    (first : former.Gains ahead answer) (second : latter.Gains behind (next former.value)) :
    Reading.Gains ⟨combine former.value latter.value, former.ignored ++ latter.ignored⟩ (ahead ++ behind)
      (do
        let former ← answer
        let latter ← next former.value
        return ⟨combine former.value latter.value, former.ignored ++ latter.ignored⟩) := by
  obtain ⟨early, rfl, permEarly⟩ := first
  obtain ⟨late, made, permLate⟩ := second
  refine ⟨early ++ late, by simp [made], ?_⟩
  exact (permEarly.append permLate).trans perm_append

end Reading

namespace RecordField

variable {α β : Type} {dialect : Dialect} {fields : List (RecordField α)} {inner : String → Growth}
  {trail : Trail}

@[simp] theorem plain_name {name : String} {read? : Tree → Option β} {set : β → α → α} :
    (plain name read? set).name = name := rfl

@[simp] theorem list_name {name : String} {read? : Trail → Tree → Option (Reading β)} {set : List β → α → α} :
    (list name read? set).name = name := rfl

theorem find?_eq_none_iff {key : String} :
    fields.find? (·.name = key) = none ↔ key ∉ fields.map RecordField.name := by
  simp [List.find?_eq_none]

theorem readEntries_gains {entries grown : List (String × Tree)} {added : List Trail} {record : α}
    {reading : Reading α}
    (absorbed : ∀ field ∈ fields, ∀ record, (inner field.name).AbsorbedBy (field.read? · · record))
    (grows : Growth.Entries (fields.map RecordField.name) inner trail entries grown added)
    (read : readEntries fields trail entries record = some reading) :
    reading.Gains added (readEntries fields trail grown record) := by
  induction grows generalizing record reading with
  | nil => exact read ▸ reading.gains_nil
  | @field key old new entries grown former latter known within _ ih =>
    cases found : fields.find? (·.name = key) with
    | none => exact absurd known (find?_eq_none_iff.mp found)
    | some field =>
      obtain rfl : field.name = key := by simpa using List.find?_some found
      simp only [readEntries, found] at read ⊢
      simp only [bind, Option.bind_eq_some_iff] at read
      obtain ⟨first, readFirst, second, readSecond, made⟩ := read
      cases made
      have member := List.mem_of_find?_eq_some found
      exact (absorbed field member record _ _ _ _ _ within readFirst).bind (fun _ value => value) _ (ih readSecond)
  | @other key tree entries grown added unknown _ ih =>
    simp only [readEntries, find?_eq_none_iff.mpr unknown, Option.map_eq_some_iff] at read ⊢
    obtain ⟨rest, readRest, rfl⟩ := read
    obtain ⟨ignored, made, perm⟩ := ih readRest
    exact ⟨_, by rw [made]; rfl, perm.cons _⟩
  | added key tree unknown _ ih =>
    obtain ⟨ignored, made, perm⟩ := ih read
    simp only [readEntries, find?_eq_none_iff.mpr unknown, made]
    exact ⟨_, rfl, (perm.cons _).trans List.perm_middle.symm⟩

theorem readRow_gains {index : Nat} {items grown : List Tree} {added : List Trail} {record : α}
    {reading : Reading α}
    (absorbed : ∀ field ∈ fields, ∀ record, (inner field.name).AbsorbedBy (field.read? · · record))
    (grows : Growth.Row inner trail index (fields.map RecordField.name) items grown added)
    (read : readRow dialect trail index fields items record = some reading) :
    reading.Gains added (readRow dialect trail index fields grown record) := by
  induction fields generalizing index items grown added record reading with
  | nil =>
    cases grows
    exact read ▸ reading.gains_nil
  | cons field fields ih =>
    cases grows with
    | rest => exact read ▸ reading.gains_nil
    | item within rest =>
      rw [List.forall_mem_cons] at absorbed
      simp only [readRow, bind, Option.bind_eq_some_iff] at read
      obtain ⟨first, readFirst, second, readSecond, made⟩ := read
      cases made
      exact (absorbed.1 record _ _ _ _ _ within readFirst).bind (fun _ value => value) _
        (ih absorbed.2 rest readSecond)

theorem readRecord_absorbs (inner : String → Growth) {record : α} {known : List String}
    (named : fields.map RecordField.name = known)
    (absorbed : ∀ field ∈ fields, ∀ record, (inner field.name).AbsorbedBy (field.read? · · record)) :
    Growth.AbsorbedBy (.Record known inner) (readRecord dialect fields · · record) := by
  subst named
  intro trail old new added reading grows read
  cases grows with
  | same => exact read ▸ reading.gains_nil
  | table grows => exact readEntries_gains absorbed grows read
  | row grows => exact readRow_gains absorbed grows read

theorem readItems_gains {growth : Growth} {read? : Trail → Tree → Option (Reading β)} {index : Nat}
    {items grown : List Tree} {added : List Trail} {reading : Reading (List β)}
    (absorbed : growth.AbsorbedBy read?) (grows : growth.Items trail index items grown added)
    (read : readItems read? trail index items = some reading) :
    reading.Gains added (readItems read? trail index grown) := by
  induction grows generalizing reading with
  | nil => exact read ▸ reading.gains_nil
  | cons within _ ih =>
    simp only [readItems, bind, Option.bind_eq_some_iff] at read
    obtain ⟨first, readFirst, second, readSecond, made⟩ := read
    cases made
    exact (absorbed _ _ _ _ _ within readFirst).bind List.cons (fun _ => _) (ih readSecond)

theorem list_absorbs {growth : Growth} {name : String} {read? : Trail → Tree → Option (Reading β)}
    {set : List β → α → α} (absorbed : growth.AbsorbedBy read?) (record : α) :
    Growth.AbsorbedBy growth.Each ((list name read? set).read? · · record) := by
  intro trail old new added reading grows read
  cases grows with
  | items grows =>
    simp only [list, Option.map_eq_some_iff] at read ⊢
    obtain ⟨values, readValues, rfl⟩ := read
    obtain ⟨ignored, made, perm⟩ := readItems_gains absorbed grows readValues
    exact ⟨ignored, by rw [made]; rfl, perm⟩

theorem same_absorbed (read? : Trail → Tree → Option (Reading β)) : Growth.Same.AbsorbedBy read? := by
  intro trail old new added reading grows read
  obtain ⟨rfl, rfl⟩ := grows
  exact read ▸ reading.gains_nil

/-- It is enough to look at the field that grows. -/
theorem absorbed_of_only {name : String} {growth : Growth}
    (absorbed : ∀ field ∈ fields, field.name = name → ∀ record, growth.AbsorbedBy (field.read? · · record)) :
    ∀ field ∈ fields, ∀ record, Growth.AbsorbedBy (.Only name growth field.name) (field.read? · · record) := by
  intro field member record trail old new added reading grows read
  generalize named : field.name = key at grows
  cases grows with
  | same => exact read ▸ reading.gains_nil
  | grown grows => exact absorbed field member named record _ _ _ _ _ grows read

end RecordField

/-! ## What is noted -/

/-- Something is noted just when there is a key that is not known. -/
def Tells {α : Type} (known : Tree → Prop) (read? : Trail → Tree → Option (Reading α)) : Prop :=
  ∀ trail tree reading, read? trail tree = some reading → (reading.ignored = [] ↔ known tree)

namespace RecordField

variable {α β : Type} {dialect : Dialect} {fields : List (RecordField α)} {inner : String → Tree → Prop}
  {trail : Trail}

theorem readEntries_tells {entries : List (String × Tree)} {record : α} {reading : Reading α}
    (told : ∀ field ∈ fields, ∀ record, Tells (inner field.name) (field.read? · · record))
    (read : readEntries fields trail entries record = some reading) :
    reading.ignored = [] ↔ ∀ entry ∈ entries, entry.1 ∈ fields.map RecordField.name ∧ inner entry.1 entry.2 := by
  induction entries generalizing record reading with
  | nil => cases read; simp
  | cons entry entries ih =>
    obtain ⟨key, tree⟩ := entry
    rw [List.forall_mem_cons]
    cases found : fields.find? (·.name = key) with
    | none =>
      simp only [readEntries, found, Option.map_eq_some_iff] at read
      obtain ⟨rest, -, rfl⟩ := read
      simp [find?_eq_none_iff.mp found]
    | some field =>
      obtain rfl : field.name = key := by simpa using List.find?_some found
      have member := List.mem_of_find?_eq_some found
      simp only [readEntries, found, bind, Option.bind_eq_some_iff] at read
      obtain ⟨first, readFirst, second, readSecond, made⟩ := read
      cases made
      rw [List.append_eq_nil_iff, told field member record _ _ _ readFirst, ih readSecond]
      simp [List.mem_map_of_mem member]

theorem readRow_tells {index : Nat} {items : List Tree} {record : α} {reading : Reading α}
    (told : ∀ field ∈ fields, ∀ record, Tells (inner field.name) (field.read? · · record))
    (read : readRow dialect trail index fields items record = some reading) :
    reading.ignored = [] ↔ ∀ entry ∈ (fields.map RecordField.name).zip items, inner entry.1 entry.2 := by
  induction fields generalizing index items record reading with
  | nil =>
    have quiet : reading.ignored = [] := by
      cases items with
      | nil => cases read; rfl
      | cons item items =>
        obtain ⟨-, rfl⟩ : dialect.toleratesSurplus = true ∧ ⟨record, []⟩ = reading := by simpa [readRow] using read
        rfl
    simp [quiet]
  | cons field fields ih =>
    cases items with
    | nil => cases read; simp
    | cons item items =>
      rw [List.forall_mem_cons] at told
      simp only [readRow, bind, Option.bind_eq_some_iff] at read
      obtain ⟨first, readFirst, second, readSecond, made⟩ := read
      cases made
      rw [List.append_eq_nil_iff, told.1 record _ _ _ readFirst, ih told.2 readSecond, List.map_cons,
        List.zip_cons_cons, List.forall_mem_cons]

theorem readRecord_tells (inner : String → Tree → Prop) {record : α} {known : List String}
    (named : fields.map RecordField.name = known)
    (noMoment : "$__toml_private_datetime" ∉ known)
    (told : ∀ field ∈ fields, ∀ record, Tells (inner field.name) (field.read? · · record)) :
    Tells (Tree.Within known inner) (readRecord dialect fields · · record) := by
  subst named
  intro trail tree reading read
  cases tree with
  | list items => exact readRow_tells told read
  | table entries => exact readEntries_tells told read
  | moment =>
    rw [readEntries_tells told read, List.forall_mem_singleton]
    simp only [noMoment, false_and, Tree.Within]
  | _ => cases read

theorem readItems_tells {known : Tree → Prop} {read? : Trail → Tree → Option (Reading β)} {index : Nat}
    {items : List Tree} {reading : Reading (List β)} (told : Tells known read?)
    (read : readItems read? trail index items = some reading) :
    reading.ignored = [] ↔ ∀ item ∈ items, known item := by
  induction items generalizing index reading with
  | nil => cases read; simp
  | cons item items ih =>
    simp only [readItems, bind, Option.bind_eq_some_iff] at read
    obtain ⟨first, readFirst, second, readSecond, made⟩ := read
    cases made
    rw [List.append_eq_nil_iff, told _ _ _ readFirst, ih readSecond, List.forall_mem_cons]

theorem list_tells {known : Tree → Prop} {name : String} {read? : Trail → Tree → Option (Reading β)}
    {set : List β → α → α} (told : Tells known read?) (record : α) :
    Tells (Tree.EachItem known) ((list name read? set).read? · · record) := by
  intro trail tree reading read
  cases tree with
  | list items =>
    simp only [list, Option.map_eq_some_iff] at read
    obtain ⟨values, readValues, rfl⟩ := read
    exact readItems_tells told readValues
  | _ => cases read

@[simp] theorem plain_tells {name : String} {read? : Tree → Option β} {set : β → α → α} {record : α} :
    Tells (fun _ => True) ((plain name read? set).read? · · record) := by
  intro trail tree reading read
  simp only [plain, Option.map_eq_some_iff] at read
  obtain ⟨value, -, rfl⟩ := read
  simp

end RecordField

open RecordField

theorem MarkerRule.names_fields (dialect : Dialect) : (fields dialect).map RecordField.name = keys := rfl

theorem Bundle.names_fields (dialect : Dialect) : (fields dialect).map RecordField.name = keys := rfl

theorem Config.names_fields (dialect : Dialect) : (fields dialect).map RecordField.name = keys := rfl

theorem MarkerRule.grown_absorbed (dialect : Dialect) : MarkerRule.Grown.AbsorbedBy (ofTree? dialect) := by
  intro trail old new added reading grows read
  simp only [ofTree?, bind, Option.bind_eq_some_iff] at read
  obtain ⟨record, readRule, kind, hasKind, marker, hasMarker, path, hasPath, made⟩ := read
  cases made
  have absorbed : MarkerRule.Grown.AbsorbedBy (readRecord dialect (fields dialect) · · ⟨none, none, none⟩) :=
    readRecord_absorbs (fun _ => .Same) (names_fields dialect) fun _ _ _ => same_absorbed _
  obtain ⟨ignored, made, perm⟩ := absorbed _ _ _ _ _ grows readRule
  exact ⟨ignored, by simp [ofTree?, made, hasKind, hasMarker, hasPath], perm⟩

theorem Bundle.grown_absorbed (dialect : Dialect) : Bundle.Grown.AbsorbedBy (ofTree? dialect) := by
  have absorbed : ∀ field ∈ fields dialect, field.name = "inline" → ∀ record,
      Growth.AbsorbedBy MarkerRule.Grown.Each (field.read? · · record) := by
    have inline : ∀ {set : List MarkerRule → Bundle → Bundle} (record : Bundle), Growth.AbsorbedBy
        MarkerRule.Grown.Each ((list "inline" (MarkerRule.ofTree? dialect) set).read? · · record) :=
      list_absorbs (MarkerRule.grown_absorbed dialect)
    simpa [fields] using inline
  exact readRecord_absorbs _ (names_fields dialect) (absorbed_of_only absorbed)

theorem Config.grown_absorbed (dialect : Dialect) :
    Config.Grown.AbsorbedBy (readRecord dialect (fields dialect) · · standard) := by
  have absorbed : ∀ field ∈ fields dialect, field.name = "bundle" → ∀ record,
      Growth.AbsorbedBy Bundle.Grown.Each (field.read? · · record) := by
    have bundle : ∀ {set : List Bundle → Config → Config} (record : Config), Growth.AbsorbedBy
        Bundle.Grown.Each ((list "bundle" (Bundle.ofTree? dialect) set).read? · · record) :=
      list_absorbs (Bundle.grown_absorbed dialect)
    simpa [fields] using bundle
  exact readRecord_absorbs _ (names_fields dialect) (absorbed_of_only absorbed)

theorem MarkerRule.keys_told (dialect : Dialect) : Tells KeysKnown (ofTree? dialect) := by
  intro trail tree reading read
  simp only [ofTree?, bind, Option.bind_eq_some_iff] at read
  obtain ⟨record, readRule, kind, -, marker, -, path, -, made⟩ := read
  cases made
  have told : ∀ field ∈ fields dialect, ∀ record, Tells (fun _ => True) (field.read? · · record) := by
    simp [fields]
  exact readRecord_tells (fun _ _ => True) (names_fields dialect) (by decide) told _ _ _ readRule

theorem Bundle.keys_told (dialect : Dialect) : Tells KeysKnown (ofTree? dialect) := by
  have told : ∀ field ∈ fields dialect, ∀ record,
      Tells (Tree.Behind "inline" MarkerRule.KeysKnown field.name) (field.read? · · record) := by
    have inline : ∀ {set : List MarkerRule → Bundle → Bundle} (record : Bundle), Tells
        (Tree.EachItem MarkerRule.KeysKnown) ((list "inline" (MarkerRule.ofTree? dialect) set).read? · · record) :=
      list_tells (MarkerRule.keys_told dialect)
    simpa [fields, Tree.behind_self, Tree.behind_of_ne] using inline
  exact readRecord_tells _ (names_fields dialect) (by decide) told

theorem Config.keys_told (dialect : Dialect) :
    Tells KeysKnown (readRecord dialect (fields dialect) · · standard) := by
  have told : ∀ field ∈ fields dialect, ∀ record,
      Tells (Tree.Behind "bundle" Bundle.KeysKnown field.name) (field.read? · · record) := by
    have bundle : ∀ {set : List Bundle → Config → Config} (record : Config), Tells
        (Tree.EachItem Bundle.KeysKnown) ((list "bundle" (Bundle.ofTree? dialect) set).read? · · record) :=
      list_tells (Bundle.keys_told dialect)
    simpa [fields, Tree.behind_self, Tree.behind_of_ne] using bundle
  exact readRecord_tells _ (names_fields dialect) (by decide) told

namespace Config

/-- Adding keys that are not fields changes nothing but what is noted, which gains the place of each of them. Nothing
at all is noted just when every key is known and no moment stands where a bundle should. -/
theorem unknown_keys_inert {dialect : Dialect} {tree grown : Tree} {added : List Trail} {reading : Reading Config}
    (read : ofTree? dialect tree = some reading) (grows : Grown [] tree grown added) :
    (∃ ignored, ofTree? dialect grown = some ⟨reading.value, ignored⟩ ∧ ignored.Perm (reading.ignored ++ added) ∧
      (ignored.map Trail.text).Perm (reading.ignored.map Trail.text ++ added.map Trail.text)) ∧
    (reading.ignored = [] ↔ KeysKnown tree) := by
  obtain ⟨ignored, made, perm⟩ := grown_absorbed dialect _ _ _ _ _ grows read
  refine ⟨⟨ignored, made, perm, ?_⟩, keys_told dialect _ _ _ read⟩
  rw [← List.map_append]
  exact perm.map Trail.text

theorem unknown_keys_inert_everywhere : ∃ tree grown added reading,
    tree = .table [("bundle", .list [.table [], .table [("inline", .list [.table [
      ("kind", .text "style"), ("marker", .text "M"), ("path", .text "m.css")]])]])] ∧
    grown = .table [("root", .text "web"), ("bundle", .list [.table [], .table [("inline", .list [.table [
      ("kind", .text "style"), ("marker", .text "M"), ("path", .text "m.css"), ("key", .table [("kind", .null)])]]),
      ("note", .list [])]]), ("config_path", .number)] ∧
    added = [["root"], ["bundle", "1", "inline", "0", "key"], ["bundle", "1", "note"], ["config_path"]] ∧
    Grown [] tree grown added ∧ ofTree? .toml tree = some reading ∧
    ∃ ignored, ofTree? .toml grown = some ⟨reading.value, ignored⟩ ∧ ignored.Perm added ∧
      (ignored.map Trail.text).Perm ["root", "bundle.1.inline.0.key", "bundle.1.note", "config_path"] := by
  have rule : MarkerRule.Grown ["bundle", "1", "inline", "0"]
      (.table [("kind", .text "style"), ("marker", .text "M"), ("path", .text "m.css")])
      (.table [("kind", .text "style"), ("marker", .text "M"), ("path", .text "m.css"),
        ("key", .table [("kind", .null)])]) _ :=
    .table (.field (by decide) ⟨rfl, rfl⟩ (.field (by decide) ⟨rfl, rfl⟩ (.field (by decide) ⟨rfl, rfl⟩
      (.added _ _ (by decide) .nil))))
  have bundle : Bundle.Grown ["bundle", "1"] _ _ _ :=
    .table (.field (by decide) (.grown (.items (.cons rule .nil))) (.added "note" (.list []) (by decide) .nil))
  have grows : Grown [] _ _ _ :=
    .table (.added "root" (.text "web") (by decide) (.field (by decide)
      (.grown (.items (.cons (.same (.table [])) (.cons bundle .nil))))
      (.added "config_path" .number (by decide) .nil)))
  exact ⟨_, _, _, _, rfl, rfl, rfl, grows, rfl, (unknown_keys_inert rfl grows).1⟩

/-- A moment in the place of a bundle is a bundle of which nothing is said, and it is noted though no key is written
that is not known. -/
theorem moment_noted : ∃ reading,
    Toml.parse? "bundle = [1979-05-27]" = some (.table [("bundle", .list [.moment])]) ∧ "bundle" ∈ keys ∧
      ofTree? .toml (.table [("bundle", .list [.moment])]) = some reading ∧
      reading.ignored = [["bundle", "0", "$__toml_private_datetime"]] :=
  ⟨_, rfl, by decide, rfl, rfl⟩

end Config

end PageInliner
