import PageInliner.Text.Substitution

/-!
# Layout of a text with keys

The one walk over a text that decides which of its characters stay and which occurrences of keys give way
to values. The walk does not look at values, so it is stated for items of any kind that have a key; a
substitution shows each piece of the layout, and the places where an item is put in can be told from the
text alone.
-/

set_option autoImplicit false

namespace PageInliner.Text

/-- A piece of a text in which the keys of some items are looked for. -/
inductive Piece (α : Type) where
  | kept (c : Char)
  | replaced (item : α)
  deriving Repr, DecidableEq

section Layout

variable {α : Type} (key : α → List Char) (items : List α)

/-- What a piece stands for in the text. -/
def Piece.source : Piece α → List Char
  | kept c => [c]
  | replaced item => key item

/-- What a piece becomes. -/
def Piece.shown (value : α → List Char) : Piece α → List Char
  | kept c => [c]
  | replaced item => value item

/-- The first of the items whose key the text begins with. An empty key stands nowhere. -/
def standing? (text : List Char) : Option α :=
  items.find? fun item => !(key item).isEmpty && (key item).isPrefixOf text

/-- The layout of a text whose first `skip` characters belong to an occurrence before it. -/
def layoutFrom : (skip : Nat) → (text : List Char) → List (Piece α)
  | _, [] => []
  | skip + 1, _ :: text => layoutFrom skip text
  | 0, c :: text =>
    match standing? key items (c :: text) with
    | some item => .replaced item :: layoutFrom ((key item).length - 1) text
    | none => .kept c :: layoutFrom 0 text

/-- The pieces of a text from left to right. -/
def layout (text : List Char) : List (Piece α) :=
  layoutFrom key items 0 text

/-- The place behind so many characters lies inside an occurrence that gives way to an item, and not at
its start. -/
def Covered (text : List Char) (place : Nat) : Prop :=
  ∃ before item after, layout key items text = before ++ .replaced item :: after ∧
    (before.flatMap (Piece.source key)).length < place ∧
    place < (before.flatMap (Piece.source key)).length + (key item).length

variable {key items}

theorem standing?_eq_some {text : List Char} {item : α} (found : standing? key items text = some item) :
    item ∈ items ∧ key item ≠ [] ∧ ∃ rest, text = key item ++ rest := by
  have among := List.mem_of_find?_eq_some found
  have stands := List.find?_some found
  simp only [Bool.and_eq_true, Bool.not_eq_true', List.isEmpty_eq_false_iff,
    List.isPrefixOf_iff_prefix] at stands
  obtain ⟨nonempty, rest, whole⟩ := stands
  exact ⟨among, nonempty, rest, whole.symm⟩

private theorem layoutFrom_eq_layout_drop (skip : Nat) (text : List Char) :
    layoutFrom key items skip text = layout key items (text.drop skip) := by
  induction skip generalizing text with
  | zero => rfl
  | succ skip ih =>
    cases text with
    | nil => rfl
    | cons c text => simpa [layoutFrom] using ih text

theorem layout_nil : layout key items [] = [] := rfl

theorem layout_kept {c : Char} {text : List Char} (free : standing? key items (c :: text) = none) :
    layout key items (c :: text) = .kept c :: layout key items text := by
  simp only [layout, layoutFrom, free]

theorem layout_replaced {item : α} {rest : List Char}
    (found : standing? key items (key item ++ rest) = some item) :
    layout key items (key item ++ rest) = .replaced item :: layout key items rest := by
  obtain ⟨_, nonempty, _, _⟩ := standing?_eq_some found
  obtain ⟨c, more, spelled⟩ := List.exists_cons_of_ne_nil nonempty
  rw [spelled, List.cons_append] at found ⊢
  simp only [layout, layoutFrom, found]
  rw [layoutFrom_eq_layout_drop, spelled]
  simp [layout]

/-- A text is empty, begins with a character that stays, or begins with an occurrence that is replaced,
and the same is true of what follows. -/
theorem layout_induction (key : α → List Char) (items : List α) {motive : List Char → Prop} (nil : motive [])
    (kept : ∀ c text, standing? key items (c :: text) = none → motive text → motive (c :: text))
    (replaced : ∀ item rest, standing? key items (key item ++ rest) = some item → motive rest →
      motive (key item ++ rest))
    (text : List Char) : motive text := by
  cases text with
  | nil => exact nil
  | cons c text =>
    cases found : standing? key items (c :: text) with
    | none => exact kept c text found (layout_induction key items nil kept replaced text)
    | some item =>
      obtain ⟨_, nonempty, rest, whole⟩ := standing?_eq_some found
      have shorter : rest.length < text.length + 1 := by
        have sizes := congrArg List.length whole
        have positive := List.length_pos_iff.mpr nonempty
        simp only [List.length_cons, List.length_append] at sizes
        omega
      rw [whole] at found ⊢
      exact replaced item rest found (layout_induction key items nil kept replaced rest)
termination_by text.length

theorem layout_source (key : α → List Char) (items : List α) (text : List Char) :
    (layout key items text).flatMap (Piece.source key) = text := by
  induction text using layout_induction key items with
  | nil => rfl
  | kept c text free ih => simp [layout_kept free, Piece.source, ih]
  | replaced item rest found ih => simp [layout_replaced found, Piece.source, ih]

theorem mem_of_replaced_mem_layout {text : List Char} {item : α}
    (put : .replaced item ∈ layout key items text) : item ∈ items ∧ key item ≠ [] := by
  induction text using layout_induction key items with
  | nil => simp [layout_nil] at put
  | kept c text free ih =>
    rw [layout_kept free, List.mem_cons] at put
    rcases put with same | later
    · cases same
    · exact ih later
  | replaced other rest found ih =>
    rw [layout_replaced found, List.mem_cons] at put
    rcases put with same | later
    · cases same
      obtain ⟨among, nonempty, _⟩ := standing?_eq_some found
      exact ⟨among, nonempty⟩
    · exact ih later

/-- What follows the first piece is the layout of what follows it in the text; an item at the front is the
one that stands there. -/
theorem layout_eq_cons {text : List Char} {piece : Piece α} {after : List (Piece α)}
    (front : layout key items text = piece :: after) :
    ∃ rest, text = piece.source key ++ rest ∧ after = layout key items rest ∧
      ∀ item, piece = .replaced item → standing? key items text = some item := by
  induction text using layout_induction key items with
  | nil => cases front
  | kept c text free _ =>
    rw [layout_kept free] at front
    cases front
    exact ⟨text, rfl, rfl, nofun⟩
  | replaced item rest found _ =>
    rw [layout_replaced found] at front
    cases front
    refine ⟨rest, rfl, rfl, ?_⟩
    rintro _ ⟨⟩
    exact found

/-- A layout that is cut goes on as the layout of what is left of the text. -/
theorem layout_suffix {text : List Char} {before after : List (Piece α)}
    (cut : layout key items text = before ++ after) :
    after = layout key items (after.flatMap (Piece.source key)) := by
  induction before generalizing text with
  | nil =>
    rw [List.nil_append] at cut
    rw [← cut, layout_source]
  | cons piece before ih =>
    obtain ⟨rest, _, tail, _⟩ := layout_eq_cons cut
    exact ih tail.symm

/-- A place that no occurrence covers is a border between pieces. -/
theorem exists_layout_append {text : List Char} {place : Nat} (inside : place ≤ text.length)
    (free : ¬ Covered key items text place) :
    ∃ before, layout key items text = before ++ layout key items (text.drop place) ∧
      before.flatMap (Piece.source key) = text.take place := by
  induction text using layout_induction key items generalizing place with
  | nil => exact ⟨[], by simp [layout_nil], by simp⟩
  | kept c text stays ih =>
    cases place with
    | zero => exact ⟨[], rfl, rfl⟩
    | succ place =>
      have freeLater : ¬ Covered key items text place := by
        rintro ⟨before, item, after, cut, lower, upper⟩
        refine free ⟨.kept c :: before, item, after, by rw [layout_kept stays, cut]; rfl, ?_, ?_⟩ <;>
          simp only [List.flatMap_cons, Piece.source, List.length_append, List.length_singleton] <;> omega
      obtain ⟨before, cut, same⟩ := ih (by simpa using inside) freeLater
      exact ⟨.kept c :: before, by simp [layout_kept stays, cut], by simp [Piece.source, same]⟩
  | replaced item rest found ih =>
    rcases Nat.lt_or_ge place (key item).length with within | beyond
    · -- The border before the occurrence is the only one that its key does not cover.
      cases place with
      | zero => exact ⟨[], rfl, rfl⟩
      | succ place =>
        exact absurd ⟨[], item, layout key items rest, layout_replaced found, by simp, by simpa using within⟩
          free
    · obtain ⟨place, rfl⟩ := Nat.exists_eq_add_of_le beyond
      have freeLater : ¬ Covered key items rest place := by
        rintro ⟨before, other, after, cut, lower, upper⟩
        refine free ⟨.replaced item :: before, other, after,
          by rw [layout_replaced found, cut]; rfl, ?_, ?_⟩ <;>
          simp only [List.flatMap_cons, Piece.source, List.length_append] <;> omega
      have insideLater : place ≤ rest.length := by
        simp only [List.length_append] at inside
        omega
      obtain ⟨before, cut, same⟩ := ih insideLater freeLater
      refine ⟨.replaced item :: before, ?_, ?_⟩
      · simp [layout_replaced found, cut]
      · simp [Piece.source, same, List.take_length_add_append]

theorem not_covered_of_layout {text : List Char} {before after : List (Piece α)}
    (cut : layout key items text = before ++ after) :
    ¬ Covered key items text (before.flatMap (Piece.source key)).length := by
  rintro ⟨others, item, rest, otherCut, lower, upper⟩
  rw [cut] at otherCut
  rcases List.append_eq_append_iff.mp otherCut with ⟨more, rfl, _⟩ | ⟨more, rfl, tail⟩
  · simp only [List.flatMap_append, List.length_append] at lower
    omega
  · cases more with
    | nil => simp at lower
    | cons piece more =>
      rw [List.cons_append, List.cons.injEq] at tail
      obtain ⟨rfl, _⟩ := tail
      simp only [List.flatMap_append, List.flatMap_cons, Piece.source, List.length_append] at upper
      omega

private theorem place_inside {text : List Char} {place : Nat} {item : α}
    (found : standing? key items (text.drop place) = some item) : place ≤ text.length := by
  obtain ⟨_, nonempty, rest, tail⟩ := standing?_eq_some found
  have sizes := congrArg List.length tail
  have positive := List.length_pos_iff.mpr nonempty
  simp only [List.length_drop, List.length_append] at sizes
  omega

theorem exists_layout_replaced {text : List Char} {place : Nat} {item : α}
    (free : ¬ Covered key items text place)
    (found : standing? key items (text.drop place) = some item) :
    ∃ before after, layout key items text = before ++ .replaced item :: after ∧
      (before.flatMap (Piece.source key)).length = place := by
  have inside := place_inside found
  obtain ⟨_, _, rest, tail⟩ := standing?_eq_some found
  obtain ⟨before, cut, same⟩ := exists_layout_append inside free
  rw [tail] at found cut
  rw [layout_replaced found] at cut
  refine ⟨before, layout key items rest, cut, ?_⟩
  rw [same, List.length_take, Nat.min_eq_left inside]

theorem standing?_at_border {text : List Char} {item : α} {before after : List (Piece α)}
    (cut : layout key items text = before ++ .replaced item :: after) :
    standing? key items (text.drop (before.flatMap (Piece.source key)).length) = some item := by
  obtain ⟨_, _, _, stands⟩ := layout_eq_cons (layout_suffix cut).symm
  have whole := layout_source key items text
  rw [cut, List.flatMap_append] at whole
  rw [← whole, List.drop_left]
  exact stands item rfl

/-- An item is put in exactly where it stands at a place that no occurrence covers. -/
theorem replaced_mem_layout_iff {text : List Char} {item : α} :
    .replaced item ∈ layout key items text ↔
      ∃ place, ¬ Covered key items text place ∧
        standing? key items (text.drop place) = some item := by
  constructor
  · intro put
    obtain ⟨before, after, cut⟩ := List.append_of_mem put
    exact ⟨_, not_covered_of_layout cut, standing?_at_border cut⟩
  · rintro ⟨place, free, found⟩
    obtain ⟨before, after, cut, _⟩ := exists_layout_replaced free found
    simp [cut]

/-- Coverage goes from left to right: a place is covered by an item that stands at an earlier one which is
not covered itself. -/
theorem covered_iff {text : List Char} {place : Nat} :
    Covered key items text place ↔
      ∃ start item, start < place ∧ place < start + (key item).length ∧
        ¬ Covered key items text start ∧ standing? key items (text.drop start) = some item := by
  constructor
  · rintro ⟨before, item, after, cut, lower, upper⟩
    exact ⟨_, item, lower, upper, not_covered_of_layout cut, standing?_at_border cut⟩
  · rintro ⟨start, item, lower, upper, free, found⟩
    obtain ⟨before, after, cut, rfl⟩ := exists_layout_replaced free found
    exact ⟨before, item, after, cut, lower, upper⟩

/-- Two keys stand in a text at places where they share a character. -/
def Overlap (text first second : List Char) : Prop :=
  ∃ start other, first <+: text.drop start ∧ second <+: text.drop other ∧
    start < other + second.length ∧ other < start + first.length

/-- An item whose key occurs is put in, if no other item has a key that overlaps with it anywhere. -/
theorem replaced_mem_layout_of_apart {text : List Char} {item : α} (among : item ∈ items)
    (nonempty : key item ≠ []) {place : Nat} (stands : key item <+: text.drop place)
    (apart : ∀ other ∈ items, other ≠ item → ¬ Overlap text (key item) (key other)) :
    .replaced item ∈ layout key items text := by
  have positive := List.length_pos_iff.mpr nonempty
  -- Whatever is found to reach over the place can only be the item itself.
  have itself : ∀ {start other}, standing? key items (text.drop start) = some other →
      start ≤ place → place < start + (key other).length → other = item := by
    intro start other found lower upper
    obtain ⟨otherAmong, _, rest, tail⟩ := standing?_eq_some found
    apply Classical.byContradiction
    intro different
    exact apart other otherAmong different
      ⟨place, start, stands, ⟨rest, tail.symm⟩, by omega, by omega⟩
  by_cases covered : Covered key items text place
  · obtain ⟨start, other, lower, upper, free, found⟩ := covered_iff.mp covered
    obtain rfl := itself found (by omega) upper
    exact replaced_mem_layout_iff.mpr ⟨start, free, found⟩
  · have someStands : (standing? key items (text.drop place)).isSome = true := by
      rw [standing?, List.find?_isSome]
      exact ⟨item, among, by simp [nonempty, List.isPrefixOf_iff_prefix.mpr stands]⟩
    obtain ⟨other, found⟩ := Option.isSome_iff_exists.mp someStands
    obtain ⟨_, otherNonempty, _, _⟩ := standing?_eq_some found
    have otherPositive := List.length_pos_iff.mpr otherNonempty
    obtain rfl := itself found (by omega) (by omega)
    exact replaced_mem_layout_iff.mpr ⟨place, covered, found⟩

def bindingsOf (key value : α → List Char) (items : List α) : List Binding :=
  items.map fun item => ⟨key item, value item⟩

private theorem frontHit?_eq_standing? (key : α → List Char) (items : List α) (value : α → List Char)
    (text : List Char) :
    frontHit? (bindingsOf key value items) text =
      (standing? key items text).map fun item => ⟨[], value item, text.drop (key item).length⟩ := by
  induction items with
  | nil => rfl
  | cons item items ih =>
    simp only [bindingsOf, List.map_cons, frontHit?, standing?, List.find?_cons] at ih ⊢
    cases empty : (key item).isEmpty with
    | true => simpa using ih
    | false =>
      cases front : after? (key item) text with
      | some rest =>
        obtain rfl := eq_append_of_after? front
        have stands : (key item).isPrefixOf (key item ++ rest) = true := by simp
        simp [stands]
      | none =>
        have absent : (key item).isPrefixOf text = false := by
          rw [Bool.eq_false_iff]
          intro stands
          obtain ⟨rest, rfl⟩ := List.isPrefixOf_iff_prefix.mp stands
          rw [after?_append] at front
          cases front
        simpa [absent] using ih

private theorem replaceHits_of_none {bindings : List Binding} {text : List Char}
    (none : firstHit? bindings text = none) : replaceHits bindings text = text := by
  rw [replaceHits]
  split
  · rfl
  · simp_all

private theorem replaceHits_of_some {bindings : List Binding} {text : List Char} {hit : Hit}
    (found : firstHit? bindings text = some hit) :
    replaceHits bindings text = hit.before ++ hit.value ++ replaceHits bindings hit.after := by
  rw [replaceHits]
  split
  · simp_all
  · rename_i other otherFound
    rw [found] at otherFound
    cases otherFound
    rfl

private theorem replaceHits_kept {bindings : List Binding} {c : Char} {text : List Char}
    (free : frontHit? bindings (c :: text) = none) :
    replaceHits bindings (c :: text) = c :: replaceHits bindings text := by
  cases later : firstHit? bindings text with
  | none =>
    have noHit : firstHit? bindings (c :: text) = none := by simp [firstHit?, free, later]
    rw [replaceHits_of_none noHit, replaceHits_of_none later]
  | some hit =>
    have moved : firstHit? bindings (c :: text) = some { hit with before := c :: hit.before } := by
      simp [firstHit?, free, later]
    rw [replaceHits_of_some moved, replaceHits_of_some later]
    rfl

private theorem replaceHits_front {bindings : List Binding} {text : List Char} {hit : Hit}
    (found : frontHit? bindings text = some hit) :
    replaceHits bindings text = hit.value ++ replaceHits bindings hit.after := by
  obtain ⟨binding, _, nonempty, before, _, whole⟩ := exists_of_frontHit? found
  obtain ⟨c, more, spelled⟩ := List.exists_cons_of_ne_nil nonempty
  have first : firstHit? bindings text = some hit := by
    rw [whole, spelled, List.cons_append] at found ⊢
    simp only [firstHit?, found]
  rw [replaceHits_of_some first, before, List.nil_append]

/-- Substitution shows every piece of the layout: nothing but the occurrences in it is replaced, and no
value is looked at again. -/
theorem replaceHits_eq_layout (value : α → List Char) (text : List Char) :
    replaceHits (bindingsOf key value items) text =
      (layout key items text).flatMap (Piece.shown value) := by
  induction text using layout_induction key items with
  | nil => simp [replaceHits, firstHit?, layout_nil]
  | kept c text free ih =>
    have noHit : frontHit? (bindingsOf key value items) (c :: text) = none := by
      rw [frontHit?_eq_standing?, free, Option.map_none]
    rw [replaceHits_kept noHit, ih, layout_kept free]
    simp [Piece.shown]
  | replaced item rest found ih =>
    have hit := frontHit?_eq_standing? key items value (key item ++ rest)
    rw [found, Option.map_some, List.drop_left] at hit
    rw [replaceHits_front hit, ih, layout_replaced found]
    simp [Piece.shown]

end Layout

end PageInliner.Text
