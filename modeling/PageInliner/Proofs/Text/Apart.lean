import PageInliner.Proofs.Text.Layout

/-!
# Keys that stand apart

Where no two occurrences of keys share a character, nothing can reach over an occurrence and no two items
claim one place. The layout of the text then replaces every occurrence there is, and it depends on the
occurrences alone: not on the order of the items, nor on those that do not occur.
-/

set_option autoImplicit false

namespace PageInliner.Text

section Apart

variable {α : Type} (key : α → List Char) (items : List α) (text : List Char)

/-- The key of an item stands at a place of the text. An empty key stands nowhere. -/
structure StandsAt (place : Nat) (item : α) : Prop where
  among : item ∈ items
  nonempty : key item ≠ []
  stands : key item <+: text.drop place

/-- The occurrence of an item at a place shares no character of the text with any other occurrence. -/
def StandsAlone (place : Nat) (item : α) : Prop :=
  ∀ other another, StandsAt key items text other another → (place, item) ≠ (other, another) →
    place + (key item).length ≤ other ∨ other + (key another).length ≤ place

/-- Any two different occurrences of keys, of one item or of two, are disjoint. An item that is listed twice
is one item. -/
def Apart : Prop :=
  ∀ place item, StandsAt key items text place item → StandsAlone key items text place item

variable {key items text}

theorem standsAt_of_standing? {place : Nat} {item : α}
    (found : standing? key items (text.drop place) = some item) : StandsAt key items text place item := by
  obtain ⟨among, nonempty, rest, tail⟩ := standing?_eq_some found
  exact ⟨among, nonempty, rest, tail.symm⟩

theorem StandsAt.length_pos {place : Nat} {item : α} (here : StandsAt key items text place item) :
    0 < (key item).length :=
  List.length_pos_iff.mpr here.nonempty

theorem StandsAt.lt_length {place : Nat} {item : α} (here : StandsAt key items text place item) :
    place < text.length := by
  have fits := here.stands.length_le
  have positive := here.length_pos
  rw [List.length_drop] at fits
  omega

instance [DecidableEq α] (place : Nat) (item : α) : Decidable (StandsAt key items text place item) :=
  decidable_of_iff (item ∈ items ∧ key item ≠ [] ∧ key item <+: text.drop place)
    ⟨fun ⟨among, nonempty, stands⟩ => ⟨among, nonempty, stands⟩,
      fun here => ⟨here.among, here.nonempty, here.stands⟩⟩

instance [DecidableEq α] (place : Nat) (item : α) : Decidable (StandsAlone key items text place item) :=
  decidable_of_iff
    (∀ other < text.length, ∀ another ∈ items, StandsAt key items text other another →
      (place, item) ≠ (other, another) →
      place + (key item).length ≤ other ∨ other + (key another).length ≤ place)
    ⟨fun checked other another there => checked other there.lt_length another there.among there,
      fun alone other _ another _ => alone other another⟩

instance [DecidableEq α] : Decidable (Apart key items text) :=
  decidable_of_iff
    (∀ place < text.length, ∀ item ∈ items, StandsAt key items text place item →
      StandsAlone key items text place item)
    ⟨fun checked place item here => checked place here.lt_length item here.among here,
      fun apart place _ item _ => apart place item⟩

/-- Only one item can be found at a place, so it does not matter which is looked for first. -/
theorem Apart.standing?_eq_some_iff (apart : Apart key items text) {place : Nat} {item : α} :
    standing? key items (text.drop place) = some item ↔ StandsAt key items text place item := by
  constructor
  · exact standsAt_of_standing?
  · intro here
    have someStands : (standing? key items (text.drop place)).isSome = true := by
      rw [standing?, List.find?_isSome]
      exact ⟨item, here.among, by simp [here.nonempty, List.isPrefixOf_iff_prefix.mpr here.stands]⟩
    obtain ⟨other, found⟩ := Option.isSome_iff_exists.mp someStands
    have there := standsAt_of_standing? found
    by_cases same : other = item
    · rw [found, same]
    · have disjoint := apart place other there place item here fun pairs => same (Prod.mk.inj pairs).2
      have positive := here.length_pos
      have otherPositive := there.length_pos
      omega

theorem Apart.not_covered (apart : Apart key items text) {place : Nat} {item : α}
    (here : StandsAt key items text place item) : ¬ Covered key items text place := by
  intro covered
  obtain ⟨start, other, lower, upper, _, found⟩ := covered_iff.mp covered
  have different : (start, other) ≠ (place, item) := by
    intro same
    have places := (Prod.mk.inj same).1
    omega
  have disjoint := apart start other (standsAt_of_standing? found) place item here different
  have positive := here.length_pos
  omega

/-- The occurrences are the pieces that are replaced, each at its own place. -/
theorem Apart.standsAt_iff (apart : Apart key items text) {place : Nat} {item : α} :
    StandsAt key items text place item ↔
      ∃ before after, layout key items text = before ++ .replaced item :: after ∧
        (before.flatMap (Piece.source key)).length = place := by
  constructor
  · intro here
    exact exists_layout_replaced (apart.not_covered here) (apart.standing?_eq_some_iff.mpr here)
  · rintro ⟨before, after, cut, rfl⟩
    exact standsAt_of_standing? (standing?_at_border cut)

theorem Apart.free_of_kept (apart : Apart key items text) {before after : List (Piece α)} {c : Char}
    (cut : layout key items text = before ++ .kept c :: after) {start : Nat} {item : α}
    (here : StandsAt key items text start item) :
    (before.flatMap (Piece.source key)).length < start ∨
      start + (key item).length ≤ (before.flatMap (Piece.source key)).length := by
  obtain ⟨others, rest, otherCut, rfl⟩ := apart.standsAt_iff.mp here
  rw [cut] at otherCut
  rcases List.append_eq_append_iff.mp otherCut with ⟨more, rfl, tail⟩ | ⟨more, rfl, tail⟩
  · cases more with
    | nil => simp at tail
    | cons piece more =>
      obtain ⟨rfl, _⟩ := List.cons.inj tail
      left
      simp only [List.flatMap_append, List.flatMap_cons, Piece.source, List.length_append,
        List.length_singleton]
      omega
  · cases more with
    | nil => simp at tail
    | cons piece more =>
      obtain ⟨rfl, _⟩ := List.cons.inj tail
      right
      simp only [List.flatMap_append, List.flatMap_cons, Piece.source, List.length_append]
      omega

theorem layout_congr {others : List α}
    (same : ∀ place, standing? key others (text.drop place) = standing? key items (text.drop place)) :
    layout key others text = layout key items text := by
  induction text using layout_induction key items with
  | nil => rfl
  | kept c text free ih =>
    have otherFree : standing? key others (c :: text) = none := (same 0).trans free
    rw [layout_kept free, layout_kept otherFree, ih fun place => same (place + 1)]
  | replaced item rest found ih =>
    have otherFound : standing? key others (key item ++ rest) = some item := (same 0).trans found
    have later := fun place => same ((key item).length + place)
    simp only [List.drop_length_add_append] at later
    rw [layout_replaced found, layout_replaced otherFound, ih later]

theorem Apart.of_standsAt (apart : Apart key items text) {others : List α}
    (same : ∀ place item, StandsAt key others text place item ↔ StandsAt key items text place item) :
    Apart key others text := by
  intro place item here other another there
  exact apart place item ((same place item).mp here) other another ((same other another).mp there)

theorem Apart.layout_eq (apart : Apart key items text) {others : List α}
    (same : ∀ place item, StandsAt key others text place item ↔ StandsAt key items text place item) :
    layout key others text = layout key items text := by
  refine layout_congr fun place => Option.ext fun item => ?_
  rw [apart.standing?_eq_some_iff, (apart.of_standsAt same).standing?_eq_some_iff, same]

end Apart

def bindingsOfPairs (pairs : List (String × String)) : List Binding :=
  pairs.map fun (key, value) => ⟨key.toList, value.toList⟩

theorem toList_replaceAll (content : String) (pairs : List (String × String)) :
    (replaceAll content pairs).toList =
      (layout Binding.key (bindingsOfPairs pairs) content.toList).flatMap (Piece.shown Binding.value) := by
  rw [← replaceHits_eq_layout, bindingsOf, List.map_id', replaceAll, String.toList_ofList]
  rfl

theorem Apart.replaceAll_eq {content : String} {pairs others : List (String × String)}
    (apart : Apart Binding.key (bindingsOfPairs pairs) content.toList)
    (same : ∀ place binding, StandsAt Binding.key (bindingsOfPairs others) content.toList place binding ↔
      StandsAt Binding.key (bindingsOfPairs pairs) content.toList place binding) :
    replaceAll content others = replaceAll content pairs := by
  apply String.toList_injective
  rw [toList_replaceAll, toList_replaceAll, apart.layout_eq same]

theorem standsAt_iff_of_sublist {content : String} {pairs fewer : List (String × String)}
    (sublist : fewer.Sublist pairs)
    (idle : ∀ pair ∈ pairs, pair ∉ fewer → pair.1 = "" ∨ ¬ pair.1.toList <:+: content.toList)
    (place : Nat) (binding : Binding) :
    StandsAt Binding.key (bindingsOfPairs fewer) content.toList place binding ↔
      StandsAt Binding.key (bindingsOfPairs pairs) content.toList place binding := by
  constructor
  · rintro ⟨among, nonempty, stands⟩
    exact ⟨(sublist.map _).subset among, nonempty, stands⟩
  · rintro ⟨among, nonempty, stands⟩
    refine ⟨?_, nonempty, stands⟩
    obtain ⟨pair, member, rfl⟩ := List.mem_map.mp among
    by_cases kept : pair ∈ fewer
    · exact List.mem_map_of_mem kept
    · rcases idle pair member kept with empty | missing
      · exact absurd (String.toList_eq_nil_iff.mpr empty) nonempty
      · exact absurd (stands.isInfix.trans (List.drop_suffix _ _).isInfix) missing

/-- Where no two occurrences of keys share a character, every occurrence gives way to the value of its own
binding and every other character stays. Neither the order of the bindings matters nor are those needed
whose key is empty or does not occur. -/
theorem replaceAll_of_apart (content : String) (pairs : List (String × String))
    (apart : Apart Binding.key (bindingsOfPairs pairs) content.toList) :
    (∃ pieces : List (Piece Binding),
      content.toList = pieces.flatMap (Piece.source Binding.key) ∧
      (replaceAll content pairs).toList = pieces.flatMap (Piece.shown Binding.value) ∧
      (∀ place binding, StandsAt Binding.key (bindingsOfPairs pairs) content.toList place binding ↔
        ∃ before after, pieces = before ++ .replaced binding :: after ∧
          (before.flatMap (Piece.source Binding.key)).length = place) ∧
      ∀ before c after, pieces = before ++ .kept c :: after →
        ∀ start binding, StandsAt Binding.key (bindingsOfPairs pairs) content.toList start binding →
          (before.flatMap (Piece.source Binding.key)).length < start ∨
            start + binding.key.length ≤ (before.flatMap (Piece.source Binding.key)).length) ∧
      (∀ others, others.Perm pairs → replaceAll content others = replaceAll content pairs) ∧
      ∀ fewer, fewer.Sublist pairs →
        (∀ pair ∈ pairs, pair ∉ fewer → pair.1 = "" ∨ ¬ pair.1.toList <:+: content.toList) →
        replaceAll content fewer = replaceAll content pairs := by
  refine ⟨⟨layout Binding.key (bindingsOfPairs pairs) content.toList, ?_, ?_, ?_, ?_⟩, ?_, ?_⟩
  · exact (layout_source _ _ _).symm
  · exact toList_replaceAll content pairs
  · intro place binding
    exact apart.standsAt_iff
  · intro before c after cut start binding here
    exact apart.free_of_kept cut here
  · intro others permuted
    refine apart.replaceAll_eq fun place binding => ?_
    have members : binding ∈ bindingsOfPairs others ↔ binding ∈ bindingsOfPairs pairs :=
      (permuted.map _).mem_iff
    exact ⟨fun here => ⟨members.mp here.among, here.nonempty, here.stands⟩,
      fun here => ⟨members.mpr here.among, here.nonempty, here.stands⟩⟩
  · intro fewer sublist idle
    exact apart.replaceAll_eq (standsAt_iff_of_sublist sublist idle)

/-- A value that holds the other key, a key that does not occur and one that is empty. -/
theorem replaceAll_of_apart_nested_value :
    let pairs := [("_A_", "_B_"), ("_B_", "b"), ("_C_", "c"), ("", "x")]
    Apart Binding.key (bindingsOfPairs pairs) "_A_|_B__A_".toList ∧
      replaceAll "_A_|_B__A_" [("", "x"), ("_B_", "b"), ("_A_", "_B_"), ("_C_", "c")] =
        replaceAll "_A_|_B__A_" pairs ∧
      replaceAll "_A_|_B__A_" [("_A_", "_B_"), ("_B_", "b")] = replaceAll "_A_|_B__A_" pairs := by
  intro pairs
  have apart : Apart Binding.key (bindingsOfPairs pairs) "_A_|_B__A_".toList := by decide +kernel
  obtain ⟨_, permuted, dropped⟩ := replaceAll_of_apart "_A_|_B__A_" pairs apart
  exact ⟨apart, permuted _ (by decide), dropped _ (by decide) (by decide +kernel)⟩

end PageInliner.Text
