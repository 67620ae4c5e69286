/-!
Looking for a key in a text: what follows the key at the front of a text, and a text cut at the first
occurrence of the key.
-/

set_option autoImplicit false

namespace PageInliner.Text

/-- What follows `key` in a text that begins with it. -/
def after? : (key text : List Char) → Option (List Char)
  | [], text => some text
  | _ :: _, [] => none
  | k :: key, c :: text => if k = c then after? key text else none

/-- The two sides of an occurrence of a key. -/
structure Cut where
  before : List Char
  after : List Char
  deriving Repr, DecidableEq

/-- The text cut at the first occurrence of `key`. -/
def cut? (key : List Char) : List Char → Option Cut
  | [] => (after? key []).map (Cut.mk [])
  | c :: text =>
    match after? key (c :: text) with
    | some rest => some ⟨[], rest⟩
    | none => (cut? key text).map fun cut => { cut with before := c :: cut.before }

/-- The key occurs in the text; the empty key occurs in every text. -/
def occurs (key text : List Char) : Bool :=
  (cut? key text).isSome

theorem eq_append_of_after? {key text rest : List Char} (found : after? key text = some rest) :
    text = key ++ rest := by
  induction key generalizing text with
  | nil => simpa [after?] using found
  | cons k key ih =>
    cases text with
    | nil => simp [after?] at found
    | cons c text =>
      simp only [after?] at found
      split at found
      case isTrue same => subst same; simp [ih found]
      case isFalse => cases found

/-- Nothing is lost at a cut. -/
theorem eq_append_of_cut? {key text : List Char} {cut : Cut} (found : cut? key text = some cut) :
    text = cut.before ++ key ++ cut.after := by
  induction text generalizing cut with
  | nil =>
    obtain ⟨rest, front, rfl⟩ := Option.map_eq_some_iff.mp found
    simpa using eq_append_of_after? front
  | cons c text ih =>
    simp only [cut?] at found
    cases front : after? key (c :: text) with
    | some rest =>
      simp only [front, Option.some.injEq] at found
      subst found
      simpa using eq_append_of_after? front
    | none =>
      simp only [front] at found
      obtain ⟨later, foundLater, rfl⟩ := Option.map_eq_some_iff.mp found
      simp [ih foundLater]

theorem after?_append (key rest : List Char) : after? key (key ++ rest) = some rest := by
  induction key with
  | nil => rfl
  | cons k key ih => simpa [after?] using ih

/-- A key at the front is its own first occurrence. -/
theorem cut?_of_after? {key text rest : List Char} (front : after? key text = some rest) :
    cut? key text = some ⟨[], rest⟩ := by
  cases text <;> simp [cut?, front]

/-- A key that is in the text is found. -/
theorem occurs_append (before key rest : List Char) :
    occurs key (before ++ (key ++ rest)) = true := by
  induction before with
  | nil => simp [occurs, cut?_of_after? (after?_append key rest)]
  | cons c before ih =>
    simp only [occurs, List.cons_append, cut?]
    split
    · rfl
    · simpa [occurs] using ih

/-- To occur in a text is to stand somewhere in it. -/
theorem occurs_iff {key text : List Char} :
    occurs key text = true ↔ ∃ before rest, text = before ++ key ++ rest := by
  constructor
  · intro found
    obtain ⟨cut, cutFound⟩ := Option.isSome_iff_exists.mp found
    exact ⟨cut.before, cut.after, eq_append_of_cut? cutFound⟩
  · rintro ⟨before, rest, rfl⟩
    simpa using occurs_append before key rest

/-- Where a character occurs first, a text is cut in one way only. -/
theorem append_cons_injective {c : Char} {first second firstRest secondRest : List Char}
    (firstFree : c ∉ first) (secondFree : c ∉ second)
    (same : first ++ c :: firstRest = second ++ c :: secondRest) :
    first = second ∧ firstRest = secondRest := by
  induction first generalizing second with
  | nil =>
    cases second with
    | nil => exact ⟨rfl, (List.cons.inj same).2⟩
    | cons d second =>
      obtain ⟨rfl, _⟩ := List.cons.inj same
      simp at secondFree
  | cons d first ih =>
    cases second with
    | nil =>
      obtain ⟨rfl, _⟩ := List.cons.inj same
      simp at firstFree
    | cons e second =>
      obtain ⟨rfl, tails⟩ := List.cons.inj same
      rw [List.mem_cons, not_or] at firstFree secondFree
      obtain ⟨rfl, rests⟩ := ih firstFree.2 secondFree.2 tails
      exact ⟨rfl, rests⟩

end PageInliner.Text
