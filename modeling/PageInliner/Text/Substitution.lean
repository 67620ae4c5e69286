import PageInliner.Text.Search

/-!
Substitution of values for keys in one pass from left to right. The occurrence that begins first is
replaced first; where two keys begin at one place the binding listed first is taken. What has been put
in is never searched again, and a binding with an empty key binds nothing.
-/

set_option autoImplicit false

namespace PageInliner.Text

/-- A key and the value that stands for it. -/
structure Binding where
  key : List Char
  value : List Char
  deriving Repr, DecidableEq

/-- One occurrence of a key, with the value bound to it. -/
structure Hit where
  before : List Char
  value : List Char
  after : List Char
  deriving Repr, DecidableEq

/-- The occurrence of a key that a text begins with: of the first binding whose key stands there. -/
def frontHit? : List Binding → List Char → Option Hit
  | [], _ => none
  | binding :: bindings, text =>
    if binding.key.isEmpty then frontHit? bindings text
    else
      match after? binding.key text with
      | some rest => some ⟨[], binding.value, rest⟩
      | none => frontHit? bindings text

/-- The occurrence that is replaced next. -/
def firstHit? (bindings : List Binding) : List Char → Option Hit
  | [] => none
  | c :: text =>
    match frontHit? bindings (c :: text) with
    | some hit => some hit
    | none => (firstHit? bindings text).map fun hit => { hit with before := c :: hit.before }

/-- An occurrence at the front is one of the key of a binding. -/
theorem exists_of_frontHit? {bindings : List Binding} {text : List Char} {hit : Hit}
    (found : frontHit? bindings text = some hit) :
    ∃ binding ∈ bindings, binding.key ≠ [] ∧ hit.before = [] ∧ hit.value = binding.value ∧
      text = binding.key ++ hit.after := by
  fun_induction frontHit? bindings text with
  | case1 => cases found
  | case2 _ _ _ _ ih =>
    obtain ⟨other, among, rest⟩ := ih found
    exact ⟨other, List.mem_cons_of_mem _ among, rest⟩
  | case3 binding _ _ nonempty _ front =>
    cases found
    exact ⟨binding, List.mem_cons_self, by simpa using nonempty, rfl, rfl,
      eq_append_of_after? front⟩
  | case4 _ _ _ _ _ ih =>
    obtain ⟨other, among, rest⟩ := ih found
    exact ⟨other, List.mem_cons_of_mem _ among, rest⟩

/-- An occurrence is one of the key of a binding, and nothing of the text is lost around it. -/
theorem exists_of_firstHit? {bindings : List Binding} {text : List Char} {hit : Hit}
    (found : firstHit? bindings text = some hit) :
    ∃ binding ∈ bindings, binding.key ≠ [] ∧ hit.value = binding.value ∧
      text = hit.before ++ binding.key ++ hit.after := by
  induction text generalizing hit with
  | nil => simp [firstHit?] at found
  | cons c text ih =>
    simp only [firstHit?] at found
    split at found
    · rename_i front
      cases found
      obtain ⟨binding, among, nonempty, before, value, whole⟩ := exists_of_frontHit? front
      exact ⟨binding, among, nonempty, value, by simpa [before] using whole⟩
    · obtain ⟨later, laterFound, rfl⟩ := Option.map_eq_some_iff.mp found
      obtain ⟨binding, among, nonempty, value, whole⟩ := ih laterFound
      exact ⟨binding, among, nonempty, value, by simp [whole]⟩

/-- Less text is left after an occurrence than there was before it. -/
theorem firstHit?_after_length_lt {bindings : List Binding} {text : List Char} {hit : Hit}
    (found : firstHit? bindings text = some hit) : hit.after.length < text.length := by
  obtain ⟨binding, _, nonempty, _, whole⟩ := exists_of_firstHit? found
  have parts := congrArg List.length whole
  have key := List.length_pos_iff.mpr nonempty
  simp only [List.length_append] at parts
  omega

/-- Every key replaced by its value, in one pass over the text. -/
def replaceHits (bindings : List Binding) (text : List Char) : List Char :=
  match _ : firstHit? bindings text with
  | none => text
  | some hit => hit.before ++ hit.value ++ replaceHits bindings hit.after
termination_by text.length
decreasing_by exact firstHit?_after_length_lt ‹_›

/-- A text with every key in it replaced by its value. -/
def replaceAll (text : String) (bindings : List (String × String)) : String :=
  .ofList (replaceHits (bindings.map fun (key, value) => ⟨key.toList, value.toList⟩) text.toList)

end PageInliner.Text
