import PageInliner.Page.Embedding
import PageInliner.Text.Search

/-!
# Escaped texts

An escaped text can be read back, whatever stands in it, and has no `<` that a tag could begin with. The texts
in which no markup begins are just the escaped ones.
-/

set_option autoImplicit false

namespace PageInliner.Page

/-- The text that is read from an escaped one, in one pass. -/
def unescape : List Char → List Char
  | [] => []
  | '&' :: 'a' :: 'm' :: 'p' :: ';' :: rest => '&' :: unescape rest
  | '&' :: 'l' :: 't' :: ';' :: rest => '<' :: unescape rest
  | '&' :: 'g' :: 't' :: ';' :: rest => '>' :: unescape rest
  | c :: rest => c :: unescape rest

theorem escapeChar_of_not_special {c : Char} (plain : isSpecial c = false) :
    escapeChar c = [c] := by
  unfold escapeChar
  split
  · cases plain
  · cases plain
  · cases plain
  · rfl

private theorem unescape_cons {c : Char} (plain : c ≠ '&') (rest : List Char) :
    unescape (c :: rest) = c :: unescape rest := by
  rw [unescape] <;> simp_all

theorem unescape_flatMap_escapeChar (text : List Char) :
    unescape (text.flatMap escapeChar) = text := by
  induction text with
  | nil => rfl
  | cons c text ih =>
    rw [List.flatMap_cons]
    by_cases ampersand : c = '&'
    · subst ampersand
      exact congrArg _ ih
    · by_cases less : c = '<'
      · subst less
        exact congrArg _ ih
      · by_cases greater : c = '>'
        · subst greater
          exact congrArg _ ih
        · have plain : isSpecial c = false := by simp [isSpecial, ampersand, less, greater]
          rw [escapeChar_of_not_special plain, List.singleton_append, unescape_cons ampersand, ih]

/-- Whether the text had to be rewritten makes no difference to what is read. -/
theorem toList_escaped (text : String) : (escaped text).toList = text.toList.flatMap escapeChar := by
  unfold escaped
  split
  case isTrue => exact String.toList_ofList
  case isFalse plain =>
    rw [Bool.not_eq_true, List.any_eq_false] at plain
    have same : ∀ c ∈ text.toList, escapeChar c = [c] := by
      intro c member
      exact escapeChar_of_not_special (Bool.eq_false_iff.mpr (plain c member))
    rw [List.flatMap_def, List.map_congr_left same, ← List.flatMap_def, List.flatMap_singleton']

theorem escaped_injective {first second : String} (same : escaped first = escaped second) :
    first = second := by
  have texts := congrArg String.toList same
  rw [toList_escaped, toList_escaped] at texts
  have read := congrArg unescape texts
  rw [unescape_flatMap_escapeChar, unescape_flatMap_escapeChar] at read
  exact String.toList_injective read

/-- The ways in which special characters are written. -/
def entities : List (List Char) :=
  ["&amp;".toList, "&lt;".toList, "&gt;".toList]

/-- A text in which no markup begins: special characters are there only as parts of entities. -/
structure Encoded (written : List Char) : Prop where
  less : '<' ∉ written
  greater : '>' ∉ written
  ampersand : ∀ rest, '&' :: rest <:+ written → ∃ entity ∈ entities, entity <+: '&' :: rest

section Encoded

variable {written rest : List Char}

theorem Encoded.nil : Encoded [] where
  less := List.not_mem_nil
  greater := List.not_mem_nil
  ampersand rest stands := by simp at stands

theorem Encoded.cons {c : Char} (plain : isSpecial c = false) (encoded : Encoded written) :
    Encoded (c :: written) := by
  simp only [isSpecial, Bool.or_eq_false_iff, beq_eq_false_iff_ne] at plain
  refine ⟨?_, ?_, ?_⟩
  · simpa [Ne.symm plain.1.2] using encoded.less
  · simpa [Ne.symm plain.2] using encoded.greater
  · intro rest stands
    obtain here | later := List.suffix_cons_iff.mp stands
    · exact absurd (List.cons.inj here).1.symm plain.1.1
    · exact encoded.ampersand rest later

theorem Encoded.append {front : List Char} (plain : ∀ c ∈ front, isSpecial c = false)
    (encoded : Encoded written) : Encoded (front ++ written) := by
  induction front with
  | nil => exact encoded
  | cons c front ih =>
    obtain ⟨first, others⟩ := List.forall_mem_cons.mp plain
    exact (ih others).cons first

theorem exists_of_mem_entities {entity : List Char} (known : entity ∈ entities) :
    ∃ name, entity = '&' :: name ∧ ∀ c ∈ name, isSpecial c = false := by
  simp only [entities, List.mem_cons, List.not_mem_nil, or_false] at known
  obtain rfl | rfl | rfl := known
  · exact ⟨"amp;".toList, rfl, by simp [isSpecial]⟩
  · exact ⟨"lt;".toList, rfl, by simp [isSpecial]⟩
  · exact ⟨"gt;".toList, rfl, by simp [isSpecial]⟩

theorem Encoded.entity {entity : List Char} (known : entity ∈ entities) (encoded : Encoded written) :
    Encoded (entity ++ written) := by
  obtain ⟨name, rfl, plain⟩ := exists_of_mem_entities known
  have behind := encoded.append plain
  refine ⟨?_, ?_, ?_⟩
  · simpa using behind.less
  · simpa using behind.greater
  · intro rest stands
    obtain here | later := List.suffix_cons_iff.mp stands
    · exact ⟨_, known, here ▸ List.prefix_append _ _⟩
    · exact behind.ampersand rest later

theorem Encoded.suffix (encoded : Encoded written) (stands : rest <:+ written) : Encoded rest where
  less member := encoded.less (stands.mem member)
  greater member := encoded.greater (stands.mem member)
  ampersand _ inside := encoded.ampersand _ (inside.trans stands)

theorem escapeChar_cases (c : Char) :
    escapeChar c ∈ entities ∨ escapeChar c = [c] ∧ isSpecial c = false := by
  cases special : isSpecial c with
  | false => exact .inr ⟨escapeChar_of_not_special special, rfl⟩
  | true =>
    simp only [isSpecial, Bool.or_eq_true, beq_iff_eq] at special
    obtain (rfl | rfl) | rfl := special
    all_goals exact .inl (by decide)

theorem encoded_flatMap_escapeChar (text : List Char) : Encoded (text.flatMap escapeChar) := by
  induction text with
  | nil => exact .nil
  | cons c text ih =>
    simp only [List.flatMap_cons]
    obtain entity | ⟨same, plain⟩ := escapeChar_cases c
    · exact ih.entity entity
    · simpa only [same, List.singleton_append] using ih.cons plain

/-- A text in which no markup begins is the escaped form of what is read from it. -/
theorem flatMap_escapeChar_unescape (encoded : Encoded written) :
    (unescape written).flatMap escapeChar = written := by
  fun_induction unescape written with
  | case1 => rfl
  | case2 rest ih => exact congrArg ("&amp;".toList ++ ·) (ih (encoded.suffix ⟨"&amp;".toList, rfl⟩))
  | case3 rest ih => exact congrArg ("&lt;".toList ++ ·) (ih (encoded.suffix ⟨"&lt;".toList, rfl⟩))
  | case4 rest ih => exact congrArg ("&gt;".toList ++ ·) (ih (encoded.suffix ⟨"&gt;".toList, rfl⟩))
  | case5 c rest notAmpersand notLess notGreater ih =>
    have plain : isSpecial c = false := by
      simp only [isSpecial, Bool.or_eq_false_iff, beq_eq_false_iff_ne]
      refine ⟨⟨?_, ?_⟩, ?_⟩
      · intro ampersand
        subst ampersand
        obtain ⟨entity, known, more, begins⟩ := encoded.ampersand rest (List.suffix_refl _)
        simp only [entities, List.mem_cons, List.not_mem_nil, or_false] at known
        obtain rfl | rfl | rfl := known
        · exact notAmpersand more rfl (List.cons.inj begins).2.symm
        · exact notLess more rfl (List.cons.inj begins).2.symm
        · exact notGreater more rfl (List.cons.inj begins).2.symm
      · intro less
        exact encoded.less (less ▸ List.mem_cons_self)
      · intro greater
        exact encoded.greater (greater ▸ List.mem_cons_self)
    rw [List.flatMap_cons, escapeChar_of_not_special plain, ih (encoded.suffix (List.suffix_cons c rest))]
    rfl

end Encoded

theorem less_not_mem_escaped (text : String) : '<' ∉ (escaped text).toList := by
  rw [toList_escaped]
  exact (encoded_flatMap_escapeChar text.toList).less

theorem escaped_append (text more : String) : escaped (text ++ more) = escaped text ++ escaped more := by
  apply String.toList_injective
  simp only [toList_escaped, String.toList_append, List.flatMap_append]

/-- Escaping keeps a text readable and leaves no markup in it, and it reaches every text without markup. -/
theorem escaped_lossless (text : String) :
    Encoded (escaped text).toList ∧
      unescape (escaped text).toList = text.toList ∧
      Function.Injective escaped ∧
      (∀ written, Encoded written → (escaped (.ofList (unescape written))).toList = written) ∧
      (∀ more, escaped (text ++ more) = escaped text ++ escaped more) ∧
      escaped text = .ofList (text.toList.flatMap escapeChar) ∧
      (text.toList.any isSpecial = false → escaped text = text) := by
  refine ⟨?_, ?_, fun _ _ => escaped_injective, ?_, escaped_append text, ?_, ?_⟩
  · rw [toList_escaped]
    exact encoded_flatMap_escapeChar text.toList
  · rw [toList_escaped]
    exact unescape_flatMap_escapeChar text.toList
  · intro written encoded
    rw [toList_escaped, String.toList_ofList]
    exact flatMap_escapeChar_unescape encoded
  · apply String.toList_injective
    rw [toList_escaped, String.toList_ofList]
  · intro plain
    rw [escaped, if_neg (by simp [plain])]

/-- Behind an escaped text stands the first `<`, so a page tells where the text ends. -/
theorem escaped_append_injective {first second : String} {piece more firstRest secondRest : List Char}
    (opens : piece = '<' :: more)
    (same : (escaped first).toList ++ (piece ++ firstRest) =
      (escaped second).toList ++ (piece ++ secondRest)) : first = second ∧ firstRest = secondRest := by
  rw [opens, List.cons_append, List.cons_append] at same
  obtain ⟨texts, rests⟩ :=
    Text.append_cons_injective (less_not_mem_escaped first) (less_not_mem_escaped second) same
  exact ⟨escaped_injective (String.toList_injective texts), List.append_cancel_left rests⟩

end PageInliner.Page
