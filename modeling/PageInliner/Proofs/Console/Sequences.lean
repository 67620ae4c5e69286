import PageInliner.Console.Display

/-!
# Colours deleted from a text

A text is shown with colours by the sequences in it. Once these are deleted, what was put together from coloured
and plain pieces is put together from the pieces without their colours.
-/

set_option autoImplicit false

namespace PageInliner

namespace Ansi

/-- No sequence begins in the text. -/
def Plain (text : String) : Prop :=
  '\x1b' ∉ text.toList

instance (text : String) : Decidable (Plain text) :=
  inferInstanceAs (Decidable ('\x1b' ∉ text.toList))

theorem plain_append_iff {first second : String} : Plain (first ++ second) ↔ Plain first ∧ Plain second := by
  simp [Plain]

theorem plain_intercalate {separator : String} {texts : List String} (between : Plain separator)
    (plain : ∀ text ∈ texts, Plain text) : Plain (separator.intercalate texts) := by
  induction texts with
  | nil => exact List.not_mem_nil
  | cons text texts ih =>
    obtain ⟨first, others⟩ := List.forall_mem_cons.mp plain
    by_cases last : texts = []
    · simpa [last] using first
    · rw [String.intercalate_cons_of_ne_nil last]
      exact plain_append_iff.mpr ⟨plain_append_iff.mpr ⟨first, between⟩, ih others⟩

def isParameter (c : Char) : Bool :=
  c.isDigit || c == ';'

/-- What stands behind a row of parameters and the `m` that ends a colour sequence. -/
def afterParameters? : List Char → Option (List Char)
  | [] => none
  | c :: rest =>
    if c = 'm' then some rest
    else if isParameter c then afterParameters? rest
    else none

/-- What stands behind a colour sequence of which the ESC has been read. -/
def afterSequence? : List Char → Option (List Char)
  | '[' :: rest => afterParameters? rest
  | _ => none

theorem afterParameters?_length_lt {text rest : List Char} (found : afterParameters? text = some rest) :
    rest.length < text.length := by
  fun_induction afterParameters? text with
  | case1 => cases found
  | case2 => cases found; simp
  | case3 c text _ _ ih => exact Nat.lt_trans (ih found) (Nat.lt_succ_self _)
  | case4 => cases found

theorem afterSequence?_length_lt {text rest : List Char} (found : afterSequence? text = some rest) :
    rest.length < text.length := by
  unfold afterSequence? at found
  split at found
  case h_1 text => exact Nat.lt_trans (afterParameters?_length_lt found) (Nat.lt_succ_self _)
  case h_2 => cases found

/-- The text without its colour sequences. The two sides of a sequence are not searched as one. -/
def unstyled : List Char → List Char
  | [] => []
  | c :: rest =>
    if c = '\x1b' then
      match _ : afterSequence? rest with
      | some after => unstyled after
      | none => c :: unstyled rest
    else c :: unstyled rest
termination_by text => text.length
decreasing_by
  · have := afterSequence?_length_lt ‹_›
    simp only [List.length_cons]
    omega
  · simp
  · simp

theorem unstyled_append {front : List Char} (plain : '\x1b' ∉ front) (rest : List Char) :
    unstyled (front ++ rest) = front ++ unstyled rest := by
  induction front with
  | nil => rfl
  | cons c front ih =>
    simp only [List.mem_cons, not_or] at plain
    rw [List.cons_append, unstyled, if_neg (Ne.symm plain.1), ih plain.2, List.cons_append]

theorem afterParameters?_append {digits : List Char} (parameters : ∀ c ∈ digits, c.isDigit = true)
    (rest : List Char) : afterParameters? (digits ++ 'm' :: rest) = some rest := by
  induction digits with
  | nil => rfl
  | cons c digits ih =>
    obtain ⟨digit, others⟩ := List.forall_mem_cons.mp parameters
    have further : c ≠ 'm' := by
      intro same
      subst same
      cases digit
    rw [List.cons_append, afterParameters?, if_neg further, if_pos (by simp [isParameter, digit]), ih others]

theorem unstyled_sequence (code : Nat) (rest : List Char) :
    unstyled ((sequence code).toList ++ rest) = unstyled rest := by
  have digits : ∀ c ∈ (toString code).toList, c.isDigit = true := by
    intro c member
    rw [Nat.toString_eq_repr, Nat.repr_eq_ofList_toDigits, String.toList_ofList] at member
    exact Nat.isDigit_of_mem_toDigits (by decide) (by decide) member
  have found : afterSequence? ('[' :: ((toString code).toList ++ 'm' :: rest)) = some rest :=
    afterParameters?_append digits rest
  have spelled : (sequence code).toList ++ rest =
      '\x1b' :: '[' :: ((toString code).toList ++ 'm' :: rest) := by
    simp [sequence, String.toList_append]
  rw [spelled, unstyled, if_pos rfl]
  split
  case h_1 after there =>
    rw [found] at there
    cases there
    rfl
  case h_2 missing =>
    rw [found] at missing
    cases missing

/-- The first text looks like the second, whatever is printed behind it. -/
def Shows (text plain : String) : Prop :=
  ∀ rest, unstyled (text.toList ++ rest) = plain.toList ++ unstyled rest

namespace Shows

variable {text plain more morePlain : String}

theorem unstyled_eq (shows : Shows text plain) : unstyled text.toList = plain.toList := by
  have alone := shows []
  rwa [List.append_nil, unstyled, List.append_nil] at alone

theorem of_plain (free : Plain plain) : Shows plain plain :=
  unstyled_append free

theorem append (shows : Shows text plain) (behind : Shows more morePlain) :
    Shows (text ++ more) (plain ++ morePlain) := by
  intro rest
  simp only [String.toList_append, List.append_assoc, shows _, behind _]

theorem join {α : Type} {rows : List α} {shown asPlain : α → String}
    (shows : ∀ row ∈ rows, Shows (shown row) (asPlain row)) :
    Shows (.join (rows.map shown)) (.join (rows.map asPlain)) := by
  induction rows with
  | nil => exact of_plain (by simp [Plain])
  | cons row rows ih =>
    obtain ⟨first, others⟩ := List.forall_mem_cons.mp shows
    simpa only [List.map_cons, String.join_cons] using first.append (ih others)

theorem of_sequence (code : Nat) : Shows (sequence code) "" :=
  unstyled_sequence code

theorem colored (code : Nat) (shows : Shows text plain) : Shows (Ansi.colored code text) plain := by
  simpa [Ansi.colored] using ((of_sequence code).append shows).append (of_sequence 39)

theorem bold (shows : Shows text plain) : Shows (Ansi.bold text) plain := by
  simpa [Ansi.bold, Ansi.styled] using ((of_sequence 1).append shows).append (of_sequence 0)

end Shows

end Ansi

end PageInliner
