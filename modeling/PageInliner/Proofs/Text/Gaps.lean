import PageInliner.Text.Blank

/-!
# Gaps between solid characters

A text is a row of solid characters with gaps of blanks around them. A pass that touches blanks alone puts
something else into each gap, and what it puts there depends on the gap and on the characters at its two
sides. Such passes can be put one behind the other gap by gap, and what they do can be told from the gaps.
-/

set_option autoImplicit false

namespace PageInliner.Text

/-- The characters of a text that are not blank. -/
def solids (text : List Char) : List Char :=
  text.filter fun c => !isBlank c

/-- What is put into a gap, given the character on its left, what was there, and the character on its right.
There is no character at an end of the text. -/
abbrev Filling := Option Char → List Char → Option Char → List Char

/-- A text with other gaps. `left` is the character in front of the text. -/
def refill (fill : Filling) (left : Option Char) (text : List Char) : List Char :=
  match _ : text.dropWhile isBlank with
  | [] => fill left (text.takeWhile isBlank) none
  | c :: rest => fill left (text.takeWhile isBlank) (some c) ++ c :: refill fill (some c) rest
termination_by text.length
decreasing_by
  have shorter := (List.dropWhile_sublist (l := text) isBlank).length_le
  simp only [‹text.dropWhile isBlank = _›, List.length_cons] at shorter
  omega

section Solids

theorem allBlank_cons {c : Char} {text : List Char} :
    allBlank (c :: text) = true ↔ isBlank c = true ∧ allBlank text = true := by
  simp [allBlank]

theorem isBlank_of_mem {gap : List Char} (blank : allBlank gap = true) {c : Char} (member : c ∈ gap) :
    isBlank c = true :=
  List.all_eq_true.mp blank c member

theorem allBlank_of_subset {gap part : List Char} (blank : allBlank gap = true) (subset : part ⊆ gap) :
    allBlank part = true :=
  List.all_eq_true.mpr fun _ member => isBlank_of_mem blank (subset member)

@[simp] theorem solids_append (front back : List Char) : solids (front ++ back) = solids front ++ solids back :=
  List.filter_append front back

theorem solids_of_blank {gap : List Char} (blank : allBlank gap = true) : solids gap = [] := by
  rw [solids, List.filter_eq_nil_iff]
  intro c member
  simp [isBlank_of_mem blank member]

@[simp] theorem solids_cons_of_solid {c : Char} (solid : isBlank c = false) (text : List Char) :
    solids (c :: text) = c :: solids text :=
  List.filter_cons_of_pos (by simp [solid])

theorem allBlank_of_solids {text : List Char} (none : solids text = []) : allBlank text = true := by
  rw [solids, List.filter_eq_nil_iff] at none
  exact List.all_eq_true.mpr fun c member => by simpa using none c member

theorem takeWhile_gap {gap rest : List Char} {c : Char} (blank : allBlank gap = true)
    (solid : isBlank c = false) :
    (gap ++ c :: rest).takeWhile isBlank = gap ∧ (gap ++ c :: rest).dropWhile isBlank = c :: rest := by
  rw [List.takeWhile_append_of_pos fun d => isBlank_of_mem blank,
    List.dropWhile_append_of_pos fun d => isBlank_of_mem blank]
  simp [solid]

theorem dropWhile_of_blank {gap : List Char} (blank : allBlank gap = true) : gap.dropWhile isBlank = [] := by
  rw [← List.append_nil gap, List.dropWhile_append_of_pos fun _ => isBlank_of_mem blank]
  rfl

theorem takeWhile_of_blank {gap : List Char} (blank : allBlank gap = true) : gap.takeWhile isBlank = gap := by
  have whole := List.takeWhile_append_dropWhile (p := isBlank) (l := gap)
  rwa [dropWhile_of_blank blank, List.append_nil] at whole

/-- A text is a gap, or a gap and a solid character in front of a text. -/
theorem gap_induction {motive : List Char → Prop} (gap : ∀ gap, allBlank gap = true → motive gap)
    (solid : ∀ gap c rest, allBlank gap = true → isBlank c = false → motive rest →
      motive (gap ++ c :: rest))
    (text : List Char) : motive text := by
  have blank : allBlank (text.takeWhile isBlank) = true := List.all_takeWhile
  have whole := List.takeWhile_append_dropWhile (p := isBlank) (l := text)
  cases behind : text.dropWhile isBlank with
  | nil =>
    rw [behind, List.append_nil] at whole
    rw [← whole]
    exact gap _ blank
  | cons c rest =>
    have dark : isBlank c = false := by
      have stops := List.head?_dropWhile_not isBlank text
      rw [behind] at stops
      simpa using stops
    have shorter : rest.length < text.length := by
      have sizes := congrArg List.length whole
      rw [behind, List.length_append, List.length_cons] at sizes
      omega
    rw [behind] at whole
    rw [← whole]
    exact solid _ c rest blank dark (gap_induction gap solid rest)
termination_by text.length

end Solids

section Refill

variable {fill : Filling} {left : Option Char}

theorem refill_gap {gap : List Char} (blank : allBlank gap = true) :
    refill fill left gap = fill left gap none := by
  rw [refill]
  split
  case h_1 => rw [takeWhile_of_blank blank]
  case h_2 c rest more => simp [dropWhile_of_blank blank] at more

theorem refill_solid {gap rest : List Char} {c : Char} (blank : allBlank gap = true)
    (solid : isBlank c = false) :
    refill fill left (gap ++ c :: rest) = fill left gap (some c) ++ c :: refill fill (some c) rest := by
  obtain ⟨front, behind⟩ := @takeWhile_gap gap rest c blank solid
  rw [refill]
  split
  case h_1 none => simp [behind] at none
  case h_2 d more found =>
    rw [behind] at found
    cases found
    rw [front]

theorem refill_congr {other : Filling}
    (same : ∀ left gap right, allBlank gap = true → fill left gap right = other left gap right)
    (text : List Char) : refill fill left text = refill other left text := by
  induction text using gap_induction generalizing left with
  | gap gap blank => rw [refill_gap blank, refill_gap blank, same _ _ _ blank]
  | solid gap c rest blank solid ih =>
    rw [refill_solid blank solid, refill_solid blank solid, same _ _ _ blank, ih]

/-- A pass that treats each gap on its own. -/
theorem eq_refill_of_apart {pass : List Char → List Char}
    (apart : ∀ gap c rest, allBlank gap = true → isBlank c = false →
      pass (gap ++ c :: rest) = pass gap ++ c :: pass rest)
    (text : List Char) : pass text = refill (fun _ gap _ => pass gap) left text := by
  induction text using gap_induction generalizing left with
  | gap gap blank => rw [refill_gap blank]
  | solid gap c rest blank solid ih => rw [refill_solid blank solid, apart gap c rest blank solid, ih]

/-- The gaps are filled with blanks again. -/
def FillsBlank (fill : Filling) : Prop :=
  ∀ left gap right, allBlank gap = true → allBlank (fill left gap right) = true

theorem FillsBlank.comp {inner : Filling} (blanks : FillsBlank fill) (innerBlanks : FillsBlank inner) :
    FillsBlank fun left gap right => fill left (inner left gap right) right :=
  fun _ _ _ blank => blanks _ _ _ (innerBlanks _ _ _ blank)

/-- Two passes over the gaps are one: each gap is filled by the second with what the first has put there. -/
theorem refill_refill {inner : Filling} (blanks : FillsBlank inner) (text : List Char) :
    refill fill left (refill inner left text) =
      refill (fun left gap right => fill left (inner left gap right) right) left text := by
  induction text using gap_induction generalizing left with
  | gap gap blank =>
    rw [refill_gap blank, refill_gap (blanks _ _ _ blank), refill_gap blank]
  | solid gap c rest blank solid ih =>
    rw [refill_solid blank solid, refill_solid (blanks _ _ _ blank) solid, refill_solid blank solid, ih]

theorem solids_refill (blanks : FillsBlank fill) (text : List Char) :
    solids (refill fill left text) = solids text := by
  induction text using gap_induction generalizing left with
  | gap gap blank =>
    rw [refill_gap blank, solids_of_blank blank, solids_of_blank (blanks _ _ _ blank)]
  | solid gap c rest blank solid ih =>
    rw [refill_solid blank solid, solids_append, solids_append, solids_of_blank blank,
      solids_of_blank (blanks _ _ _ blank), solids_cons_of_solid solid, solids_cons_of_solid solid, ih]

theorem refill_append (blanks : FillsBlank fill) (before rest : List Char) {a : Char}
    (solid : isBlank a = false) :
    ∃ front, refill fill left (before ++ a :: rest) = front ++ a :: refill fill (some a) rest ∧
      solids front = solids before := by
  induction before using gap_induction generalizing left with
  | gap gap blank =>
    refine ⟨fill left gap (some a), refill_solid blank solid, ?_⟩
    rw [solids_of_blank blank, solids_of_blank (blanks _ _ _ blank)]
  | solid gap c before blank dark ih =>
    obtain ⟨front, filled, same⟩ := @ih (some c)
    refine ⟨fill left gap (some c) ++ c :: front, ?_, ?_⟩
    · rw [List.append_assoc, List.cons_append, refill_solid blank dark, filled, List.append_assoc,
        List.cons_append]
    · rw [solids_append, solids_append, solids_of_blank blank, solids_of_blank (blanks _ _ _ blank),
        solids_cons_of_solid dark, solids_cons_of_solid dark, same]

theorem refill_between (blanks : FillsBlank fill) (left : Option Char) (before after : List Char)
    {gap : List Char} {a b : Char} (leftSolid : isBlank a = false) (blank : allBlank gap = true)
    (rightSolid : isBlank b = false) :
    ∃ front back,
      refill fill left (before ++ a :: (gap ++ b :: after)) =
        front ++ a :: (fill (some a) gap (some b) ++ b :: back) ∧
      solids front = solids before ∧ solids back = solids after := by
  obtain ⟨front, filled, same⟩ := refill_append blanks before (gap ++ b :: after) leftSolid
  refine ⟨front, refill fill (some b) after, ?_, same, solids_refill blanks after⟩
  rw [filled, refill_solid blank rightSolid]

/-- A blank of a text with other gaps was put into one of them, and what stands around it there is known. -/
theorem exists_gap_of_blank {text before after : List Char} {c : Char}
    (cut : refill fill left text = before ++ c :: after) (blank : isBlank c = true) :
    ∃ side gap right front back, allBlank gap = true ∧ fill side gap right = front ++ c :: back ∧
      (side = left ∧ before = front ∨
        ∃ a more, side = some a ∧ isBlank a = false ∧ before = more ++ a :: front) ∧
      (right = none ∧ after = back ∨
        ∃ b more, right = some b ∧ isBlank b = false ∧ after = back ++ b :: more) := by
  induction text using gap_induction generalizing left before with
  | gap gap isGap =>
    rw [refill_gap isGap] at cut
    exact ⟨left, gap, none, before, after, isGap, cut, .inl ⟨rfl, rfl⟩, .inl ⟨rfl, rfl⟩⟩
  | solid gap d rest isGap solid ih =>
    rw [refill_solid isGap solid] at cut
    rcases List.append_eq_append_iff.mp cut with ⟨more, rfl, tail⟩ | ⟨more, filled, tail⟩
    · -- The blank stands behind the solid character, so it is in a later gap.
      cases more with
      | nil =>
        obtain ⟨rfl, _⟩ := List.cons.inj tail
        rw [solid] at blank
        cases blank
      | cons e more =>
        obtain ⟨rfl, later⟩ := List.cons.inj tail
        obtain ⟨side, inner, right, front, back, isInner, filled, leftSide, rightSide⟩ := ih later
        refine ⟨side, inner, right, front, back, isInner, filled, .inr ?_, rightSide⟩
        rcases leftSide with ⟨rfl, rfl⟩ | ⟨a, others, rfl, dark, rfl⟩
        · exact ⟨d, _, rfl, solid, rfl⟩
        · exact ⟨a, fill left gap (some d) ++ d :: others, rfl, dark, by simp⟩
    · cases more with
      | nil =>
        obtain ⟨rfl, _⟩ := List.cons.inj tail
        rw [solid] at blank
        cases blank
      | cons e more =>
        obtain ⟨rfl, rfl⟩ := List.cons.inj tail
        exact ⟨left, gap, some d, before, more, isGap, filled, .inl ⟨rfl, rfl⟩,
          .inr ⟨d, _, rfl, solid, rfl⟩⟩

end Refill

end PageInliner.Text
