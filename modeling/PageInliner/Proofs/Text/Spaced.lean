import PageInliner.Proofs.Text.Gaps

/-!
# Texts spaced anew

A text that keeps the solid characters of another, begins and ends with one of them and has between two
neighbours what a rule puts there. The rule determines the text, so a pass that follows it can be told by
these three facts alone.
-/

set_option autoImplicit false

namespace PageInliner.Text

/-- Gaps are left between two characters only, and there as the rule says. -/
def within (between : Char → List Char → Char → List Char) : Filling
  | some a, gap, some b => between a gap b
  | _, _, _ => []

/-- The second text is the first with its solid characters spaced by a rule. What the rule is told are two
neighbours and the gap that was between them. -/
structure Spaced (between : Char → List Char → Char → List Char) (text other : List Char) : Prop where
  solids : solids other = solids text
  starts : ∀ c, other.head? = some c → isBlank c = false
  ends : ∀ c, other.getLast? = some c → isBlank c = false
  gaps : ∀ before a gap b after front space back,
    text = before ++ a :: (gap ++ b :: after) → other = front ++ a :: (space ++ b :: back) →
    Text.solids before = Text.solids front → isBlank a = false → isBlank b = false →
    allBlank gap = true → allBlank space = true → space = between a gap b

/-- A text that neither begins nor ends with a blank and in which no mark has a blank beside it. -/
structure Tight (isMark : Char → Bool) (text : List Char) : Prop where
  starts : ∀ c, text.head? = some c → isBlank c = false
  ends : ∀ c, text.getLast? = some c → isBlank c = false
  beside : ∀ before c after, text = before ++ c :: after → isBlank c = true →
    (∀ a, before.getLast? = some a → isMark a = false) ∧ ∀ b, after.head? = some b → isMark b = false

section Cuts

/-- Two cuts of a text at a solid character are one if as many solid characters stand before it. -/
theorem eq_of_solids_eq {front other rest more : List Char} {a b : Char}
    (whole : front ++ a :: rest = other ++ b :: more) (same : solids front = solids other)
    (solid : isBlank a = false) (dark : isBlank b = false) : front = other ∧ a = b ∧ rest = more := by
  rcases List.append_eq_append_iff.mp whole with ⟨further, rfl, tail⟩ | ⟨further, rfl, tail⟩
  · cases further with
    | nil =>
      obtain ⟨rfl, rfl⟩ := List.cons.inj tail
      exact ⟨by simp, rfl, rfl⟩
    | cons c further =>
      obtain ⟨rfl, _⟩ := List.cons.inj tail
      simp [solids_cons_of_solid solid] at same
  · cases further with
    | nil =>
      obtain ⟨rfl, rfl⟩ := List.cons.inj tail
      exact ⟨by simp, rfl, rfl⟩
    | cons c further =>
      obtain ⟨rfl, _⟩ := List.cons.inj tail
      simp [solids_cons_of_solid dark] at same

theorem eq_of_gap_eq {gap space after back : List Char} {b c : Char}
    (whole : gap ++ b :: after = space ++ c :: back) (blank : allBlank gap = true)
    (otherBlank : allBlank space = true) (solid : isBlank b = false) (dark : isBlank c = false) :
    gap = space := by
  rw [← (takeWhile_gap blank solid).1, whole, (takeWhile_gap otherBlank dark).1]

theorem exists_of_solids_eq_cons {text more : List Char} {c : Char} (first : solids text = c :: more) :
    ∃ gap rest, text = gap ++ c :: rest ∧ allBlank gap = true ∧ isBlank c = false ∧ solids rest = more := by
  cases text using gap_induction with
  | gap gap blank =>
    rw [solids_of_blank blank] at first
    cases first
  | solid gap d rest blank solid =>
    rw [solids_append, solids_of_blank blank, List.nil_append, solids_cons_of_solid solid] at first
    obtain ⟨rfl, rfl⟩ := List.cons.inj first
    exact ⟨gap, rest, rfl, blank, solid, rfl⟩

theorem eq_nil_of_blank {text : List Char} (blank : allBlank text = true)
    (starts : ∀ c, text.head? = some c → isBlank c = false) : text = [] := by
  cases text with
  | nil => rfl
  | cons c text =>
    have dark := starts c rfl
    rw [(allBlank_cons.mp blank).1] at dark
    cases dark

end Cuts

section Spaced

variable {between : Char → List Char → Char → List Char} {text other : List Char}

/-- A rule that puts blanks into the gaps. -/
def RuleOfBlanks (between : Char → List Char → Char → List Char) : Prop :=
  ∀ a gap b, allBlank gap = true → allBlank (between a gap b) = true

theorem fillsBlank_within (blanks : RuleOfBlanks between) : FillsBlank (within between) := by
  intro left gap right blank
  unfold within
  split
  · exact blanks _ _ _ blank
  · rfl

theorem within_eq_cons {left right : Option Char} {gap front back : List Char} {c : Char}
    (filled : within between left gap right = front ++ c :: back) :
    ∃ a b, left = some a ∧ right = some b ∧ between a gap b = front ++ c :: back := by
  unfold within at filled
  split at filled
  · exact ⟨_, _, rfl, rfl, filled⟩
  · simp at filled

/-- A blank of a spaced text stands between two solid characters, where the rule has put it. -/
theorem exists_between_of_blank {before after : List Char} {c : Char}
    (cut : refill (within between) none text = before ++ c :: after) (blank : isBlank c = true) :
    ∃ front a gap b back more rest, allBlank gap = true ∧ isBlank a = false ∧ isBlank b = false ∧
      between a gap b = front ++ c :: back ∧ before = more ++ a :: front ∧ after = back ++ b :: rest := by
  obtain ⟨side, gap, right, front, back, isGap, filled, leftSide, rightSide⟩ := exists_gap_of_blank cut blank
  obtain ⟨a, b, rfl, rfl, put⟩ := within_eq_cons filled
  rcases leftSide with ⟨⟨⟩, _⟩ | ⟨_, more, ⟨⟩, solid, rfl⟩
  rcases rightSide with ⟨⟨⟩, _⟩ | ⟨_, rest, ⟨⟩, dark, rfl⟩
  exact ⟨front, a, gap, b, back, more, rest, isGap, solid, dark, put, rfl, rfl⟩

/-- A pass over a text with gaps between two characters only, told by what it makes of each. -/
theorem refill_refill_within (blanks : RuleOfBlanks between) {fill : Filling}
    (starts : ∀ right, fill none [] right = []) (ends : ∀ left, fill left [] none = []) (text : List Char) :
    refill fill none (refill (within between) none text) =
      refill (within fun a gap b => fill (some a) (between a gap b) (some b)) none text := by
  rw [refill_refill (fillsBlank_within blanks)]
  refine refill_congr (fun left gap right _ => ?_) text
  cases left with
  | none => exact starts right
  | some a =>
    cases right with
    | none => exact ends (some a)
    | some b => rfl

theorem starts_refill (c : Char) (first : (refill (within between) none text).head? = some c) :
    isBlank c = false := by
  obtain ⟨rest, whole⟩ := List.head?_eq_some_iff.mp first
  have cut : refill (within between) none text = [] ++ c :: rest := whole
  rw [← Bool.not_eq_true]
  intro blank
  obtain ⟨_, _, _, _, _, _, _, _, _, _, _, before, _⟩ := exists_between_of_blank cut blank
  simp at before

theorem ends_refill (c : Char) (last : (refill (within between) none text).getLast? = some c) :
    isBlank c = false := by
  obtain ⟨front, whole⟩ := List.getLast?_eq_some_iff.mp last
  rw [← Bool.not_eq_true]
  intro blank
  obtain ⟨_, _, _, _, _, _, _, _, _, _, _, _, after⟩ := exists_between_of_blank whole blank
  simp at after

theorem spaced_refill (blanks : RuleOfBlanks between) (text : List Char) :
    Spaced between text (refill (within between) none text) where
  solids := solids_refill (fillsBlank_within blanks) text
  starts := starts_refill
  ends := ends_refill
  gaps := by
    rintro before a gap b after front space back rfl cut same leftSolid rightSolid isGap isSpace
    obtain ⟨start, finish, filled, sameStart, _⟩ :=
      refill_between (fillsBlank_within blanks) none before after leftSolid isGap rightSolid
    rw [cut] at filled
    obtain ⟨rfl, _, rest⟩ := eq_of_solids_eq filled (same.symm.trans sameStart.symm) leftSolid leftSolid
    exact eq_of_gap_eq rest isSpace (blanks a gap b isGap) rightSolid rightSolid

theorem Spaced.eq_refill_behind (spaced : Spaced between text other) {before tail front rest : List Char}
    {a : Char} (whole : text = before ++ a :: tail) (otherWhole : other = front ++ a :: rest)
    (solid : isBlank a = false) (same : Text.solids before = Text.solids front) :
    rest = refill (within between) (some a) tail := by
  have sameBehind : Text.solids rest = Text.solids tail := by
    have both := spaced.solids
    rw [whole, otherWhole, solids_append, solids_append, same, List.append_cancel_left_eq,
      solids_cons_of_solid solid, solids_cons_of_solid solid] at both
    exact (List.cons.inj both).2
  induction tail using gap_induction generalizing before a front rest with
  | gap gap blank =>
    rw [solids_of_blank blank] at sameBehind
    have isBlankRest := allBlank_of_solids sameBehind
    rw [refill_gap blank]
    rcases List.eq_nil_or_concat rest with rfl | ⟨more, c, rfl⟩
    · rfl
    · have dark := spaced.ends c (by
        rw [otherWhole, List.concat_eq_append, ← List.cons_append, ← List.append_assoc,
          List.getLast?_concat])
      rw [isBlank_of_mem isBlankRest (by simp)] at dark
      cases dark
  | solid gap b after blank dark ih =>
    rw [solids_append, solids_of_blank blank, List.nil_append, solids_cons_of_solid dark] at sameBehind
    obtain ⟨space, back, rfl, isSpace, _, sameLater⟩ := exists_of_solids_eq_cons sameBehind
    have filled := spaced.gaps before a gap b after front space back whole otherWhole same solid dark blank
      isSpace
    have nextWhole : text = (before ++ a :: gap) ++ b :: after := by
      rw [whole, List.append_assoc, List.cons_append]
    have nextOther : other = (front ++ a :: space) ++ b :: back := by
      rw [otherWhole, List.append_assoc, List.cons_append]
    have sameNext : Text.solids (before ++ a :: gap) = Text.solids (front ++ a :: space) := by
      simp [same, solids_cons_of_solid solid, solids_of_blank blank, solids_of_blank isSpace]
    have later := ih nextWhole nextOther dark sameNext sameLater
    rw [refill_solid blank dark, later, filled]
    rfl

theorem spaced_iff (blanks : RuleOfBlanks between) :
    Spaced between text other ↔ other = refill (within between) none text := by
  constructor
  · intro spaced
    have same := spaced.solids
    cases text using gap_induction with
    | gap gap blank =>
      rw [solids_of_blank blank] at same
      rw [refill_gap blank, eq_nil_of_blank (allBlank_of_solids same) spaced.starts]
      rfl
    | solid gap a tail blank solid =>
      rw [solids_append, solids_of_blank blank, List.nil_append, solids_cons_of_solid solid] at same
      obtain ⟨space, rest, rfl, isSpace, _, _⟩ := exists_of_solids_eq_cons same
      have behind := spaced.eq_refill_behind rfl rfl solid
        (by rw [solids_of_blank blank, solids_of_blank isSpace])
      have nothing : space = [] := by
        cases space with
        | nil => rfl
        | cons c space =>
          have dark := spaced.starts c rfl
          rw [(allBlank_cons.mp isSpace).1] at dark
          cases dark
      rw [refill_solid blank solid, ← behind, nothing]
      rfl
  · rintro rfl
    exact spaced_refill blanks text

/-- Two rules make the same of a text exactly if they agree on each gap that it has between neighbours. -/
theorem refill_within_eq_iff {other : Char → List Char → Char → List Char} (blanks : RuleOfBlanks between)
    (otherBlanks : RuleOfBlanks other) :
    refill (within between) none text = refill (within other) none text ↔
      ∀ before a gap b after, text = before ++ a :: (gap ++ b :: after) →
        isBlank a = false → isBlank b = false → allBlank gap = true → between a gap b = other a gap b := by
  have spaced := spaced_refill blanks text
  have otherSpaced := spaced_refill otherBlanks text
  constructor
  · intro same before a gap b after cut leftSolid rightSolid isGap
    obtain ⟨front, back, filled, sameFront, _⟩ :=
      refill_between (fillsBlank_within blanks) none before after leftSolid isGap rightSolid
    rw [← cut, same] at filled
    exact otherSpaced.gaps before a gap b after front _ back cut filled sameFront.symm leftSolid rightSolid
      isGap (blanks a gap b isGap)
  · intro agree
    apply (spaced_iff otherBlanks).mp
    refine { spaced with gaps := ?_ }
    intro before a gap b after front space back cut otherCut same leftSolid rightSolid isGap isSpace
    rw [← agree before a gap b after cut leftSolid rightSolid isGap]
    exact spaced.gaps before a gap b after front space back cut otherCut same leftSolid rightSolid isGap
      isSpace

theorem tight_refill {isMark : Char → Bool} (blanks : RuleOfBlanks between)
    (solidMarks : ∀ c, isMark c = true → isBlank c = false)
    (closes : ∀ a gap b, isMark a = true ∨ isMark b = true → between a gap b = []) (text : List Char) :
    Tight isMark (refill (within between) none text) where
  starts := starts_refill
  ends := ends_refill
  beside := by
    intro before c after cut blank
    obtain ⟨front, a, gap, b, back, more, rest, isGap, solid, dark, put, rfl, rfl⟩ :=
      exists_between_of_blank cut blank
    have isFilling := blanks a gap b isGap
    rw [put] at isFilling
    have noMark : ∀ d, isBlank d = true → isMark d = false := by
      intro d blankHere
      rw [← Bool.not_eq_true]
      intro marked
      rw [solidMarks d marked] at blankHere
      cases blankHere
    have unmarked : isMark a = false ∧ isMark b = false := by
      rw [← Bool.not_eq_true, ← Bool.not_eq_true, ← not_or]
      intro marked
      rw [closes a gap b marked] at put
      simp at put
    constructor
    · intro d last
      rcases List.eq_nil_or_concat front with rfl | ⟨others, e, rfl⟩
      · simp only [List.getLast?_append, List.getLast?_singleton, Option.some_or, Option.some.injEq] at last
        exact last ▸ unmarked.1
      · rw [List.concat_eq_append, ← List.cons_append, ← List.append_assoc, List.getLast?_concat,
          Option.some.injEq] at last
        exact noMark d (last ▸ isBlank_of_mem isFilling (by simp))
    · intro d first
      cases back with
      | nil =>
        have same : b = d := by simpa using first
        exact same ▸ unmarked.2
      | cons e others =>
        have same : e = d := by simpa using first
        exact noMark d (same ▸ isBlank_of_mem isFilling (by simp))

end Spaced

end PageInliner.Text
