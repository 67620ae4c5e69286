import PageInliner.Proofs.Minify.Script

/-!
# Gaps that go over several lines

Of such a gap a script keeps what stands before the first line break and what stands behind the last. Runs
of spaces and tabs are squeezed before the line breaks are taken out, so a run that ends one line and a run
that begins another are squeezed apart, and their spaces meet afterwards.
-/

set_option autoImplicit false

namespace PageInliner.Minify

open Text

/-- All from the first line break of a gap, with the carriage return before it, to the last. -/
structure Breaks (breaks : List Char) : Prop where
  starts : ['\n'] <+: breaks ∨ ['\r', '\n'] <+: breaks
  ends : ['\n'] <:+ breaks

def isSpacing (c : Char) : Bool :=
  c == ' ' || c == '\t'

/-- A gap over several lines whose first line ends in a space or tab and whose last line begins with one. -/
def Ragged (gap : List Char) : Prop :=
  ∃ front breaks back, gap = front ++ (breaks ++ back) ∧ '\n' ∉ front ∧ '\n' ∉ back ∧ Breaks breaks ∧
    front.getLast?.any isSpacing = true ∧ back.head?.any isSpacing = true

section Joining

theorem joinBlankLinesFrom_before {front : List Char} (blank : allBlank front = true) (oneLine : '\n' ∉ front)
    (rest : List Char) :
    (joinBlankLinesFrom false (front ++ rest)).1 = front ++ (joinBlankLinesFrom false rest).1 := by
  induction front with
  | nil => rfl
  | cons c front ih =>
    obtain ⟨here, blankLater⟩ := allBlank_cons.mp blank
    rw [List.mem_cons, not_or] at oneLine
    obtain ⟨noBreak, later⟩ := oneLine
    have other : (c == '\n') = false := beq_eq_false_iff_ne.mpr (Ne.symm noBreak)
    simp only [List.cons_append, joinBlankLinesFrom, here, other, Bool.or_self, Bool.false_and,
      Bool.false_eq_true, ↓reduceIte, ih blankLater later]

theorem joinBlankLinesFrom_break (broken : Bool) {back : List Char} (oneLine : '\n' ∉ back) :
    (joinBlankLinesFrom broken ('\n' :: back)).1 = '\n' :: back := by
  simp only [joinBlankLinesFrom, isBlank_newline, joinBlankLinesFrom_ahead, newlineAhead_of_not_mem oneLine,
    joinBlankLinesFrom_of_no_newline _ oneLine, Bool.and_false, Bool.false_eq_true, ↓reduceIte]

theorem newlineAhead_of_blank {middle : List Char} (blank : allBlank middle = true) (back : List Char) :
    newlineAhead (middle ++ '\n' :: back) = true := by
  rw [newlineAhead, List.takeWhile_append_of_pos fun _ => isBlank_of_mem blank,
    List.takeWhile_cons_of_pos isBlank_newline]
  simp

theorem joinBlankLinesFrom_behind {middle back : List Char} (blank : allBlank middle = true)
    (oneLine : '\n' ∉ back) :
    (joinBlankLinesFrom true (middle ++ '\n' :: back)).1 = '\n' :: back := by
  induction middle with
  | nil => exact joinBlankLinesFrom_break true oneLine
  | cons c middle ih =>
    obtain ⟨here, later⟩ := allBlank_cons.mp blank
    simp only [List.cons_append, joinBlankLinesFrom, here, joinBlankLinesFrom_ahead,
      newlineAhead_of_blank later, Bool.true_or, Bool.and_self, ↓reduceIte, ih later]

/-- All that is left of the lines of a gap is the line break between its first and its last. -/
theorem joinBlankLines_of_breaks {front breaks back : List Char} (blank : allBlank (front ++ breaks) = true)
    (noBreak : '\n' ∉ front) (oneLine : '\n' ∉ back) (starts : ['\n'] <+: breaks) (ends : ['\n'] <:+ breaks) :
    joinBlankLines (front ++ (breaks ++ back)) = front ++ '\n' :: back := by
  rw [allBlank, List.all_append, Bool.and_eq_true] at blank
  obtain ⟨middle, rfl⟩ := ends
  rw [joinBlankLines, joinBlankLinesFrom_before blank.1 noBreak, List.append_assoc]
  cases middle with
  | nil => rw [List.nil_append, List.singleton_append, joinBlankLinesFrom_break false oneLine]
  | cons c middle =>
    obtain rfl : '\n' = c := (List.cons_prefix_cons.mp starts).1
    have inner : allBlank middle = true := allBlank_of_subset blank.2 fun d member => by simp [member]
    simp only [List.cons_append, List.nil_append, joinBlankLinesFrom, isBlank_newline, joinBlankLinesFrom_ahead,
      newlineAhead_of_blank inner, joinBlankLinesFrom_behind inner oneLine, beq_self_eq_true,
      Bool.or_true, Bool.and_self, ↓reduceIte]

theorem joinLines_break (rest : List Char) : joinLines ('\n' :: rest) = joinLines rest := by
  simp [joinLines]

theorem joinLines_return_break (rest : List Char) : joinLines ('\r' :: '\n' :: rest) = joinLines rest := by
  simp [joinLines]

theorem joinLines_append_of_no_newline {front rest : List Char} (oneLine : '\n' ∉ front)
    (apart : front.getLast? = some '\r' → rest.head? ≠ some '\n') :
    joinLines (front ++ rest) = front ++ joinLines rest := by
  induction front with
  | nil => rfl
  | cons c front ih =>
    rw [List.mem_cons, not_or] at oneLine
    obtain ⟨noBreak, later⟩ := oneLine
    have next : ¬ (c = '\r' ∧ (front ++ rest).head? = some '\n') := by
      intro both
      cases front with
      | nil => exact apart (by simp [both.1]) both.2
      | cons d front => exact later (by simpa [eq_comm] using .inl (Option.some.inj both.2))
    have stays : ¬ (c = '\n' ∨ c = '\r' ∧ (front ++ rest).head? = some '\n') :=
      not_or.mpr ⟨Ne.symm noBreak, next⟩
    have apartLater : front.getLast? = some '\r' → rest.head? ≠ some '\n' := by
      intro last
      cases front with
      | nil => cases last
      | cons d front => exact apart (by rw [List.getLast?_cons_cons, last])
    rw [List.cons_append, joinLines, if_neg (by simpa using stays), ih later apartLater, List.cons_append]

end Joining

section Gap

theorem squeezeSpacing_break (front back : List Char) :
    squeezeSpacing (front ++ '\n' :: back) = squeezeSpacing front ++ '\n' :: squeezeSpacing back :=
  squeezeRuns_append false front back rfl

theorem lineGap_of_breaks {front breaks back : List Char} (blank : allBlank (front ++ breaks) = true)
    (noBreak : '\n' ∉ front) (oneLine : '\n' ∉ back) (are : Breaks breaks)
    (whole : ['\n'] <+: breaks → front.getLast? ≠ some '\r') :
    lineGap (front ++ (breaks ++ back)) = squeezeSpacing front ++ squeezeSpacing back := by
  have backLine : joinLines (squeezeSpacing back) = squeezeSpacing back :=
    joinLines_of_no_newline (newline_not_mem_squeezeSpacing oneLine)
  have frontLine := newline_not_mem_squeezeSpacing noBreak
  rcases are.starts with starts | starts
  · have apart : (squeezeSpacing front).getLast? = some '\r' → ('\n' :: squeezeSpacing back).head? ≠ some '\n' := by
      intro last
      rw [squeezeSpacing, getLast?_squeezeRuns, Option.map_eq_some_iff] at last
      obtain ⟨c, lastOf, same⟩ := last
      split at same
      · cases same
      · exact absurd (same ▸ lastOf) (whole starts)
    rw [lineGap, joinBlankLines_of_breaks blank noBreak oneLine starts are.ends, squeezeSpacing_break,
      joinLines_append_of_no_newline frontLine apart, joinLines_break, backLine]
  · obtain ⟨rest, rfl⟩ := starts
    have noBreakReturn : '\n' ∉ front ++ ['\r'] := by simp [noBreak]
    have blankReturn : allBlank ((front ++ ['\r']) ++ '\n' :: rest) = true := by simpa using blank
    have ends : ['\n'] <:+ '\n' :: rest := by
      rcases List.suffix_cons_iff.mp are.ends with same | later
      · cases same
      · exact later
    have joined := joinBlankLines_of_breaks blankReturn noBreakReturn oneLine ⟨rest, rfl⟩ ends
    have squeezed : squeezeSpacing (front ++ ['\r']) = squeezeSpacing front ++ ['\r'] :=
      squeezeRuns_append false front [] rfl
    have cut : front ++ (['\r', '\n'] ++ rest ++ back) = (front ++ ['\r']) ++ (('\n' :: rest) ++ back) := by
      simp
    rw [lineGap, cut, joined, squeezeSpacing_break, squeezed, List.append_assoc,
      joinLines_append_of_no_newline frontLine (fun _ => by simp), List.singleton_append,
      joinLines_return_break, backLine]

theorem exists_last_break {text : List Char} (broken : '\n' ∈ text) :
    ∃ middle back, text = middle ++ '\n' :: back ∧ '\n' ∉ back := by
  induction text with
  | nil => cases broken
  | cons c text ih =>
    by_cases later : '\n' ∈ text
    · obtain ⟨middle, back, rfl, oneLine⟩ := ih later
      exact ⟨c :: middle, back, rfl, oneLine⟩
    · cases broken with
      | head => exact ⟨[], text, rfl, later⟩
      | tail _ among => exact absurd among later

theorem exists_breaks {gap : List Char} (broken : '\n' ∈ gap) :
    ∃ front breaks back, gap = front ++ (breaks ++ back) ∧ '\n' ∉ front ∧ '\n' ∉ back ∧ Breaks breaks ∧
      (['\n'] <+: breaks → front.getLast? ≠ some '\r') := by
  obtain ⟨front, rest, rfl, noBreak⟩ := List.eq_append_cons_of_mem broken
  obtain ⟨middle, back, cut, oneLine⟩ := exists_last_break (List.mem_cons_self : '\n' ∈ '\n' :: rest)
  have starts : ['\n'] <+: middle ++ ['\n'] := by
    cases middle with
    | nil => exact List.prefix_rfl
    | cons c middle =>
      obtain ⟨rfl, _⟩ := List.cons.inj cut
      exact ⟨_, rfl⟩
  rcases List.eq_nil_or_concat front with rfl | ⟨others, c, rfl⟩
  · refine ⟨[], middle ++ ['\n'], back, ?_, noBreak, oneLine, ⟨.inl starts, ⟨middle, rfl⟩⟩, fun _ => nofun⟩
    simp [cut]
  · rw [List.concat_eq_append] at noBreak ⊢
    by_cases returns : c = '\r'
    · subst returns
      refine ⟨others, '\r' :: (middle ++ ['\n']), back, ?_, fun among => noBreak (by simp [among]), oneLine,
        ⟨.inr ?_, ⟨'\r' :: middle, rfl⟩⟩, ?_⟩
      · simp [cut]
      · exact List.cons_prefix_cons.mpr ⟨rfl, starts⟩
      · intro first
        cases (List.cons_prefix_cons.mp first).1
    · refine ⟨others ++ [c], middle ++ ['\n'], back, ?_, noBreak, oneLine, ⟨.inl starts, ⟨middle, rfl⟩⟩, ?_⟩
      · simp [cut]
      · intro _ last
        rw [List.getLast?_concat] at last
        exact returns (Option.some.inj last)

theorem squeezed_eq_space_iff {c : Char} :
    (if c == ' ' || c == '\t' then ' ' else c) = ' ' ↔ isSpacing c = true := by
  unfold isSpacing
  split <;> simp_all

theorem getLast?_squeezeSpacing_iff {text : List Char} :
    (squeezeSpacing text).getLast? = some ' ' ↔ text.getLast?.any isSpacing = true := by
  rw [squeezeSpacing, getLast?_squeezeRuns]
  cases text.getLast? with
  | none => simp
  | some c => simpa using squeezed_eq_space_iff

theorem head?_squeezeSpacing_iff {text : List Char} :
    (squeezeSpacing text).head? = some ' ' ↔ text.head?.any isSpacing = true := by
  rw [squeezeSpacing, head?_squeezeRuns]
  cases text.head? with
  | none => simp
  | some c => simpa using squeezed_eq_space_iff

/-- Two spaces meet in the middle of a ragged gap, and nowhere else. -/
theorem double_lineGap_iff {gap : List Char} (blank : allBlank gap = true) :
    [' ', ' '] <:+: lineGap gap ↔ Ragged gap := by
  have apart : ∀ text, ¬ [' ', ' '] <:+: squeezeSpacing text := fun text => (squeezeRuns_apart rfl false text).1
  have blankFront : ∀ {front breaks back}, gap = front ++ (breaks ++ back) → allBlank (front ++ breaks) = true := by
    intro front breaks back cut
    rw [cut, ← List.append_assoc] at blank
    exact allBlank_of_subset blank (List.subset_append_left _ _)
  constructor
  · intro double
    by_cases broken : '\n' ∈ gap
    · obtain ⟨front, breaks, back, cut, noBreak, oneLine, are, whole⟩ := exists_breaks broken
      rw [cut, lineGap_of_breaks (blankFront cut) noBreak oneLine are whole, pair_infix_append_iff] at double
      rcases double with inFront | inBack | meet
      · exact absurd inFront (apart front)
      · exact absurd inBack (apart back)
      · exact ⟨front, breaks, back, cut, noBreak, oneLine, are, getLast?_squeezeSpacing_iff.mp meet.1,
          head?_squeezeSpacing_iff.mp meet.2⟩
    · rw [lineGap_of_no_newline broken] at double
      exact absurd double (apart gap)
  · intro ragged
    obtain ⟨front, breaks, back, cut, noBreak, oneLine, are, ends, starts⟩ := ragged
    have whole : ['\n'] <+: breaks → front.getLast? ≠ some '\r' := by
      intro _ last
      rw [last] at ends
      cases ends
    rw [cut, lineGap_of_breaks (blankFront cut) noBreak oneLine are whole, pair_infix_append_iff]
    exact .inr (.inr ⟨getLast?_squeezeSpacing_iff.mpr ends, head?_squeezeSpacing_iff.mpr starts⟩)

end Gap

end PageInliner.Minify
