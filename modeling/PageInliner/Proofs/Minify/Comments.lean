import PageInliner.Minify.Comments

/-!
# Comments, told without the passes

A pass goes over a text once from left to right and takes out each comment where it meets one. What a
comment is can be said of the comment and what follows it; what a pass leaves is then determined, and it is
what the functions that drop comments compute.
-/

set_option autoImplicit false

namespace PageInliner.Minify

/-- One pass over a text that leaves the second text of the first. Where something that is to be taken out
begins, it is passed over; any other character stays. `found` is told what is taken out and what follows. -/
inductive Stripped (found : List Char → List Char → Prop) : List Char → List Char → Prop where
  | done : Stripped found [] []
  | kept {c : Char} {text left : List Char} :
      (∀ cut rest, c :: text = cut ++ rest → ¬ found cut rest) →
      Stripped found text left → Stripped found (c :: text) (c :: left)
  | taken {text cut rest left : List Char} :
      text = cut ++ rest → found cut rest → Stripped found rest left → Stripped found text left

/-- What is found at the front of a text is there and has one end. -/
structure Delimited (found : List Char → List Char → Prop) : Prop where
  nonempty : ∀ {cut rest}, found cut rest → cut ≠ []
  unique : ∀ {cut rest other otherRest}, found cut rest → found other otherRest →
    cut ++ rest = other ++ otherRest → cut = other

section Stripped

variable {found : List Char → List Char → Prop} {text left other : List Char}

theorem Stripped.unique (delimited : Delimited found) (stripped : Stripped found text left)
    (otherwise : Stripped found text other) : left = other := by
  induction stripped generalizing other with
  | done =>
    cases otherwise with
    | done => rfl
    | taken whole comment _ =>
      have nothing := (List.append_eq_nil_iff.mp whole.symm).1
      exact absurd nothing (delimited.nonempty comment)
  | kept free _ ih =>
    cases otherwise with
    | kept _ later => rw [ih later]
    | taken whole comment _ => exact absurd comment (free _ _ whole)
  | taken whole comment _ ih =>
    cases otherwise with
    | done =>
      have nothing := (List.append_eq_nil_iff.mp whole.symm).1
      exact absurd nothing (delimited.nonempty comment)
    | kept free _ => exact absurd comment (free _ _ whole)
    | taken otherWhole otherComment later =>
      subst whole
      obtain rfl := delimited.unique comment otherComment otherWhole
      obtain rfl := List.append_cancel_left otherWhole
      exact ih later

theorem Stripped.self (free : ∀ front cut rest, text = front ++ (cut ++ rest) → ¬ found cut rest) :
    Stripped found text text := by
  induction text with
  | nil => exact .done
  | cons c text ih =>
    refine .kept (fun cut rest whole => free [] cut rest whole) (ih ?_)
    intro front cut rest whole
    exact free (c :: front) cut rest (by rw [whole, List.cons_append])

end Stripped

/-- A block comment: from its opener to the first closer behind it. -/
def BlockComment (cut _rest : List Char) : Prop :=
  ∃ body, cut = '/' :: '*' :: (body ++ ['*', '/']) ∧ ¬ ['*', '/'] <:+: body

/-- A line comment: from its opener to the end of the line, which stays. -/
def LineComment (cut rest : List Char) : Prop :=
  ∃ body, cut = '/' :: '/' :: body ∧ '\n' ∉ body ∧ ∀ c, rest.head? = some c → c = '\n'

theorem afterClose?_eq_some_iff {text rest : List Char} :
    afterClose? text = some rest ↔
      ∃ body, text = body ++ '*' :: '/' :: rest ∧ ¬ ['*', '/'] <:+: body := by
  fun_induction afterClose? text with
  | case1 => simp
  | case2 after =>
    constructor
    · rintro ⟨⟩
      exact ⟨[], rfl, by simp⟩
    · rintro ⟨body, whole, first⟩
      cases body with
      | nil => simpa using whole
      | cons c body =>
        obtain ⟨rfl, later⟩ := List.cons.inj whole
        cases body with
        | nil => simp at later
        | cons d body =>
          obtain ⟨rfl, _⟩ := List.cons.inj later
          exact absurd ⟨[], body, rfl⟩ first
  | case3 c text early ih =>
    rw [ih]
    constructor
    · rintro ⟨body, rfl, first⟩
      refine ⟨c :: body, rfl, ?_⟩
      intro stands
      rcases List.infix_cons_iff.mp stands with front | later
      · obtain ⟨more, spelled⟩ := front
        simp only [List.cons_append, List.nil_append, List.cons.injEq] at spelled
        obtain ⟨rfl, rfl⟩ := spelled
        exact early _ rfl rfl
      · exact first later
    · rintro ⟨body, whole, first⟩
      cases body with
      | nil =>
        simp only [List.nil_append, List.cons.injEq] at whole
        obtain ⟨rfl, rfl⟩ := whole
        exact absurd rfl (early _ rfl)
      | cons d body =>
        simp only [List.cons_append, List.cons.injEq] at whole
        obtain ⟨rfl, rfl⟩ := whole
        exact ⟨body, rfl, fun stands => first (stands.trans (List.suffix_cons _ _).isInfix)⟩

theorem afterClose?_eq_none_iff {text : List Char} :
    afterClose? text = none ↔ ¬ ['*', '/'] <:+: text := by
  fun_induction afterClose? text with
  | case1 => simp
  | case2 after => simpa using ⟨[], after, rfl⟩
  | case3 c text early ih =>
    rw [ih, List.infix_cons_iff, not_or]
    refine ⟨fun missing => ⟨?_, missing⟩, And.right⟩
    rintro ⟨more, spelled⟩
    simp only [List.cons_append, List.nil_append, List.cons.injEq] at spelled
    obtain ⟨rfl, rfl⟩ := spelled
    exact early _ rfl rfl

theorem delimited_blockComment : Delimited BlockComment where
  nonempty := by
    rintro cut rest ⟨body, rfl, _⟩
    exact List.cons_ne_nil _ _
  unique := by
    rintro cut rest other otherRest ⟨body, rfl, first⟩ ⟨otherBody, rfl, otherFirst⟩ whole
    simp only [List.cons_append, List.append_assoc, List.nil_append, List.cons.injEq, true_and] at whole
    have here : afterClose? (body ++ '*' :: '/' :: rest) = some rest :=
      afterClose?_eq_some_iff.mpr ⟨body, rfl, first⟩
    have there : afterClose? (otherBody ++ '*' :: '/' :: otherRest) = some otherRest :=
      afterClose?_eq_some_iff.mpr ⟨otherBody, rfl, otherFirst⟩
    rw [whole, there] at here
    cases here
    rw [List.append_cancel_right whole]

theorem stripped_dropBlockComments (text : List Char) :
    Stripped BlockComment text (dropBlockComments text) := by
  fun_induction dropBlockComments text with
  | case1 => exact .done
  | case2 c rest opens after closed ih =>
    obtain ⟨body, spelled, first⟩ := afterClose?_eq_some_iff.mp closed
    obtain ⟨rfl, head⟩ := opens
    obtain ⟨tail, rfl⟩ := List.head?_eq_some_iff.mp head
    refine .taken ?_ ⟨body, rfl, first⟩ ih
    rw [List.tail_cons] at spelled
    simp [spelled]
  | case3 c rest opens unclosed =>
    refine .self ?_
    rintro front cut after whole ⟨body, rfl, _⟩
    -- A closer stands at least two characters behind the opener, so it stands in the tail.
    apply afterClose?_eq_none_iff.mp unclosed
    have tail : rest.tail = ((front ++ '/' :: '*' :: body) ++ '*' :: '/' :: after).drop 2 := by
      have both := congrArg (List.drop 2) whole
      simpa using both
    have long : 2 ≤ (front ++ '/' :: '*' :: body).length := by
      simp only [List.length_append, List.length_cons]
      omega
    rw [tail, List.drop_append_of_le_length long]
    exact ⟨(front ++ '/' :: '*' :: body).drop 2, after, by simp⟩
  | case4 c rest plain ih =>
    refine .kept ?_ ih
    rintro cut after whole ⟨body, rfl, _⟩
    simp only [List.cons_append, List.cons.injEq] at whole
    exact plain ⟨whole.1, by simp [whole.2]⟩

theorem stripped_blockComment_iff {text left : List Char} :
    Stripped BlockComment text left ↔ left = dropBlockComments text := by
  constructor
  · intro stripped
    exact stripped.unique delimited_blockComment (stripped_dropBlockComments text)
  · rintro rfl
    exact stripped_dropBlockComments text

theorem line_of_append {body rest : List Char} (inLine : '\n' ∉ body)
    (ends : ∀ c, rest.head? = some c → c = '\n') :
    (body ++ rest).takeWhile (· ≠ '\n') = body ∧ (body ++ rest).dropWhile (· ≠ '\n') = rest := by
  have inside : ∀ c ∈ body, decide (c ≠ '\n') = true := by
    intro c member
    simp only [ne_eq, decide_not, Bool.not_eq_eq_eq_not, Bool.not_true, decide_eq_false_iff_not]
    rintro rfl
    exact inLine member
  rw [List.takeWhile_append_of_pos inside, List.dropWhile_append_of_pos inside]
  cases rest with
  | nil => simp
  | cons c rest => simp [ends c rfl]

theorem delimited_lineComment : Delimited LineComment where
  nonempty := by
    rintro cut rest ⟨body, rfl, _⟩
    exact List.cons_ne_nil _ _
  unique := by
    rintro cut rest other otherRest ⟨body, rfl, inLine, ends⟩ ⟨otherBody, rfl, otherInLine, otherEnds⟩ whole
    simp only [List.cons_append, List.cons.injEq, true_and] at whole
    rw [← (line_of_append inLine ends).1, ← (line_of_append otherInLine otherEnds).1, whole]

theorem lineComment_takeWhile (text : List Char) :
    LineComment ('/' :: '/' :: text.takeWhile (· ≠ '\n')) (text.dropWhile (· ≠ '\n')) := by
  refine ⟨_, rfl, ?_, ?_⟩
  · intro member
    have inLine := List.all_eq_true.mp (List.all_takeWhile (p := fun c => decide (c ≠ '\n'))) _ member
    simp at inLine
  · intro c first
    have stops := List.head?_dropWhile_not (fun c => decide (c ≠ '\n')) text
    rw [first] at stops
    simpa using stops

theorem stripped_dropLineComments (text : List Char) :
    Stripped LineComment text (dropLineComments text) := by
  fun_induction dropLineComments text with
  | case1 => exact .done
  | case2 c rest opens ih =>
    obtain ⟨rfl, head⟩ := opens
    obtain ⟨tail, rfl⟩ := List.head?_eq_some_iff.mp head
    have behind : ('/' :: tail).dropWhile (· ≠ '\n') = tail.dropWhile (· ≠ '\n') := by simp
    have whole : '/' :: '/' :: tail =
        ('/' :: '/' :: tail.takeWhile (· ≠ '\n')) ++ tail.dropWhile (· ≠ '\n') := by
      simp
    rw [behind] at ih ⊢
    exact .taken whole (lineComment_takeWhile tail) ih
  | case3 c rest plain ih =>
    refine .kept ?_ ih
    rintro cut after whole ⟨body, rfl, _⟩
    simp only [List.cons_append, List.cons.injEq] at whole
    exact plain ⟨whole.1, by simp [whole.2]⟩

theorem stripped_lineComment_iff {text left : List Char} :
    Stripped LineComment text left ↔ left = dropLineComments text := by
  constructor
  · intro stripped
    exact stripped.unique delimited_lineComment (stripped_dropLineComments text)
  · rintro rfl
    exact stripped_dropLineComments text

section Taken

variable {found : List Char → List Char → Prop} {text left : List Char}

theorem Stripped.sublist (stripped : Stripped found text left) : left.Sublist text := by
  induction stripped with
  | done => exact .slnil
  | kept _ _ ih => exact ih.cons_cons _
  | taken whole _ _ ih =>
    subst whole
    exact ih.trans (List.sublist_append_right _ _)

theorem Stripped.length_lt (delimited : Delimited found) (stripped : Stripped found text left)
    {front cut rest : List Char} (whole : text = front ++ (cut ++ rest)) (there : found cut rest) :
    left.length < text.length := by
  induction stripped generalizing front with
  | done =>
    have nothing := (List.append_eq_nil_iff.mp (List.append_eq_nil_iff.mp whole.symm).2).1
    exact absurd nothing (delimited.nonempty there)
  | kept free _ ih =>
    cases front with
    | nil => exact absurd there (free _ _ whole)
    | cons d front => exact Nat.succ_lt_succ (ih (List.cons.inj whole).2)
  | taken cutWhole comment later _ =>
    have positive := List.length_pos_iff.mpr (delimited.nonempty comment)
    have sizes := congrArg List.length cutWhole
    have shorter := later.sublist.length_le
    rw [List.length_append] at sizes
    omega

/-- A pass leaves a text alone exactly if nothing is found in it. -/
theorem Stripped.eq_iff (delimited : Delimited found) (stripped : Stripped found text left) :
    left = text ↔ ∀ front cut rest, text = front ++ (cut ++ rest) → ¬ found cut rest := by
  constructor
  · intro same front cut rest whole there
    have shorter := stripped.length_lt delimited whole there
    rw [same] at shorter
    exact Nat.lt_irrefl _ shorter
  · intro free
    exact stripped.unique delimited (.self free)

/-- A block comment stands in the text, closed by a `*/` that does not share its star with the opener. -/
def HoldsBlockComment (text : List Char) : Prop :=
  ∃ front body rest, text = front ++ '/' :: '*' :: (body ++ '*' :: '/' :: rest)

theorem dropBlockComments_eq_self_iff : dropBlockComments text = text ↔ ¬ HoldsBlockComment text := by
  rw [(stripped_dropBlockComments text).eq_iff delimited_blockComment]
  constructor
  · intro free holds
    obtain ⟨front, body, rest, whole⟩ := holds
    -- The comment ends at the first closer, which may come before the one that is known to stand there.
    cases closed : afterClose? (body ++ '*' :: '/' :: rest) with
    | none => exact afterClose?_eq_none_iff.mp closed ⟨body, rest, by simp⟩
    | some after =>
      obtain ⟨first, spelled, clean⟩ := afterClose?_eq_some_iff.mp closed
      refine free front ('/' :: '*' :: (first ++ ['*', '/'])) after ?_ ⟨first, rfl, clean⟩
      simp [whole, spelled]
  · intro none front cut rest whole comment
    obtain ⟨body, rfl, _⟩ := comment
    exact none ⟨front, body, rest, by simp [whole]⟩

theorem dropLineComments_eq_self_iff : dropLineComments text = text ↔ ¬ ['/', '/'] <:+: text := by
  rw [(stripped_dropLineComments text).eq_iff delimited_lineComment]
  constructor
  · intro free stands
    obtain ⟨front, behind, whole⟩ := stands
    refine free front _ _ ?_ (lineComment_takeWhile behind)
    simp [← whole]
  · intro none front cut rest whole comment
    obtain ⟨body, rfl, _⟩ := comment
    exact none ⟨front, body ++ rest, by simp [whole]⟩

end Taken

end PageInliner.Minify
