import PageInliner.Proofs.Minify.Script

/-!
# Comments found by one scanner

A scanner that goes over a script once knows at each place whether it is in a comment, and of which kind:
inside a comment an opener of either kind means nothing. The short form is made by two passes, and the pass
for block comments does not know of line comments. The two agree as long as no line comment holds an opener
of a block comment; where one does, code goes with it.
-/

set_option autoImplicit false

namespace PageInliner.Minify

open Text

/-- What a scanner tells apart in a script. -/
inductive Segment where
  | code (c : Char)
  | lineComment (text : List Char)
  | blockComment (text : List Char)
  /-- A block comment that is not closed: all the rest of the script. -/
  | unclosed (text : List Char)
  deriving Repr, DecidableEq

/-- What the segment leaves when comments are taken out. -/
def Segment.bare : Segment → List Char
  | .code c => [c]
  | _ => []

/-- The segment means the same to the two passes: a comment of either kind is closed, and no line comment holds
an opener of a block comment. -/
def Segment.Separate : Segment → Prop
  | .unclosed _ => False
  | .lineComment text => ¬ ['/', '*'] <:+: text
  | _ => True

instance : DecidablePred Segment.Separate
  | .code _ => .isTrue trivial
  | .lineComment text => inferInstanceAs (Decidable (¬ ['/', '*'] <:+: text))
  | .blockComment _ => .isTrue trivial
  | .unclosed _ => .isFalse id

theorem cut?_after_length_le {key text : List Char} {cut : Cut} (found : cut? key text = some cut) :
    cut.after.length ≤ text.length := by
  have sizes := congrArg List.length (eq_append_of_cut? found)
  simp only [List.length_append] at sizes
  omega

/-- The segments of a script, from left to right. A line comment ends before the line break, a block comment
behind the first closer. -/
def segments : List Char → List Segment
  | [] => []
  | c :: rest =>
    if c = '/' ∧ rest.head? = some '/' then
      .lineComment (c :: rest.takeWhile (· ≠ '\n')) :: segments (rest.dropWhile (· ≠ '\n'))
    else if c = '/' ∧ rest.head? = some '*' then
      match _ : cut? ['*', '/'] rest.tail with
      | some cut => .blockComment ('/' :: '*' :: (cut.before ++ ['*', '/'])) :: segments cut.after
      | none => [.unclosed (c :: rest)]
    else .code c :: segments rest
termination_by text => text.length
decreasing_by
  · have := (List.dropWhile_sublist (l := rest) (· ≠ '\n')).length_le
    simp only [List.length_cons]
    omega
  · have := cut?_after_length_le ‹_›
    simp only [List.length_tail, List.length_cons] at this ⊢
    omega
  · simp

/-- The script without its comments. -/
def withoutComments (text : List Char) : List Char :=
  (segments text).flatMap Segment.bare

section Segments

theorem afterClose?_eq_map_cut? (text : List Char) :
    afterClose? text = (cut? ['*', '/'] text).map Cut.after := by
  fun_induction afterClose? text with
  | case1 => rfl
  | case2 rest =>
    have front := cut?_of_after? (after?_append ['*', '/'] rest)
    exact (congrArg (Option.map Cut.after) front).symm
  | case3 c rest early ih =>
    have stands : after? ['*', '/'] (c :: rest) = none := by
      cases found : after? ['*', '/'] (c :: rest) with
      | none => rfl
      | some behind =>
        have whole := eq_append_of_after? found
        simp only [List.cons_append, List.nil_append, List.cons.injEq] at whole
        exact absurd whole.2 (early behind whole.1)
    rw [cut?, stands, ih, Option.map_map]
    rfl

theorem blockComment_of_cut? {text : List Char} {cut : Cut} (found : cut? ['*', '/'] text = some cut) :
    BlockComment ('/' :: '*' :: (cut.before ++ ['*', '/'])) cut.after := by
  have closed : afterClose? text = some cut.after := by rw [afterClose?_eq_map_cut?, found]; rfl
  obtain ⟨body, spelled, first⟩ := afterClose?_eq_some_iff.mp closed
  have whole := eq_append_of_cut? found
  rw [spelled, List.append_assoc, List.cons_append, List.singleton_append, List.append_cancel_right_eq] at whole
  exact ⟨cut.before, rfl, whole ▸ first⟩

end Segments

section Passes

theorem dropBlockComments_comment {cut rest : List Char} (comment : BlockComment cut rest) :
    dropBlockComments (cut ++ rest) = dropBlockComments rest :=
  (stripped_blockComment_iff.mp (.taken rfl comment (stripped_dropBlockComments rest))).symm

theorem dropLineComments_comment {cut rest : List Char} (comment : LineComment cut rest) :
    dropLineComments (cut ++ rest) = dropLineComments rest :=
  (stripped_lineComment_iff.mp (.taken rfl comment (stripped_dropLineComments rest))).symm

theorem dropBlockComments_append {front rest : List Char} (free : ¬ ['/', '*'] <:+: front)
    (border : front.getLast? = some '/' → rest.head? ≠ some '*') :
    dropBlockComments (front ++ rest) = front ++ dropBlockComments rest := by
  induction front with
  | nil => rfl
  | cons c front ih =>
    rw [pair_infix_cons_iff, not_or] at free
    have plain : ¬ (c = '/' ∧ (front ++ rest).head? = some '*') := by
      intro opens
      cases front with
      | nil => exact border (by simp [opens.1]) opens.2
      | cons d front => exact free.1 opens
    have later : front.getLast? = some '/' → rest.head? ≠ some '*' := by
      intro last
      cases front with
      | nil => cases last
      | cons d front => exact border (by rw [List.getLast?_cons_cons, last])
    rw [List.cons_append, dropBlockComments, if_neg plain, ih free.2 later, List.cons_append]

theorem head?_dropBlockComments_of_code {text : List Char} (slash : text.head? ≠ some '/') :
    (dropBlockComments text).head? = text.head? := by
  cases text with
  | nil => rw [dropBlockComments]
  | cons c text =>
    have plain : ¬ (c = '/' ∧ text.head? = some '*') := fun opens => slash (by simp [opens.1])
    rw [dropBlockComments, if_neg plain, List.head?_cons, List.head?_cons]

end Passes

section Agreement

/-- Where the segments are separate, the two passes leave what the scanner leaves. -/
theorem dropComments_eq_withoutComments {text : List Char}
    (separate : ∀ segment ∈ segments text, segment.Separate) :
    dropLineComments (dropBlockComments text) = withoutComments text := by
  rw [withoutComments]
  fun_induction segments text with
  | case1 => rw [dropBlockComments, dropLineComments, List.flatMap_nil]
  | case2 c rest opens ih =>
    have later := ih fun segment member => separate segment (List.mem_cons_of_mem _ member)
    have free : ¬ ['/', '*'] <:+: c :: rest.takeWhile (· ≠ '\n') := separate _ List.mem_cons_self
    have whole : c :: rest = (c :: rest.takeWhile (· ≠ '\n')) ++ rest.dropWhile (· ≠ '\n') := by simp
    have comment : LineComment (c :: rest.takeWhile (· ≠ '\n')) (rest.dropWhile (· ≠ '\n')) := by
      obtain ⟨rfl, head⟩ := opens
      obtain ⟨tail, rfl⟩ := List.head?_eq_some_iff.mp head
      simpa using lineComment_takeWhile tail
    obtain ⟨body, spelled, inLine, ends⟩ := comment
    -- The line break behind the comment opens nothing, so the first pass stops and goes on there.
    have border : (rest.dropWhile (· ≠ '\n')).head? ≠ some '*' := fun star => absurd (ends _ star) (by decide)
    have slash : (rest.dropWhile (· ≠ '\n')).head? ≠ some '/' := fun star => absurd (ends _ star) (by decide)
    have left : LineComment (c :: rest.takeWhile (· ≠ '\n'))
        (dropBlockComments (rest.dropWhile (· ≠ '\n'))) := by
      refine ⟨body, spelled, inLine, fun d first => ends d ?_⟩
      rw [← first, head?_dropBlockComments_of_code slash]
    rw [whole, dropBlockComments_append free fun _ => border, dropLineComments_comment left, later]
    rfl
  | case3 c rest plain opens cut found ih =>
    have later := ih fun segment member => separate segment (List.mem_cons_of_mem _ member)
    obtain ⟨rfl, head⟩ := opens
    obtain ⟨tail, rfl⟩ := List.head?_eq_some_iff.mp head
    rw [List.tail_cons] at found
    have whole : '/' :: '*' :: tail = ('/' :: '*' :: (cut.before ++ ['*', '/'])) ++ cut.after := by
      simp [eq_append_of_cut? found]
    rw [whole, dropBlockComments_comment (blockComment_of_cut? found), later]
    rfl
  | case4 c rest plain opens missing => exact absurd (separate _ List.mem_cons_self) id
  | case5 c rest plain other ih =>
    have later := ih fun segment member => separate segment (List.mem_cons_of_mem _ member)
    have code : ¬ (c = '/' ∧ (dropBlockComments rest).head? = some '/') := by
      intro opens
      by_cases slash : rest.head? = some '/'
      · exact plain ⟨opens.1, slash⟩
      · rw [head?_dropBlockComments_of_code slash] at opens
        exact slash opens.2
    rw [dropBlockComments, if_neg other, dropLineComments, if_neg code, later]
    rfl

/-- A line comment that holds an opener takes everything with it up to the end of the line on which the next
closer stands, be it code or not. -/
theorem script_of_opener_in_line_comment {note lost tail after : List Char}
    (free : ¬ ['/', '*'] <:+: '/' :: '/' :: note) (first : ¬ ['*', '/'] <:+: lost)
    (tailFree : ¬ ['/', '*'] <:+: tail) (noteLine : '\n' ∉ note) (tailLine : '\n' ∉ tail)
    (ends : ∀ c, after.head? = some c → c = '\n') :
    script (('/' :: '/' :: note) ++ (('/' :: '*' :: (lost ++ ['*', '/'])) ++ (tail ++ after))) = script after := by
  have star : after.head? ≠ some '*' := fun next => absurd (ends _ next) (by decide)
  have slash : after.head? ≠ some '/' := fun next => absurd (ends _ next) (by decide)
  have left : LineComment (('/' :: '/' :: note) ++ tail) (dropBlockComments after) := by
    refine ⟨note ++ tail, rfl, by simp [noteLine, tailLine], fun c next => ends c ?_⟩
    rw [← next, head?_dropBlockComments_of_code slash]
  rw [script_eq_refill, script_eq_refill after, dropBlockComments_append free (fun _ => by simp),
    dropBlockComments_comment ⟨lost, rfl, first⟩, dropBlockComments_append tailFree (fun _ => star),
    ← List.append_assoc, dropLineComments_comment left]

end Agreement

/-- A short script has the solid characters of its code if no line comment holds an opener of a block comment:
no code is lost, and no comment becomes code. -/
theorem solids_script_eq_scanned {text : List Char} (separate : ∀ segment ∈ segments text, segment.Separate) :
    solids (script text) = solids (withoutComments text) := by
  rw [script_eq_refill, solids_refill (fillsBlank_within ruleOfBlanks_scriptGap),
    dropComments_eq_withoutComments separate]

theorem solids_script_eq_scanned_nested :
    let text := "a /* // */ b // */ d\nc".toList
    (∀ segment ∈ segments text, segment.Separate) ∧
      solids (script text) = solids (withoutComments text) ∧ solids (withoutComments text) = ['a', 'b', 'c'] := by
  intro text
  have separate : ∀ segment ∈ segments text, segment.Separate := by decide +kernel
  exact ⟨separate, solids_script_eq_scanned separate, by decide +kernel⟩

/-- The scanner reads code between two comments, and the short form has lost it; the scanner reads nothing but
a comment, and the short form has a slash of it. -/
theorem script_differs_from_scanned :
    let glob := "// src/*.js\nrun();\n/* end */".toList
    let star := "//* note */".toList
    segments glob = .lineComment "// src/*.js".toList ::
        ("\nrun();\n".toList.map .code ++ [.blockComment "/* end */".toList]) ∧
      solids (script glob) = [] ∧ solids (withoutComments glob) = "run();".toList ∧
      segments star = [.lineComment star] ∧ solids (script star) = ['/'] ∧
      solids (withoutComments star) = [] := by
  decide +kernel

end PageInliner.Minify
