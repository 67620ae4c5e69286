import PageInliner.Text.Search

/-!
Comments taken out of a text. Nothing is known of literals: the text is searched from left to right, and
what looks like a comment is one.
-/

set_option autoImplicit false

namespace PageInliner.Minify

open Text

/-- What follows the first `*/` of a text. -/
def afterClose? : List Char → Option (List Char)
  | [] => none
  | '*' :: '/' :: rest => some rest
  | _ :: rest => afterClose? rest

theorem afterClose?_length_lt {text rest : List Char} (closed : afterClose? text = some rest) :
    rest.length < text.length := by
  fun_induction afterClose? text with
  | case1 => cases closed
  | case2 => cases closed; simp only [List.length_cons]; omega
  | case3 _ _ _ ih => have := ih closed; simp only [List.length_cons]; omega

/-- The text without its block comments: each goes from a `/*` to the first `*/` behind it. One that is
never closed stays, and so does all that follows, where no `*/` is left to close another. The two sides
of a comment are not searched as one. -/
def dropBlockComments : List Char → List Char
  | [] => []
  | c :: rest =>
    if c = '/' ∧ rest.head? = some '*' then
      match _ : afterClose? rest.tail with
      | some after => dropBlockComments after
      | none => c :: rest
    else c :: dropBlockComments rest
termination_by text => text.length
decreasing_by
  · have := afterClose?_length_lt ‹_›
    simp only [List.length_tail, List.length_cons] at this ⊢
    omega
  · simp

/-- The text with every `//` and what stands behind it on the line taken out. The line break stays. -/
def dropLineComments : List Char → List Char
  | [] => []
  | c :: rest =>
    if c = '/' ∧ rest.head? = some '/' then dropLineComments (rest.dropWhile (· ≠ '\n'))
    else c :: dropLineComments rest
termination_by text => text.length
decreasing_by
  · have := (List.dropWhile_sublist (l := rest) (· ≠ '\n')).length_le
    simp only [List.length_cons]
    omega
  · simp

end PageInliner.Minify
