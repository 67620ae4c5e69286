import Mathlib.Data.String.Basic
import PageInliner.Minify
import PageInliner.Proofs.Minify.Comments
import PageInliner.Proofs.Minify.Passes

/-!
# What a short form weighs

All passes but one take characters out and put none in; that one puts a space where blanks stood. So no
pass makes a text longer, whether its characters are counted or their bytes.
-/

set_option autoImplicit false

namespace PageInliner.Minify

open Text

/-- The length of a text whose characters count as much as `weight` says. -/
def size (weight : Char → Nat) : List Char → Nat
  | [] => 0
  | c :: text => weight c + size weight text

/-- Every character counts, and none for less than a space. -/
structure Weighing (weight : Char → Nat) : Prop where
  positive : ∀ c, 0 < weight c
  space : ∀ c, weight ' ' ≤ weight c

theorem weighing_one : Weighing fun _ => 1 where
  positive _ := Nat.one_pos
  space _ := Nat.le_refl 1

theorem weighing_utf8Size : Weighing Char.utf8Size where
  positive := Char.utf8Size_pos
  space := Char.utf8Size_pos

theorem size_one (text : String) : size (fun _ => 1) text.toList = text.length := by
  rw [← String.length_toList]
  induction text.toList with
  | nil => rfl
  | cons c text ih => rw [size, ih, List.length_cons, Nat.add_comm]

theorem size_utf8Size (text : String) : size Char.utf8Size text.toList = text.utf8ByteSize := by
  rw [← String.ofList_toList (s := text), String.utf8ByteSize_ofList, String.toList_ofList]
  induction text.toList with
  | nil => rfl
  | cons c text ih => rw [size, ih, String.utf8Len_cons, Nat.add_comm]

section Size

variable {weight : Char → Nat}

theorem size_le_of_sublist {part text : List Char} (sublist : part.Sublist text) :
    size weight part ≤ size weight text := by
  induction sublist with
  | slnil => exact Nat.le_refl _
  | cons c _ ih =>
    rw [size]
    omega
  | cons_cons c _ ih =>
    rw [size, size]
    omega

theorem size_lt_of_sublist (weighing : Weighing weight) {part text : List Char}
    (sublist : part.Sublist text) (differs : part ≠ text) : size weight part < size weight text := by
  induction sublist with
  | slnil => exact absurd rfl differs
  | @cons part text c sublist _ =>
    have positive := weighing.positive c
    have atMost : size weight part ≤ size weight text := size_le_of_sublist sublist
    rw [size]
    omega
  | cons_cons c _ ih =>
    have less := ih fun same => differs (congrArg (c :: ·) same)
    rw [size, size]
    omega

theorem size_squeezeRuns_le (weighing : Weighing weight) (p : Char → Bool) (inRun : Bool) (text : List Char) :
    size weight (squeezeRuns p inRun text) ≤ size weight text := by
  induction text generalizing inRun with
  | nil => exact Nat.le_refl _
  | cons c text ih =>
    have lightest := weighing.space c
    rw [squeezeRuns, size]
    split
    · split
      · have later := ih true
        omega
      · have later := ih true
        rw [size]
        omega
    · have later := ih false
      rw [size]
      omega

end Size

section Passes

theorem tightenFrom_sublist (isMark : Char → Bool) (touching : Bool) (text : List Char) :
    (tightenFrom isMark touching text).1.Sublist text := by
  induction text generalizing touching with
  | nil => exact .slnil
  | cons c text ih =>
    simp only [tightenFrom]
    split
    · split
      · exact (ih touching).cons c
      · exact (ih touching).cons_cons c
    · exact (ih (isMark c)).cons_cons c

theorem trimEnd_sublist (text : List Char) : (trimEnd text).Sublist text := by
  have back : (text.reverse.dropWhile isBlank).Sublist text.reverse := List.dropWhile_sublist _
  have front := back.reverse
  rwa [List.reverse_reverse] at front

theorem trim_sublist (text : List Char) : (trim text).Sublist text :=
  (trimEnd_sublist _).trans (List.dropWhile_sublist _)

theorem dropLastSemicolons_sublist (text : List Char) : (dropLastSemicolons text).Sublist text := by
  induction text with
  | nil => exact .slnil
  | cons c text ih =>
    rw [dropLastSemicolons]
    split
    · exact ih.cons c
    · exact ih.cons_cons c

end Passes

section Short

variable {weight : Char → Nat}

theorem size_style_le (weighing : Weighing weight) (text : List Char) :
    size weight (style text) ≤ size weight (dropBlockComments text) := by
  have thinned : (style text).Sublist (squeezeBlanks (dropBlockComments text)) :=
    (trim_sublist _).trans ((dropLastSemicolons_sublist _).trans (tightenFrom_sublist isStyleMark false _))
  calc size weight (style text)
      ≤ size weight (squeezeBlanks (dropBlockComments text)) := size_le_of_sublist thinned
    _ ≤ size weight (dropBlockComments text) := size_squeezeRuns_le weighing isBlank false _

theorem size_script_le (weighing : Weighing weight) (text : List Char) :
    size weight (script text) ≤ size weight (dropLineComments (dropBlockComments text)) := by
  have thinned : (script text).Sublist
      (squeezeSpacing (joinBlankLines (dropLineComments (dropBlockComments text)))) :=
    (trim_sublist _).trans ((tightenFrom_sublist isScriptMark false _).trans (joinLines_sublist _))
  calc size weight (script text)
      ≤ size weight (squeezeSpacing (joinBlankLines (dropLineComments (dropBlockComments text)))) :=
        size_le_of_sublist thinned
    _ ≤ size weight (joinBlankLines (dropLineComments (dropBlockComments text))) :=
        size_squeezeRuns_le weighing _ false _
    _ ≤ size weight (dropLineComments (dropBlockComments text)) :=
        size_le_of_sublist (joinBlankLinesFrom_sublist false _)

end Short

end PageInliner.Minify
