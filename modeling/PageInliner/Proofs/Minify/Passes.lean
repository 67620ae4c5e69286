import PageInliner.Minify.Spacing
import PageInliner.Proofs.Text.Spaced

/-!
# Passes over blanks, gap by gap

Each pass that takes blanks out of a text fills the gaps between solid characters anew. So a row of passes
is one filling, and it is enough to know what the passes make of a single gap.
-/

set_option autoImplicit false

namespace PageInliner.Minify

open Text

section Pairs

variable {a b c : Char} {front text : List Char}

theorem pair_prefix_cons_iff : [a, b] <+: c :: text ↔ c = a ∧ text.head? = some b := by
  cases text with
  | nil => simp
  | cons d text => simp [List.cons_prefix_cons, eq_comm]

theorem pair_infix_cons_iff :
    [a, b] <:+: c :: text ↔ c = a ∧ text.head? = some b ∨ [a, b] <:+: text := by
  rw [List.infix_cons_iff, pair_prefix_cons_iff]

theorem pair_infix_append_iff :
    [a, b] <:+: front ++ text ↔
      [a, b] <:+: front ∨ [a, b] <:+: text ∨ front.getLast? = some a ∧ text.head? = some b := by
  induction front with
  | nil => simp
  | cons c front ih =>
    rw [List.cons_append, pair_infix_cons_iff, pair_infix_cons_iff, ih]
    cases front with
    | nil => simp [or_comm]
    | cons d front => simp [or_assoc]

end Pairs

section Runs

variable {p : Char → Bool}

theorem squeezeRuns_append (inRun : Bool) (gap rest : List Char) {c : Char} (stops : p c = false) :
    squeezeRuns p inRun (gap ++ c :: rest) = squeezeRuns p inRun gap ++ c :: squeezeRuns p false rest := by
  induction gap generalizing inRun with
  | nil => simp [squeezeRuns, stops]
  | cons d gap ih =>
    simp only [List.cons_append, squeezeRuns, ih]
    cases p d <;> cases inRun <;> rfl

theorem mem_squeezeRuns {inRun : Bool} {text : List Char} {c : Char} (member : c ∈ squeezeRuns p inRun text) :
    c = ' ' ∨ p c = false ∧ c ∈ text := by
  induction text generalizing inRun with
  | nil => cases member
  | cons d text ih =>
    rw [squeezeRuns] at member
    split at member
    case isTrue runs =>
      split at member
      · exact (ih member).imp_right (And.imp_right (List.mem_cons_of_mem d))
      · rcases List.mem_cons.mp member with same | later
        · exact .inl same
        · exact (ih later).imp_right (And.imp_right (List.mem_cons_of_mem d))
    case isFalse stops =>
      rcases List.mem_cons.mp member with rfl | later
      · exact .inr ⟨by simpa using stops, List.mem_cons_self⟩
      · exact (ih later).imp_right (And.imp_right (List.mem_cons_of_mem d))

theorem allBlank_squeezeRuns {gap : List Char} (blank : allBlank gap = true) :
    allBlank (squeezeRuns p false gap) = true := by
  rw [allBlank, List.all_eq_true]
  intro c member
  rcases mem_squeezeRuns member with rfl | ⟨_, among⟩
  · decide
  · exact isBlank_of_mem blank among

theorem squeezeRuns_ne_nil {gap : List Char} (there : gap ≠ []) : squeezeRuns p false gap ≠ [] := by
  cases gap with
  | nil => exact absurd rfl there
  | cons c gap =>
    rw [squeezeRuns]
    split <;> simp

theorem squeezeBlanks_eq_refill (left : Option Char) (text : List Char) :
    squeezeBlanks text = refill (fun _ gap _ => squeezeBlanks gap) left text :=
  eq_refill_of_apart (fun gap _ rest _ solid => squeezeRuns_append false gap rest solid) text

theorem fillsBlank_squeezeBlanks : FillsBlank fun _ gap _ => squeezeBlanks gap :=
  fun _ _ _ blank => allBlank_squeezeRuns blank

theorem squeezeBlanks_gap {gap : List Char} (blank : allBlank gap = true) :
    squeezeBlanks gap = if gap.isEmpty then [] else [' '] := by
  have within : ∀ gap, allBlank gap = true → squeezeRuns isBlank true gap = [] := by
    intro gap blank
    induction gap with
    | nil => rfl
    | cons c gap ih =>
      obtain ⟨here, later⟩ := allBlank_cons.mp blank
      simp [squeezeRuns, here, ih later]
  cases gap with
  | nil => rfl
  | cons c gap =>
    obtain ⟨here, later⟩ := allBlank_cons.mp blank
    simp [squeezeBlanks, squeezeRuns, here, within gap later]

theorem squeezeSpacing_eq_refill (left : Option Char) (text : List Char) :
    squeezeSpacing text = refill (fun _ gap _ => squeezeSpacing gap) left text := by
  refine eq_refill_of_apart (fun gap c rest _ solid => squeezeRuns_append false gap rest ?_) text
  rw [Bool.or_eq_false_iff, beq_eq_false_iff_ne, beq_eq_false_iff_ne]
  constructor <;> rintro rfl <;> cases solid

theorem fillsBlank_squeezeSpacing : FillsBlank fun _ gap _ => squeezeSpacing gap :=
  fun _ _ _ blank => allBlank_squeezeRuns blank

/-- Squeezed text has no two spaces together, and none at its front that belongs to a run before it. -/
theorem squeezeRuns_apart (space : p ' ' = true) (inRun : Bool) (text : List Char) :
    ¬ [' ', ' '] <:+: squeezeRuns p inRun text ∧
      (inRun = true → (squeezeRuns p inRun text).head? ≠ some ' ') := by
  induction text generalizing inRun with
  | nil => simp [squeezeRuns]
  | cons c text ih =>
    rw [squeezeRuns]
    split
    case isTrue runs =>
      have later := ih true
      cases inRun with
      | true => exact later
      | false =>
        have apart := later.2 rfl
        refine ⟨?_, nofun⟩
        rw [if_neg Bool.false_ne_true, pair_infix_cons_iff, not_or]
        exact ⟨fun double => apart double.2, later.1⟩
    case isFalse stops =>
      have other : c ≠ ' ' := by
        intro same
        exact stops (same ▸ space)
      refine ⟨?_, fun _ first => other (Option.some.inj first)⟩
      rw [pair_infix_cons_iff, not_or]
      exact ⟨fun double => other double.1, (ih false).1⟩

theorem head?_squeezeRuns (text : List Char) :
    (squeezeRuns p false text).head? = text.head?.map fun c => if p c then ' ' else c := by
  cases text with
  | nil => rfl
  | cons c text =>
    rw [squeezeRuns]
    cases runs : p c <;> simp [runs]

theorem getLast?_squeezeRuns (text : List Char) :
    (squeezeRuns p false text).getLast? = text.getLast?.map fun c => if p c then ' ' else c := by
  let squeezed := fun c => if p c then ' ' else c
  -- Inside a run the space that stands for it has been put already.
  have both : (squeezeRuns p false text).getLast? = text.getLast?.map squeezed ∧
      (squeezeRuns p true text).getLast?.getD ' ' = squeezed (text.getLast?.getD ' ') := by
    induction text with
    | nil => simp [squeezeRuns, squeezed]
    | cons c text ih =>
      rw [squeezeRuns, squeezeRuns]
      cases runs : p c <;> cases last : text.getLast? <;>
        simp [List.getLast?_cons, runs, last, ih, squeezed]
  exact both.1

theorem squeezeRuns_eq_self {text : List Char} (onlySpaces : ∀ c ∈ text, p c = true → c = ' ')
    (apart : ¬ [' ', ' '] <:+: text) (inRun : Bool) (starts : inRun = true → text.head? ≠ some ' ') :
    squeezeRuns p inRun text = text := by
  induction text generalizing inRun with
  | nil => rfl
  | cons c text ih =>
    have onlyLater : ∀ d ∈ text, p d = true → d = ' ' :=
      fun d member => onlySpaces d (List.mem_cons_of_mem c member)
    rw [pair_infix_cons_iff, not_or] at apart
    rw [squeezeRuns]
    split
    case isTrue runs =>
      obtain rfl := onlySpaces c List.mem_cons_self runs
      cases inRun with
      | true => exact absurd rfl (starts rfl)
      | false =>
        have next : text.head? ≠ some ' ' := fun first => apart.1 ⟨rfl, first⟩
        rw [if_neg Bool.false_ne_true, ih onlyLater apart.2 true fun _ => next]
    case isFalse =>
      rw [ih onlyLater apart.2 false nofun]

theorem squeezeRuns_sublist {text : List Char} (onlySpaces : ∀ c ∈ text, p c = true → c = ' ')
    (inRun : Bool) : (squeezeRuns p inRun text).Sublist text := by
  induction text generalizing inRun with
  | nil => exact .slnil
  | cons c text ih =>
    have later := ih fun d member => onlySpaces d (List.mem_cons_of_mem c member)
    rw [squeezeRuns]
    split
    case isTrue runs =>
      split
      · exact (later true).cons c
      · rw [onlySpaces c List.mem_cons_self runs]
        exact (later true).cons_cons ' '
    case isFalse => exact (later false).cons_cons c

theorem eq_space_of_spacing {text : List Char} (noTab : '\t' ∉ text) :
    ∀ c ∈ text, (c == ' ' || c == '\t') = true → c = ' ' := by
  intro c member spacing
  rw [Bool.or_eq_true, beq_iff_eq, beq_iff_eq] at spacing
  cases spacing with
  | inl space => exact space
  | inr tab => exact absurd (tab ▸ member) noTab

theorem squeezeSpacing_sublist {text : List Char} (noTab : '\t' ∉ text) :
    (squeezeSpacing text).Sublist text :=
  squeezeRuns_sublist (eq_space_of_spacing noTab) false

theorem squeezeSpacing_eq_self_iff {text : List Char} (noTab : '\t' ∉ text) :
    squeezeSpacing text = text ↔ ¬ [' ', ' '] <:+: text := by
  constructor
  · intro same
    rw [← same]
    exact (squeezeRuns_apart rfl false text).1
  · intro apart
    exact squeezeRuns_eq_self (eq_space_of_spacing noTab) apart false nofun

end Runs

section Lines

theorem joinLines_append (gap rest : List Char) {c : Char} (solid : isBlank c = false) :
    joinLines (gap ++ c :: rest) = joinLines gap ++ c :: joinLines rest := by
  have noBreak : c ≠ '\n' := by rintro rfl; cases solid
  have noReturn : c ≠ '\r' := by rintro rfl; cases solid
  induction gap with
  | nil => simp [joinLines, noBreak, noReturn]
  | cons d gap ih =>
    have next : (gap ++ c :: rest).head? = some '\n' ↔ gap.head? = some '\n' := by
      cases gap <;> simp [noBreak]
    simp only [List.cons_append, joinLines, ih, next]
    split <;> rfl

theorem joinLines_sublist (text : List Char) : (joinLines text).Sublist text := by
  induction text with
  | nil => exact .slnil
  | cons c text ih =>
    rw [joinLines]
    split
    · exact ih.cons c
    · exact ih.cons_cons c

theorem newline_not_mem_joinLines (text : List Char) : '\n' ∉ joinLines text := by
  induction text with
  | nil => simp [joinLines]
  | cons c text ih =>
    rw [joinLines]
    split
    case isTrue => exact ih
    case isFalse stays =>
      rw [List.mem_cons, not_or]
      refine ⟨?_, ih⟩
      rintro rfl
      exact stays rfl

theorem joinLines_of_no_newline {text : List Char} (oneLine : '\n' ∉ text) : joinLines text = text := by
  induction text with
  | nil => rfl
  | cons c text ih =>
    rw [List.mem_cons, not_or] at oneLine
    obtain ⟨noBreak, later⟩ := oneLine
    have noNext : text.head? ≠ some '\n' := fun next => later (List.mem_of_head? next)
    rw [joinLines, if_neg (by simp [Ne.symm noBreak, noNext]), ih later]

theorem joinLines_eq_refill (left : Option Char) (text : List Char) :
    joinLines text = refill (fun _ gap _ => joinLines gap) left text :=
  eq_refill_of_apart (fun gap _ rest _ solid => joinLines_append gap rest solid) text

theorem fillsBlank_joinLines : FillsBlank fun _ gap _ => joinLines gap :=
  fun _ gap _ blank => allBlank_of_subset blank (joinLines_sublist gap).subset

theorem newlineAhead_append {gap rest : List Char} {c : Char} (blank : allBlank gap = true)
    (solid : isBlank c = false) : newlineAhead (gap ++ c :: rest) = newlineAhead gap := by
  rw [newlineAhead, (takeWhile_gap blank solid).1, newlineAhead, takeWhile_of_blank blank]

theorem joinBlankLinesFrom_append (broken : Bool) {gap rest : List Char} {c : Char}
    (blank : allBlank gap = true) (solid : isBlank c = false) :
    (joinBlankLinesFrom broken (gap ++ c :: rest)).1 =
      (joinBlankLinesFrom broken gap).1 ++ c :: joinBlankLines rest := by
  induction gap generalizing broken with
  | nil => simp [joinBlankLinesFrom, joinBlankLines, solid]
  | cons d gap ih =>
    obtain ⟨here, later⟩ := allBlank_cons.mp blank
    simp only [List.cons_append, joinBlankLinesFrom, here, ↓reduceIte, joinBlankLinesFrom_ahead,
      newlineAhead_append later solid, ih _ later]
    split <;> rfl

theorem joinBlankLinesFrom_sublist (broken : Bool) (text : List Char) :
    (joinBlankLinesFrom broken text).1.Sublist text := by
  induction text generalizing broken with
  | nil => exact .slnil
  | cons c text ih =>
    simp only [joinBlankLinesFrom]
    split
    · split
      · exact (ih _).cons c
      · exact (ih _).cons_cons c
    · exact (ih _).cons_cons c

theorem newlineAhead_of_not_mem {text : List Char} (oneLine : '\n' ∉ text) : newlineAhead text = false := by
  rw [newlineAhead, List.contains_eq_mem, decide_eq_false_iff_not]
  intro member
  exact oneLine ((List.takeWhile_sublist isBlank).subset member)

theorem joinBlankLinesFrom_of_no_newline (broken : Bool) {text : List Char} (oneLine : '\n' ∉ text) :
    (joinBlankLinesFrom broken text).1 = text := by
  induction text generalizing broken with
  | nil => rfl
  | cons c text ih =>
    rw [List.mem_cons, not_or] at oneLine
    obtain ⟨_, later⟩ := oneLine
    simp only [joinBlankLinesFrom, joinBlankLinesFrom_ahead, newlineAhead_of_not_mem later, ih _ later,
      Bool.and_false, Bool.false_eq_true, ↓reduceIte]
    split <;> rfl

theorem joinBlankLines_eq_refill (left : Option Char) (text : List Char) :
    joinBlankLines text = refill (fun _ gap _ => joinBlankLines gap) left text :=
  eq_refill_of_apart (fun _ _ _ blank solid => joinBlankLinesFrom_append false blank solid) text

theorem fillsBlank_joinBlankLines : FillsBlank fun _ gap _ => joinBlankLines gap :=
  fun _ gap _ blank => allBlank_of_subset blank (joinBlankLinesFrom_sublist false gap).subset

end Lines

section Marks

variable {isMark : Char → Bool}

/-- A gap beside a mark is closed, any other stays. -/
def tightFilling (isMark : Char → Bool) : Filling :=
  fun left gap right => if left.any isMark || right.any isMark then [] else gap

theorem fillsBlank_tightFilling : FillsBlank (tightFilling isMark) := by
  intro left gap right blank
  unfold tightFilling
  split
  · rfl
  · exact blank

theorem nextSatisfies_append {p : Char → Bool} {gap rest : List Char} {c : Char}
    (blank : allBlank gap = true) (solid : isBlank c = false) :
    nextSatisfies p (gap ++ c :: rest) = p c := by
  rw [nextSatisfies, trimStart, (takeWhile_gap blank solid).2]

theorem nextSatisfies_of_blank {p : Char → Bool} {gap : List Char} (blank : allBlank gap = true) :
    nextSatisfies p gap = false := by
  rw [nextSatisfies, trimStart, dropWhile_of_blank blank]

theorem nextSatisfies_eq_head?_solids (p : Char → Bool) (text : List Char) :
    nextSatisfies p text = (solids text).head?.any p := by
  cases text using gap_induction with
  | gap gap blank => rw [nextSatisfies_of_blank blank, solids_of_blank blank, List.head?_nil, Option.any_none]
  | solid gap c rest blank solid =>
    rw [nextSatisfies_append blank solid, solids_append, solids_of_blank blank, solids_cons_of_solid solid,
      List.nil_append, List.head?_cons, Option.any_some]

theorem tightenFrom_gap (touching : Bool) {gap : List Char} (blank : allBlank gap = true) :
    (tightenFrom isMark touching gap).1 = if touching then [] else gap := by
  induction gap with
  | nil => cases touching <;> rfl
  | cons c gap ih =>
    obtain ⟨here, later⟩ := allBlank_cons.mp blank
    simp only [tightenFrom, here, ↓reduceIte, tightenFrom_ahead, nextSatisfies_of_blank later, ih later,
      Bool.or_false]
    cases touching <;> rfl

theorem tightenFrom_append (touching : Bool) {gap rest : List Char} {c : Char}
    (blank : allBlank gap = true) (solid : isBlank c = false) :
    (tightenFrom isMark touching (gap ++ c :: rest)).1 =
      (if touching || isMark c then [] else gap) ++ c :: (tightenFrom isMark (isMark c) rest).1 := by
  induction gap with
  | nil => simp [tightenFrom, solid]
  | cons d gap ih =>
    obtain ⟨here, later⟩ := allBlank_cons.mp blank
    simp only [List.cons_append, tightenFrom, here, ↓reduceIte, tightenFrom_ahead,
      nextSatisfies_append later solid, ih later]
    split <;> rfl

theorem tightenFrom_eq_refill (left : Option Char) (text : List Char) :
    (tightenFrom isMark (left.any isMark) text).1 = refill (tightFilling isMark) left text := by
  induction text using gap_induction generalizing left with
  | gap gap blank =>
    rw [tightenFrom_gap _ blank, refill_gap blank, tightFilling]
    simp
  | solid gap c rest blank solid ih =>
    rw [tightenFrom_append _ blank solid, refill_solid blank solid, tightFilling]
    have behind := ih (some c)
    rw [Option.any_some] at behind
    rw [behind]
    rfl

theorem tighten_eq_refill (text : List Char) :
    tighten isMark text = refill (tightFilling isMark) none text :=
  tightenFrom_eq_refill none text

end Marks

section Ends

theorem trimEnd_of_blank {gap : List Char} (blank : allBlank gap = true) : trimEnd gap = [] := by
  have back : allBlank gap.reverse = true :=
    allBlank_of_subset blank fun _ member => List.mem_reverse.mp member
  rw [trimEnd, dropWhile_of_blank back, List.reverse_nil]

theorem trimEnd_append (front rest : List Char) {c : Char} (solid : isBlank c = false) :
    trimEnd (front ++ c :: rest) = front ++ c :: trimEnd rest := by
  simp only [trimEnd, List.reverse_append, List.reverse_cons, List.append_assoc, List.dropWhile_append]
  split
  case isTrue empty =>
    rw [List.isEmpty_iff] at empty
    simp [empty, solid]
  case isFalse => simp

theorem trimEnd_eq_refill (left : Char) (text : List Char) :
    trimEnd text = refill (within fun _ gap _ => gap) (some left) text := by
  induction text using gap_induction generalizing left with
  | gap gap blank =>
    rw [trimEnd_of_blank blank, refill_gap blank]
    rfl
  | solid gap c rest blank solid ih =>
    rw [trimEnd_append gap rest solid, refill_solid blank solid, ih c]
    rfl

theorem trim_eq_refill (text : List Char) : trim text = refill (within fun _ gap _ => gap) none text := by
  cases text using gap_induction with
  | gap gap blank =>
    rw [trim, trimStart, dropWhile_of_blank blank, refill_gap blank]
    rfl
  | solid gap c rest blank solid =>
    have front := trimEnd_append [] rest solid
    rw [List.nil_append, List.nil_append] at front
    rw [trim, trimStart, (takeWhile_gap blank solid).2, refill_solid blank solid, front,
      trimEnd_eq_refill c rest]
    rfl

theorem trim_tighten {isMark : Char → Bool} (text : List Char) :
    trim (tighten isMark text) =
      refill (within fun a gap b => if isMark a || isMark b then [] else gap) none text := by
  rw [tighten_eq_refill, trim_eq_refill, refill_refill fillsBlank_tightFilling]
  refine refill_congr (fun left gap right _ => ?_) text
  cases left with
  | none => rfl
  | some a => cases right <;> rfl

end Ends

end PageInliner.Minify
