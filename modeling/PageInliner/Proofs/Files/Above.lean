import PageInliner.Files.Machine

/-!
# The directories that a path asks for

The directories that are made for a file are found by taking pieces off the text of its path. Each of these
shorter paths goes the same way as the path of the file, but not as far.
-/

set_option autoImplicit false

namespace PageInliner

namespace Path

theorem splitSeparators_append (first second : List Char) :
    splitSeparators (first ++ '/' :: second) = splitSeparators first ++ splitSeparators second := by
  induction first with
  | nil => simp [splitSeparators]
  | cons c first ih =>
    simp only [List.cons_append, splitSeparators, ih]
    split
    case isTrue => rfl
    case isFalse =>
      cases pieces : splitSeparators first with
      | nil => exact absurd pieces (splitSeparators_ne_nil first)
      | cons piece pieces => rfl

private theorem splitSeparators_of_solid {text : List Char} (solid : '/' ∉ text) :
    splitSeparators text = [text] := by
  induction text with
  | nil => rfl
  | cons c text ih =>
    rw [List.mem_cons, not_or] at solid
    rw [splitSeparators, if_neg (Ne.symm solid.1), ih solid.2]

private theorem solid_of_mem_splitSeparators (text : List Char) {piece : List Char}
    (member : piece ∈ splitSeparators text) : '/' ∉ piece := by
  induction text generalizing piece with
  | nil =>
    rw [splitSeparators, List.mem_singleton] at member
    rw [member]
    exact List.not_mem_nil
  | cons c text ih =>
    simp only [splitSeparators] at member
    split at member
    case isTrue =>
      rcases List.mem_cons.mp member with rfl | later
      · exact List.not_mem_nil
      · exact ih later
    case isFalse notSlash =>
      cases pieces : splitSeparators text with
      | nil => exact absurd pieces (splitSeparators_ne_nil text)
      | cons first pieces' =>
        rw [pieces] at member ih
        rcases List.mem_cons.mp member with rfl | later
        · rw [List.mem_cons, not_or]
          exact ⟨Ne.symm notSlash, ih List.mem_cons_self⟩
        · exact ih (List.mem_cons_of_mem _ later)

theorem joinSeparators_append {first second : List (List Char)} (nonempty : first ≠ [])
    (more : second ≠ []) :
    joinSeparators (first ++ second) = joinSeparators first ++ '/' :: joinSeparators second := by
  induction first with
  | nil => exact absurd rfl nonempty
  | cons piece first ih =>
    cases first with
    | nil =>
      cases second with
      | nil => exact absurd rfl more
      | cons next second => rfl
    | cons next first =>
      have rest := ih (List.cons_ne_nil _ _)
      simp only [List.cons_append, joinSeparators] at rest ⊢
      rw [rest, List.append_assoc, List.cons_append]

theorem splitSeparators_joinSeparators {pieces : List (List Char)} (nonempty : pieces ≠ [])
    (solid : ∀ piece ∈ pieces, '/' ∉ piece) : splitSeparators (joinSeparators pieces) = pieces := by
  induction pieces with
  | nil => exact absurd rfl nonempty
  | cons piece pieces ih =>
    rw [List.forall_mem_cons] at solid
    cases pieces with
    | nil => exact splitSeparators_of_solid solid.1
    | cons next pieces =>
      rw [joinSeparators, splitSeparators_append, splitSeparators_of_solid solid.1,
        ih (List.cons_ne_nil _ _) solid.2]
      · rfl
      · exact List.cons_ne_nil _ _

private theorem joinSeparators_ne_nil {pieces : List (List Char)} {piece : List Char}
    (member : piece ∈ pieces) (nonempty : piece ≠ []) : joinSeparators pieces ≠ [] := by
  induction pieces with
  | nil => simp at member
  | cons first pieces ih =>
    cases pieces with
    | nil =>
      rw [List.mem_singleton] at member
      rw [joinSeparators, ← member]
      exact nonempty
    | cons next pieces => simp [joinSeparators]

private theorem lead_prefix (text : List Char) : lead text <+: text := by
  unfold lead
  split
  · exact ⟨_, rfl⟩
  · exact ⟨[], rfl⟩
  · exact ⟨_, rfl⟩
  · exact List.nil_prefix

private theorem ne_nil_of_named {piece : List Char} (named : isIdle piece = false) : piece ≠ [] := by
  rintro rfl
  cases named

/-- Behind what is left when the last name has been taken off there stands that name. -/
private theorem exists_last_name {pieces rest : List (List Char)} (nonempty : rest ≠ [])
    (taken : (pieces.dropWhile isIdle).tail = rest) :
    ∃ last idle, isIdle last = false ∧ pieces = idle ++ last :: rest := by
  induction pieces with
  | nil => exact absurd taken.symm nonempty
  | cons piece pieces ih =>
    cases idle : isIdle piece with
    | true =>
      rw [List.dropWhile_cons_of_pos idle] at taken
      obtain ⟨last, before, named, spelled⟩ := ih taken
      exact ⟨last, piece :: before, named, by rw [spelled, List.cons_append]⟩
    | false =>
      rw [List.dropWhile_cons_of_neg (by simp [idle])] at taken
      exact ⟨piece, [], idle, by rw [← taken]; rfl⟩

end Path

namespace Machine

def namesIn (text : List Char) : List String :=
  ((Path.splitSeparators text).filter (· ≠ [])).map String.ofList

theorem closedSteps_eq_namesIn (path : Path) : closedSteps path = namesIn path.text.toList := by
  unfold closedSteps Path.steps
  change (if path.endsOpen then (if path.endsOpen && !(namesIn path.text.toList).isEmpty then
      namesIn path.text.toList ++ ["."] else namesIn path.text.toList).dropLast
    else if path.endsOpen && !(namesIn path.text.toList).isEmpty then
      namesIn path.text.toList ++ ["."] else namesIn path.text.toList) = namesIn path.text.toList
  generalize namesIn path.text.toList = names
  cases path.endsOpen with
  | false => rfl
  | true =>
    cases names with
    | nil => rfl
    | cons name names => exact List.dropLast_concat

theorem namesIn_append (first second : List Char) :
    namesIn (first ++ '/' :: second) = namesIn first ++ namesIn second := by
  simp only [namesIn, Path.splitSeparators_append, List.filter_append, List.map_append]

/-- The one path goes the way of the other, but not as far. -/
def IsAbove (short long : Path) : Prop :=
  short.isAbsolute = long.isAbsolute ∧
    ∃ rest, rest ≠ [] ∧ closedSteps long = closedSteps short ++ rest

/-- A path is above another one if it stops before a separator behind which there is still a name. -/
theorem isAbove_of_text {short long : Path} (more : List Char) (nonempty : short.text.toList ≠ [])
    (named : namesIn more ≠ []) (text : long.text.toList = short.text.toList ++ '/' :: more) :
    IsAbove short long := by
  constructor
  · obtain ⟨c, rest, spelled⟩ := List.exists_cons_of_ne_nil nonempty
    rw [Path.isAbsolute, Path.isAbsolute, text, spelled]
    rfl
  · refine ⟨namesIn more, named, ?_⟩
    rw [closedSteps_eq_namesIn, closedSteps_eq_namesIn, text, namesIn_append]

/-- What is left of the pieces of a path when its last name is taken off and then further pieces, as long as
a name is left at the end, is a path that stops before a separator of the path. -/
theorem text_of_pieces {path : Path} {front more : List (List Char)} {piece : List Char}
    (pieces : (path.piecesBack.dropWhile Path.isIdle).tail = front ++ piece :: more)
    (named : Path.isIdle piece = false) :
    let short := Path.ofPiecesBack (Path.lead path.text.toList) (piece :: more)
    short.text.toList ≠ [] ∧
      ∃ behind, namesIn behind ≠ [] ∧ path.text.toList = short.text.toList ++ '/' :: behind := by
  intro short
  obtain ⟨last, idle, lastNamed, whole⟩ := Path.exists_last_name (by simp) pieces
  obtain ⟨rest, spelled⟩ := Path.lead_prefix path.text.toList
  have backwards : path.piecesBack = (Path.splitSeparators rest).reverse := by
    have behindLead := congrArg (List.drop (Path.lead path.text.toList).length) spelled
    rw [List.drop_left] at behindLead
    rw [Path.piecesBack, ← behindLead]
  -- In the order of the path: the pieces that stay, and behind them those that were taken off.
  let behind := (idle ++ last :: front).reverse
  have member : last ∈ behind := by simp [behind]
  have split : Path.splitSeparators rest = (piece :: more).reverse ++ behind := by
    rw [← List.reverse_reverse (Path.splitSeparators rest), ← backwards, whole]
    simp [behind]
  have solid : ∀ piece ∈ behind, '/' ∉ piece := by
    intro piece among
    apply Path.solid_of_mem_splitSeparators rest
    rw [split]
    exact List.mem_append_right _ among
  have text : short.text.toList =
      Path.lead path.text.toList ++ Path.joinSeparators (piece :: more).reverse := String.toList_ofList
  refine ⟨?_, Path.joinSeparators behind, ?_, ?_⟩
  · have among : piece ∈ (piece :: more).reverse := by simp
    have joined := Path.joinSeparators_ne_nil among (Path.ne_nil_of_named named)
    rw [text]
    exact List.append_ne_nil_of_right_ne_nil _ joined
  · rw [namesIn, Path.splitSeparators_joinSeparators (List.ne_nil_of_mem member) solid]
    apply List.ne_nil_of_mem (a := String.ofList last)
    apply List.mem_map_of_mem
    simp [member, Path.ne_nil_of_named lastNamed]
  · have joined := Path.joinSeparators_splitSeparators rest
    rw [split, Path.joinSeparators_append (by simp) (List.ne_nil_of_mem member)] at joined
    rw [text, List.append_assoc, joined, spelled]

theorem isAbove_of_pieces {path : Path} {front more : List (List Char)} {piece : List Char}
    (pieces : (path.piecesBack.dropWhile Path.isIdle).tail = front ++ piece :: more)
    (named : Path.isIdle piece = false) :
    IsAbove (Path.ofPiecesBack (Path.lead path.text.toList) (piece :: more)) path := by
  obtain ⟨nonempty, behind, further, text⟩ := text_of_pieces pieces named
  exact isAbove_of_text behind nonempty further text

theorem steps_eq_closedSteps (path : Path) :
    path.steps = closedSteps path ∨ path.steps = closedSteps path ++ ["."] := by
  unfold closedSteps Path.steps
  dsimp only
  generalize ((Path.splitSeparators path.text.toList).filter (· ≠ [])).map String.ofList = names
  cases path.endsOpen with
  | false => exact .inl rfl
  | true =>
    cases names with
    | nil => exact .inl rfl
    | cons name names => exact .inr (congrArg (· ++ ["."]) List.dropLast_concat.symm)

/-- A lead and the pieces behind it, as they come from a path. -/
structure Spells (lead : List Char) (pieces : List (List Char)) : Prop where
  solid : ∀ piece ∈ pieces, '/' ∉ piece
  lead : lead = [] ∨ lead = ['/'] ∨ lead = ['.'] ∧ ∀ piece, pieces.getLast? = some piece → piece = []

theorem spells_piecesBack (path : Path) : Spells (Path.lead path.text.toList) path.piecesBack := by
  constructor
  · intro piece among
    exact Path.solid_of_mem_splitSeparators _ (List.mem_reverse.mp among)
  · rw [Path.piecesBack]
    generalize path.text.toList = text
    unfold Path.lead
    split
    · exact .inr (.inl rfl)
    · exact .inr (.inr ⟨rfl, by simp [Path.splitSeparators]⟩)
    · exact .inr (.inr ⟨rfl, by simp [Path.splitSeparators]⟩)
    · exact .inl rfl

theorem Spells.tail {lead piece : List Char} {pieces : List (List Char)}
    (spells : Spells lead (piece :: pieces)) : Spells lead pieces := by
  constructor
  · intro other among
    exact spells.solid other (List.mem_cons_of_mem _ among)
  · rcases spells.lead with none | root | ⟨dot, last⟩
    · exact .inl none
    · exact .inr (.inl root)
    · refine .inr (.inr ⟨dot, ?_⟩)
      intro other isLast
      cases pieces with
      | nil => cases isLast
      | cons next pieces =>
        apply last
        rw [List.getLast?_cons_cons]
        exact isLast

theorem namesIn_nil : namesIn [] = [] := rfl

theorem namesIn_of_named {piece : List Char} (solid : '/' ∉ piece) (named : Path.isIdle piece = false) :
    namesIn piece = [String.ofList piece] := by
  rw [namesIn, Path.splitSeparators_of_solid solid]
  simp [Path.ne_nil_of_named named]

/-- Another piece of a path is at most one more name. -/
theorem closedSteps_ofPiecesBack_cons {lead piece : List Char} {pieces : List (List Char)}
    (spells : Spells lead (piece :: pieces)) :
    closedSteps (Path.ofPiecesBack lead (piece :: pieces)) =
      closedSteps (Path.ofPiecesBack lead pieces) ++ namesIn piece := by
  rw [closedSteps_eq_namesIn, closedSteps_eq_namesIn, Path.ofPiecesBack, Path.ofPiecesBack,
    String.toList_ofList, String.toList_ofList, List.reverse_cons]
  cases pieces with
  | nil =>
    rcases spells.lead with rfl | rfl | ⟨rfl, last⟩
    · rfl
    · exact namesIn_append [] piece
    · rw [last piece rfl]
      rfl
  | cons next pieces =>
    rw [Path.joinSeparators_append (by simp) (List.cons_ne_nil _ _), ← List.append_assoc, namesIn_append]
    rfl

theorem ofPiecesBack_piecesBack (path : Path) :
    Path.ofPiecesBack (Path.lead path.text.toList) path.piecesBack = path := by
  obtain ⟨rest, spelled⟩ := Path.lead_prefix path.text.toList
  have behindLead := congrArg (List.drop (Path.lead path.text.toList).length) spelled
  rw [List.drop_left] at behindLead
  rw [Path.ofPiecesBack, Path.piecesBack]
  rw [List.reverse_reverse, ← behindLead, Path.joinSeparators_splitSeparators, spelled, String.ofList_toList]

private theorem closedSteps_dropWhile {lead : List Char} {pieces : List (List Char)} {names : List String}
    {name : String} (spells : Spells lead pieces)
    (steps : closedSteps (Path.ofPiecesBack lead pieces) = names ++ [name]) (named : name ≠ ".") :
    closedSteps (Path.ofPiecesBack lead (pieces.dropWhile Path.isIdle).tail) = names := by
  induction pieces with
  | nil =>
    rw [closedSteps_eq_namesIn, Path.ofPiecesBack, String.toList_ofList] at steps
    rcases spells.lead with rfl | rfl | ⟨rfl, _⟩
    · exact absurd steps.symm (by simp [namesIn, Path.splitSeparators, Path.joinSeparators])
    · exact absurd steps.symm (by simp [namesIn, Path.splitSeparators, Path.joinSeparators])
    · have dot : namesIn ['.'] = [] ++ ["."] := by decide
      have last := (List.append_inj' (dot.symm.trans steps) rfl).2
      exact absurd (List.singleton_inj.mp last).symm named
  | cons piece pieces ih =>
    rw [closedSteps_ofPiecesBack_cons spells] at steps
    cases idle : Path.isIdle piece with
    | true =>
      rw [List.dropWhile_cons_of_pos idle]
      apply ih spells.tail
      simp only [Path.isIdle, Bool.or_eq_true, beq_iff_eq] at idle
      rcases idle with rfl | rfl
      · rw [namesIn_nil, List.append_nil] at steps
        exact steps
      · have dot : namesIn ['.'] = ["."] := by decide
        rw [dot] at steps
        have last := (List.append_inj' steps rfl).2
        exact absurd (List.singleton_inj.mp last).symm named
    | false =>
      rw [List.dropWhile_cons_of_neg (by simp [idle]), List.tail_cons]
      rw [namesIn_of_named (spells.solid piece List.mem_cons_self) idle] at steps
      exact (List.append_inj' steps rfl).1

/-- The directories made for a file are those on the way to it. -/
theorem closedSteps_parent {path : Path} {names : List String} {name : String}
    (steps : closedSteps path = names ++ [name]) (named : name ≠ ".") :
    closedSteps (Path.ofPiecesBack (Path.lead path.text.toList) (path.piecesBack.dropWhile Path.isIdle).tail) =
      names := by
  apply closedSteps_dropWhile (spells_piecesBack path) ?_ named
  rw [ofPiecesBack_piecesBack]
  exact steps

theorem Spells.dropWhile {lead : List Char} {pieces : List (List Char)} (spells : Spells lead pieces) :
    Spells lead (pieces.dropWhile Path.isIdle).tail := by
  induction pieces with
  | nil => exact spells
  | cons piece pieces ih =>
    cases idle : Path.isIdle piece with
    | true =>
      rw [List.dropWhile_cons_of_pos idle]
      exact ih spells.tail
    | false =>
      rw [List.dropWhile_cons_of_neg (by simp [idle])]
      exact spells.tail

/-- A path that can be looked up can be looked up as far as any separator in it. -/
theorem checked_of_text {short long : Path} {behind : List Char} (nonempty : short.text.toList ≠ [])
    (text : long.text.toList = short.text.toList ++ behind) (allowed : checked long = .ok ()) :
    checked short = .ok () := by
  have whole : long.text = short.text ++ String.ofList behind := by
    rw [← String.toList_inj, String.toList_append, String.toList_ofList, text]
  have size := congrArg String.utf8ByteSize whole
  rw [String.utf8ByteSize_append] at size
  unfold checked at allowed ⊢
  split at allowed
  · cases allowed
  · rename_i clean
    split at allowed
    · cases allowed
    · split at allowed
      · cases allowed
      · rename_i _ fits
        rw [if_neg, if_neg, if_neg]
        · omega
        · rw [Path.isEmpty, String.isEmpty_iff]
          intro empty
          exact nonempty (String.toList_eq_nil_iff.mpr empty)
        · intro nul
          apply clean
          rw [text]
          simp only [List.contains_eq_mem, decide_eq_true_eq] at nul ⊢
          exact List.mem_append_left _ nul

end Machine

end PageInliner
