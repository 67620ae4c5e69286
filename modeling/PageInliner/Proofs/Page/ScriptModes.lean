import Mathlib.Tactic.Tauto
import PageInliner.Proofs.Page.Guarding

/-!
# Where a script ends for a parser

A parser reads the text of a script in one of three modes, and in one of them a closing tag does not end
the element: behind `<!--` and the opening tag of another script. No text that was made embeddable ends its
element early. It ends at the closing tag that is put behind it, unless the text opens a comment, does not
close it and has the opening tag of a script in it.
-/

set_option autoImplicit false

namespace PageInliner.Page

open Text

section Parser

/-- The text begins with the word, whatever the case of its ASCII letters. The word is in small letters. -/
def Begins (word ahead : List Char) : Prop :=
  word <+: ahead.map Char.toLower

instance (word ahead : List Char) : Decidable (Begins word ahead) :=
  inferInstanceAs (Decidable (word <+: ahead.map Char.toLower))

/-- What ends the name of a tag. A carriage return is one of them since it is turned into a line break
before a page is parsed. -/
def tagStops : List Char :=
  ['\t', '\n', '\x0c', '\r', ' ', '/', '>']

def BeginsTag (tag ahead : List Char) : Prop :=
  ∃ stop ∈ tagStops, Begins (tag ++ [stop]) ahead

instance (tag ahead : List Char) : Decidable (BeginsTag tag ahead) :=
  List.decidableBEx _ tagStops

def commentOpener : List Char := "<!--".toList

def commentCloser : List Char := "-->".toList

/-- What the opening tag of a script begins with. -/
def scriptOpener : List Char := "<script".toList

/-- How a parser reads the text of a script. -/
inductive ScriptMode where
  | data
  /-- Behind `<!--`. -/
  | escaped
  /-- Behind the opening tag of a script in such a comment. -/
  | doubleEscaped
  deriving Repr, DecidableEq

/-- The mode behind the first of the characters ahead, or nothing if the element ends there. Of the dashes
of `<!--` some may belong to `-->`. -/
def ScriptMode.next (mode : ScriptMode) (ahead : List Char) : Option ScriptMode :=
  match mode with
  | .data =>
    if BeginsTag (closingTag "script") ahead then none
    else if Begins commentOpener ahead then some .escaped
    else some .data
  | .escaped =>
    if BeginsTag (closingTag "script") ahead then none
    else if Begins commentCloser ahead then some .data
    else if BeginsTag scriptOpener ahead then some .doubleEscaped
    else some .escaped
  | .doubleEscaped =>
    if Begins commentCloser ahead then some .data
    else if BeginsTag (closingTag "script") ahead then some .escaped
    else some .doubleEscaped

/-- The place at which the element ends, if it does. -/
def elementEnd? : ScriptMode → List Char → Option Nat
  | _, [] => none
  | mode, c :: rest =>
    match mode.next (c :: rest) with
    | none => some 0
    | some mode => (elementEnd? mode rest).map (· + 1)

/-- What is ahead satisfies `p` somewhere in the text. -/
def Somewhere (p : List Char → Prop) (text : List Char) : Prop :=
  ∃ ahead, ahead <:+ text ∧ p ahead

/-- A comment that is not closed and has the opening tag of a script in it. -/
def LeavesOpen (text : List Char) : Prop :=
  Somewhere (fun comment => Begins commentOpener comment ∧ ¬ Somewhere (Begins commentCloser) comment ∧
    Somewhere (BeginsTag scriptOpener) comment) text

end Parser

section Modes

theorem somewhere_nil_iff {p : List Char → Prop} : Somewhere p [] ↔ p [] := by
  simp [Somewhere]

theorem somewhere_cons_iff {p : List Char → Prop} {c : Char} {text : List Char} :
    Somewhere p (c :: text) ↔ p (c :: text) ∨ Somewhere p text := by
  simp [Somewhere, List.suffix_cons_iff, or_and_right, exists_or]

theorem begins_cons_iff {w c : Char} {word ahead : List Char} :
    Begins (w :: word) (c :: ahead) ↔ w = c.toLower ∧ Begins word ahead :=
  List.cons_prefix_cons

theorem Begins.apart {word other ahead : List Char} (begins : Begins word ahead)
    (differs : ¬ word <+: other ∧ ¬ other <+: word) : ¬ Begins other ahead := by
  intro alsoBegins
  cases List.prefix_or_prefix_of_prefix begins alsoBegins with
  | inl within => exact differs.1 within
  | inr beyond => exact differs.2 beyond

theorem BeginsTag.begins {tag ahead : List Char} (begins : BeginsTag tag ahead) : Begins tag ahead := by
  obtain ⟨stop, _, begins⟩ := begins
  exact (List.prefix_append tag [stop]).trans begins

theorem not_beginsTag_cons {w c : Char} {tag ahead : List Char} (differs : w ≠ c.toLower) :
    ¬ BeginsTag (w :: tag) (c :: ahead) :=
  fun begins => differs (begins_cons_iff.mp begins.begins).1

theorem not_begins_of_commentOpener {ahead : List Char} (opens : Begins commentOpener ahead) :
    ¬ Begins commentCloser ahead ∧ ¬ BeginsTag scriptOpener ahead := by
  constructor
  · exact opens.apart (by decide +kernel)
  · exact fun tag => opens.apart (by decide +kernel) tag.begins

theorem leavesOpen_cons_iff {c : Char} {text : List Char} :
    LeavesOpen (c :: text) ↔
      (Begins commentOpener (c :: text) ∧ ¬ Somewhere (Begins commentCloser) text ∧
        Somewhere (BeginsTag scriptOpener) text) ∨ LeavesOpen text := by
  rw [LeavesOpen, somewhere_cons_iff, ← LeavesOpen, somewhere_cons_iff, somewhere_cons_iff]
  by_cases opener : Begins commentOpener (c :: text)
  · obtain ⟨noCloser, noTag⟩ := not_begins_of_commentOpener opener
    simp only [noCloser, noTag, false_or]
  · simp only [opener, false_and]

namespace ScriptMode

/-- The mode behind the first of the characters ahead where no closing tag is. -/
def turn (mode : ScriptMode) (ahead : List Char) : ScriptMode :=
  match mode with
  | .data => if Begins commentOpener ahead then .escaped else .data
  | .escaped =>
    if Begins commentCloser ahead then .data
    else if BeginsTag scriptOpener ahead then .doubleEscaped
    else .escaped
  | .doubleEscaped => if Begins commentCloser ahead then .data else .doubleEscaped

/-- The mode behind a text without closing tags. -/
def behind (mode : ScriptMode) : List Char → ScriptMode
  | [] => mode
  | c :: rest => (mode.turn (c :: rest)).behind rest

theorem next_eq_turn {ahead : List Char} (goesOn : ¬ BeginsTag (closingTag "script") ahead)
    (mode : ScriptMode) : mode.next ahead = some (mode.turn ahead) := by
  cases mode with
  | data =>
    simp only [next, turn, goesOn, ↓reduceIte]
    split <;> rfl
  | escaped =>
    simp only [next, turn, goesOn, ↓reduceIte]
    split
    · rfl
    · split <;> rfl
  | doubleEscaped =>
    simp only [next, turn, goesOn, ↓reduceIte]
    split <;> rfl

theorem turn_congr {ahead other : List Char} (mode : ScriptMode)
    (opener : Begins commentOpener ahead ↔ Begins commentOpener other)
    (closer : Begins commentCloser ahead ↔ Begins commentCloser other)
    (script : BeginsTag scriptOpener ahead ↔ BeginsTag scriptOpener other) :
    mode.turn ahead = mode.turn other := by
  cases mode with
  | data => simp only [turn, opener]
  | escaped => simp only [turn, closer, script]
  | doubleEscaped => simp only [turn, closer]

theorem turn_of_none {ahead : List Char} (mode : ScriptMode) (noOpener : ¬ Begins commentOpener ahead)
    (noCloser : ¬ Begins commentCloser ahead) (noTag : ¬ BeginsTag scriptOpener ahead) :
    mode.turn ahead = mode := by
  cases mode <;> simp [turn, noOpener, noCloser, noTag]

theorem turn_plain (mode : ScriptMode) {c : Char} (plain : '<' ≠ c.toLower ∧ '-' ≠ c.toLower)
    (rest : List Char) : mode.turn (c :: rest) = mode := by
  apply turn_of_none
  · exact fun begins => plain.1 (begins_cons_iff.mp begins).1
  · exact fun begins => plain.2 (begins_cons_iff.mp begins).1
  · exact not_beginsTag_cons plain.1

theorem turn_less (mode : ScriptMode) {c : Char} (neither : '!' ≠ c.toLower ∧ 's' ≠ c.toLower)
    (rest : List Char) : mode.turn ('<' :: c :: rest) = mode := by
  apply turn_of_none
  · intro begins
    exact neither.1 (begins_cons_iff.mp (begins_cons_iff.mp begins).2).1
  · intro begins
    exact absurd (begins_cons_iff.mp begins).1 (by decide +kernel)
  · intro tag
    exact neither.2 (begins_cons_iff.mp (begins_cons_iff.mp tag.begins).2).1

theorem behind_cons (mode : ScriptMode) (c : Char) (rest : List Char) :
    mode.behind (c :: rest) = (mode.turn (c :: rest)).behind rest := rfl

/-- The parser is left in the last of its modes by a text that opens a comment for good, and by one that
does not close the comment it finds itself in. -/
theorem behind_eq_doubleEscaped_iff (mode : ScriptMode) (text : List Char) :
    mode.behind text = .doubleEscaped ↔ LeavesOpen text ∨
      match mode with
      | .data => False
      | .escaped => ¬ Somewhere (Begins commentCloser) text ∧ Somewhere (BeginsTag scriptOpener) text
      | .doubleEscaped => ¬ Somewhere (Begins commentCloser) text := by
  induction text generalizing mode with
  | nil =>
    have unopened : ¬ LeavesOpen [] := by
      rw [LeavesOpen, somewhere_nil_iff]
      exact fun opens => absurd opens.1 (by decide +kernel)
    cases mode with
    | data => simp [behind, unopened]
    | escaped =>
      have noTag : ¬ Somewhere (BeginsTag scriptOpener) [] := by
        rw [somewhere_nil_iff]
        decide +kernel
      simp [behind, unopened, noTag]
    | doubleEscaped =>
      have noCloser : ¬ Somewhere (Begins commentCloser) [] := by
        rw [somewhere_nil_iff]
        decide +kernel
      simp [behind, noCloser]
  | cons c text ih =>
    rw [behind_cons, ih, leavesOpen_cons_iff, somewhere_cons_iff, somewhere_cons_iff]
    -- Where the mode changes here by another word, that word excludes `<!--` at this place.
    cases mode with
    | data =>
      by_cases opener : Begins commentOpener (c :: text)
      · simp [turn, opener, or_comm]
      · simp [turn, opener]
    | escaped =>
      by_cases closer : Begins commentCloser (c :: text)
      · have unopened : ¬ Begins commentOpener (c :: text) := fun opens =>
          (not_begins_of_commentOpener opens).1 closer
        simp [turn, closer, unopened]
      · by_cases tag : BeginsTag scriptOpener (c :: text)
        · have unopened : ¬ Begins commentOpener (c :: text) := fun opens =>
            (not_begins_of_commentOpener opens).2 tag
          simp [turn, closer, tag, unopened]
        · simp only [turn, closer, tag, ↓reduceIte, false_or]
          tauto
    | doubleEscaped =>
      by_cases closer : Begins commentCloser (c :: text)
      · have unopened : ¬ Begins commentOpener (c :: text) := fun opens =>
          (not_begins_of_commentOpener opens).1 closer
        simp [turn, closer, unopened]
      · simp only [turn, closer, ↓reduceIte, false_or]
        tauto

end ScriptMode

end Modes

section LineBreak

theorem begins_line_iff {word : List Char} {stop : Char} (within : '\n' ∉ word) (text rest : List Char) :
    Begins (word ++ [stop]) (text ++ '\n' :: rest) ↔ Begins (word ++ [stop]) (text ++ ['\n']) := by
  induction word generalizing text with
  | nil => cases text <;> simp [Begins]
  | cons w word ih =>
    rw [List.mem_cons, not_or] at within
    cases text with
    | nil =>
      have differs : w ≠ '\n'.toLower := Ne.symm within.1
      simp only [List.cons_append, List.nil_append, begins_cons_iff, differs, false_and]
    | cons c text => simp only [List.cons_append, begins_cons_iff, ih within.2]

theorem beginsTag_line_iff {tag : List Char} (within : '\n' ∉ tag) (text rest : List Char) :
    BeginsTag tag (text ++ '\n' :: rest) ↔ BeginsTag tag (text ++ ['\n']) := by
  simp only [BeginsTag, begins_line_iff within]

theorem ScriptMode.turn_line (mode : ScriptMode) (text rest : List Char) :
    mode.turn (text ++ '\n' :: rest) = mode.turn (text ++ ['\n']) := by
  apply turn_congr
  · exact begins_line_iff (show '\n' ∉ "<!-".toList by decide +kernel) text rest
  · exact begins_line_iff (show '\n' ∉ "--".toList by decide +kernel) text rest
  · exact beginsTag_line_iff (by decide +kernel) text rest

end LineBreak

section Guard

/-- A backslash is only put behind `<`, so what begins with a word without `<` begins with it afterwards. -/
theorem begins_escapeScriptClose_iff {word : List Char} (solid : '<' ∉ word) (text rest : List Char) :
    Begins word (escapeScriptClose text ++ rest) ↔ Begins word (text ++ rest) := by
  induction text generalizing word with
  | nil => rfl
  | cons c text ih =>
    cases word with
    | nil => simp [Begins]
    | cons w word =>
      rw [List.mem_cons, not_or] at solid
      rw [escapeScriptClose]
      split
      case isTrue opened =>
        rw [Bool.and_eq_true, beq_iff_eq] at opened
        have differs : w ≠ c.toLower := by
          rw [opened.1]
          exact Ne.symm solid.1
        simp only [List.cons_append, begins_cons_iff, differs, false_and]
      case isFalse => simp only [List.cons_append, begins_cons_iff, ih solid.2]

private theorem exists_slash_of_startsFolded {text : List Char}
    (begins : startsFolded scriptClose text = true) : ∃ more, text = '/' :: more := by
  obtain ⟨tail, spelled⟩ : ∃ tail, scriptClose = '/' :: tail := ⟨_, String.toList_ofList⟩
  rw [spelled] at begins
  cases text with
  | nil => cases begins
  | cons c more =>
    rw [startsFolded, Bool.and_eq_true, beq_iff_eq, foldCase_eq_iff (by decide +kernel)] at begins
    have isSlash : c = '/' := by simpa [spellings] using begins.1
    exact ⟨more, by rw [isSlash]⟩

namespace ScriptMode

theorem turn_cons_escapeScriptClose (mode : ScriptMode) (c : Char) (text rest : List Char) :
    mode.turn (c :: (escapeScriptClose text ++ rest)) = mode.turn (c :: (text ++ rest)) := by
  have alike {w : Char} {word : List Char} (solid : '<' ∉ word) :
      Begins (w :: word) (c :: (escapeScriptClose text ++ rest)) ↔
        Begins (w :: word) (c :: (text ++ rest)) := by
    rw [begins_cons_iff, begins_cons_iff, begins_escapeScriptClose_iff solid]
  apply turn_congr
  · exact alike (show '<' ∉ "!--".toList by decide +kernel)
  · exact alike (show '<' ∉ "->".toList by decide +kernel)
  · have solid : ∀ stop ∈ tagStops, '<' ∉ "script".toList ++ [stop] := by simp [tagStops]
    constructor
    · intro tag
      obtain ⟨stop, stops, begins⟩ := tag
      exact ⟨stop, stops, (alike (solid stop stops)).mp begins⟩
    · intro tag
      obtain ⟨stop, stops, begins⟩ := tag
      exact ⟨stop, stops, (alike (solid stop stops)).mpr begins⟩

theorem behind_escapeScriptClose (mode : ScriptMode) (text rest : List Char) :
    mode.behind (escapeScriptClose text ++ rest) = mode.behind (text ++ rest) := by
  induction text generalizing mode with
  | nil => rfl
  | cons c text ih =>
    rw [escapeScriptClose]
    split
    case isTrue opened =>
      rw [Bool.and_eq_true, beq_iff_eq] at opened
      obtain ⟨isLess, begins⟩ := opened
      subst isLess
      obtain ⟨more, rfl⟩ := exists_slash_of_startsFolded begins
      -- Neither `<` before a backslash nor `<` before a slash is the beginning of a word.
      calc mode.behind ('<' :: '\\' :: (escapeScriptClose ('/' :: more) ++ rest))
          = mode.behind (escapeScriptClose ('/' :: more) ++ rest) := by
            rw [behind_cons, turn_less mode (by decide +kernel), behind_cons,
              turn_plain mode (by decide +kernel)]
        _ = mode.behind ('/' :: (more ++ rest)) := ih mode
        _ = mode.behind ('<' :: '/' :: (more ++ rest)) := by
            rw [behind_cons mode '<', turn_less mode (by decide +kernel)]
    case isFalse =>
      calc mode.behind (c :: (escapeScriptClose text ++ rest))
          = (mode.turn (c :: (text ++ rest))).behind (escapeScriptClose text ++ rest) := by
            rw [behind_cons, turn_cons_escapeScriptClose]
        _ = (mode.turn (c :: (text ++ rest))).behind (text ++ rest) := ih _

end ScriptMode

end Guard

section Ending

theorem not_beginsTag_of_clean {text : List Char} (clean : startsFolded (closingTag "script") text = false)
    (rest : List Char) : ¬ BeginsTag (closingTag "script") (text ++ '\n' :: rest) := by
  have tagged : Asset.Kind.script.tag? = some "script" := rfl
  have plain := isPlain_closingTag tagged
  intro tag
  have begins : closingTag "script" <+: (text ++ '\n' :: rest).map Char.toLower := tag.begins
  rw [List.map_append, List.map_cons] at begins
  have within : closingTag "script" <+: text.map Char.toLower :=
    prefix_of_prefix_append_cons begins plain.solid.1
  have found := startsFolded_of_prefix plain.folded within
  rw [clean] at found
  cases found

theorem next_of_clean {text : List Char} (clean : startsFolded (closingTag "script") text = false)
    (mode : ScriptMode) (rest : List Char) :
    mode.next (text ++ '\n' :: rest) = some (mode.turn (text ++ ['\n'])) := by
  rw [ScriptMode.next_eq_turn (not_beginsTag_of_clean clean rest), ScriptMode.turn_line]

/-- A text without closing tags and the line break behind it only change the mode. -/
theorem elementEnd?_of_clean {text : List Char} (clean : containsFolded (closingTag "script") text = false)
    (mode : ScriptMode) (rest : List Char) :
    elementEnd? mode (text ++ '\n' :: rest) =
      (elementEnd? (mode.behind (text ++ ['\n'])) rest).map (· + (text.length + 1)) := by
  induction text generalizing mode with
  | nil =>
    have goesOn := next_of_clean clean mode rest
    rw [List.nil_append] at goesOn ⊢
    rw [elementEnd?, goesOn]
    rfl
  | cons c text ih =>
    rw [containsFolded, Bool.or_eq_false_iff] at clean
    have goesOn := next_of_clean clean.1 mode rest
    rw [List.cons_append] at goesOn ⊢
    rw [elementEnd?, goesOn]
    dsimp only
    rw [ih clean.2, Option.map_map]
    rfl

theorem elementEnd?_of_plain (mode : ScriptMode) {text : List Char}
    (plain : ∀ c ∈ text, '<' ≠ c.toLower ∧ '-' ≠ c.toLower) (rest : List Char) :
    elementEnd? mode (text ++ rest) = (elementEnd? mode rest).map (· + text.length) := by
  induction text with
  | nil => simp
  | cons c text ih =>
    rw [List.forall_mem_cons] at plain
    have goesOn : mode.next (c :: (text ++ rest)) = some mode := by
      rw [ScriptMode.next_eq_turn (not_beginsTag_cons plain.1.1), ScriptMode.turn_plain mode plain.1]
    rw [List.cons_append, elementEnd?, goesOn]
    dsimp only
    rw [ih plain.2, Option.map_map]
    rfl

/-- The closing tag that is put behind a script ends it, or is taken for that of a script in a comment. -/
theorem elementEnd?_closingTag (mode : ScriptMode) (rest : List Char) :
    elementEnd? mode ('<' :: ("/script>".toList ++ rest)) =
      if mode = .doubleEscaped then (elementEnd? .escaped rest).map (· + 9) else some 0 := by
  have closes : BeginsTag (closingTag "script") ('<' :: ("/script>".toList ++ rest)) := by
    have small : ('<' :: "/script>".toList).map Char.toLower = closingTag "script" ++ ['>'] := by
      decide +kernel
    refine ⟨'>', by decide +kernel, ?_⟩
    rw [Begins, ← List.cons_append, List.map_append, small]
    exact List.prefix_append _ _
  have noCloser : ¬ Begins commentCloser ('<' :: ("/script>".toList ++ rest)) :=
    fun begins => absurd (begins_cons_iff.mp begins).1 (by decide +kernel)
  have plain : ∀ c ∈ "/script>".toList, '<' ≠ c.toLower ∧ '-' ≠ c.toLower := by simp
  cases mode with
  | data => simp only [elementEnd?, ScriptMode.next, closes, ↓reduceIte, reduceCtorEq]
  | escaped => simp only [elementEnd?, ScriptMode.next, closes, ↓reduceIte, reduceCtorEq]
  | doubleEscaped =>
    simp only [elementEnd?, ScriptMode.next, noCloser, closes, ↓reduceIte]
    rw [elementEnd?_of_plain .escaped plain, Option.map_map]
    rfl

/-- Where the element of an embedded script ends. No text ends it before the closing tag of the page. That
tag ends it exactly if the text does not leave a comment open in which another script begins; otherwise the
parser goes on into the page. -/
theorem embedded_script_ends (path : Path) (source : String) :
    ∃ text, embeddable ⟨.script, path, source⟩ = .ok text ∧ ∀ rest,
      (¬ LeavesOpen (source.toList ++ ['\n']) →
        elementEnd? .data (text.toList ++ "\n</script>".toList ++ rest) = some (text.length + 1)) ∧
      (LeavesOpen (source.toList ++ ['\n']) →
        elementEnd? .data (text.toList ++ "\n</script>".toList ++ rest) =
          (elementEnd? .escaped rest).map (· + (text.length + 10))) := by
  have mode : ScriptMode.data.behind (escapeScriptClose source.toList ++ ['\n']) = .doubleEscaped ↔
      LeavesOpen (source.toList ++ ['\n']) := by
    rw [ScriptMode.behind_escapeScriptClose, ScriptMode.behind_eq_doubleEscaped_iff, or_false]
  refine ⟨.ofList (escapeScriptClose source.toList), rfl, ?_⟩
  intro rest
  -- The guarded text has no closing tag, so only the mode behind its line break matters.
  have ends := elementEnd?_of_clean (containsFolded_escapeScriptClose source.toList) .data
    ('<' :: ("/script>".toList ++ rest))
  have split : escapeScriptClose source.toList ++ "\n</script>".toList ++ rest =
      escapeScriptClose source.toList ++ '\n' :: '<' :: ("/script>".toList ++ rest) := by
    rw [List.append_assoc]
    rfl
  rw [String.toList_ofList, String.length_ofList, split, ends, elementEnd?_closingTag]
  constructor
  · intro closed
    rw [if_neg fun hidden => closed (mode.mp hidden)]
    simp
  · intro leavesOpen
    rw [if_pos (mode.mpr leavesOpen), Option.map_map]
    congr 1
    funext place
    simp only [Function.comp_apply]
    omega

/-- A text that opens a comment and begins a script in it, and so is never ended. -/
theorem embedded_script_without_end :
    ∃ text, embeddable ⟨.script, ⟨"a.js"⟩, "<!--<script>"⟩ = .ok text ∧
      elementEnd? .data (text.toList ++ "\n</script>".toList) = none := by
  refine ⟨"<!--<script>", by decide +kernel, by decide +kernel⟩

end Ending

end PageInliner.Page
