import PageInliner.Config.Diagnostic
import PageInliner.Proofs.Console.Sequences
import PageInliner.Text.Search

/-!
# Reports read back

A report is told apart from every other by its colours. No text in it can hold an ESC, so each text ends where the
next sequence begins, and that sequence says what stands behind the text: a hint, one more diagnostic or their
number.
-/

set_option autoImplicit false

namespace PageInliner.Diagnostic

open Ansi

/-- No text of the diagnostic holds an ESC. -/
structure Plain (diagnostic : Diagnostic) : Prop where
  field : Ansi.Plain diagnostic.field
  message : Ansi.Plain diagnostic.message
  hint : ∀ hint ∈ diagnostic.hint, Ansi.Plain hint

instance (diagnostic : Diagnostic) : Decidable diagnostic.Plain :=
  decidable_of_iff
    (Ansi.Plain diagnostic.field ∧ Ansi.Plain diagnostic.message ∧ ∀ hint ∈ diagnostic.hint, Ansi.Plain hint)
    ⟨fun ⟨field, message, hint⟩ => ⟨field, message, hint⟩, fun plain => ⟨plain.field, plain.message, plain.hint⟩⟩

section Ends

variable {first second firstRest secondRest : List Char}

/-- What stands between a text and the sequence behind it: a hint comes on the next line, all else behind an
empty one. -/
def breakBefore : (sequence : List Char) → List Char
  | '[' :: '3' :: _ => ['\n', ' ', ' ']
  | _ => ['\n', '\n']

/-- What can stand behind a message or a hint. -/
def Behind (text : List Char) : Prop :=
  text = [] ∨ ∃ rest, text = breakBefore rest ++ '\x1b' :: rest

/-- What can stand behind a diagnostic: another one, or their number. -/
def Further (text : List Char) : Prop :=
  text = [] ∨ ∃ rest, text = "\n\n\x1b[2".toList ++ rest

theorem Further.behind (further : Further firstRest) : Behind firstRest := by
  obtain none | ⟨rest, spelled⟩ := further
  · exact .inl none
  · exact .inr ⟨'[' :: '2' :: rest, spelled⟩

theorem append_behind_injective (firstPlain : '\x1b' ∉ first) (secondPlain : '\x1b' ∉ second)
    (firstBehind : Behind firstRest) (secondBehind : Behind secondRest)
    (same : first ++ firstRest = second ++ secondRest) : first = second ∧ firstRest = secondRest := by
  have free {text rest : List Char} (plain : '\x1b' ∉ text) : '\x1b' ∉ text ++ breakBefore rest := by
    have none : '\x1b' ∉ breakBefore rest := by
      unfold breakBefore
      split <;> decide
    simp [plain, none]
  obtain rfl | ⟨firstCode, rfl⟩ := firstBehind
  all_goals obtain rfl | ⟨secondCode, rfl⟩ := secondBehind
  · exact ⟨by simpa using same, rfl⟩
  · rw [List.append_nil] at same
    exact absurd (by simp [same]) firstPlain
  · rw [List.append_nil] at same
    exact absurd (by simp [← same]) secondPlain
  · rw [← List.append_assoc, ← List.append_assoc] at same
    obtain ⟨texts, codes⟩ := Text.append_cons_injective (free firstPlain) (free secondPlain) same
    subst codes
    exact ⟨List.append_cancel_right texts, rfl⟩

end Ends

def beforeField : String :=
  dimmed "[" ++ sequence 36

def beforeMessage : String :=
  sequence 39 ++ dimmed "]" ++ "\n" ++ red "→" ++ " "

def beforeHint : String :=
  "\n  " ++ yellow "hint:" ++ " "

theorem exists_beforeField : ∃ more, beforeField.toList = '\x1b' :: '[' :: '2' :: 'm' :: '[' :: more :=
  ⟨"\x1b[0m\x1b[36m".toList, by decide⟩

theorem exists_beforeMessage : ∃ more, beforeMessage.toList = '\x1b' :: more :=
  ⟨"[39m\x1b[2m]\x1b[0m\n\x1b[31m→\x1b[39m ".toList, by decide⟩

theorem exists_beforeHint : ∃ more, beforeHint.toList = '\n' :: ' ' :: ' ' :: '\x1b' :: '[' :: '3' :: more :=
  ⟨"3mhint:\x1b[39m ".toList, by decide⟩

/-- What stands behind the message of a diagnostic. -/
def hintText : Option String → String
  | none => ""
  | some hint => beforeHint ++ hint

theorem render_eq (diagnostic : Diagnostic) :
    diagnostic.render =
      beforeField ++ diagnostic.field ++ beforeMessage ++ diagnostic.message ++ hintText diagnostic.hint := by
  obtain ⟨field, message, hint⟩ := diagnostic
  cases hint <;> simp [render, beforeField, beforeMessage, beforeHint, hintText, cyan, colored, String.append_assoc]

section Entries

variable {first second : Diagnostic} {firstRest secondRest : List Char}

theorem hintText_append_injective {firstHint secondHint : Option String}
    (firstPlain : ∀ hint ∈ firstHint, Ansi.Plain hint) (secondPlain : ∀ hint ∈ secondHint, Ansi.Plain hint)
    (firstFurther : Further firstRest) (secondFurther : Further secondRest)
    (same : (hintText firstHint).toList ++ firstRest = (hintText secondHint).toList ++ secondRest) :
    firstHint = secondHint ∧ firstRest = secondRest := by
  have apart {hint : String} {rest further : List Char} (behind : Further further) :
      (hintText (some hint)).toList ++ rest ≠ further := by
    obtain ⟨more, begins⟩ := exists_beforeHint
    obtain rfl | ⟨_, rfl⟩ := behind
    all_goals simp [hintText, String.toList_append, begins]
  cases firstHint with
  | none =>
    cases secondHint with
    | none => exact ⟨rfl, same⟩
    | some hint => exact absurd same.symm (apart firstFurther)
  | some hint =>
    cases secondHint with
    | none => exact absurd same (apart secondFurther)
    | some other =>
      simp only [hintText, String.toList_append, List.append_assoc, List.append_cancel_left_eq] at same
      obtain ⟨texts, rests⟩ := append_behind_injective (firstPlain hint rfl) (secondPlain other rfl)
        firstFurther.behind secondFurther.behind same
      exact ⟨congrArg some (String.toList_injective texts), rests⟩

theorem behind_hintText (hint : Option String) (further : Further firstRest) :
    Behind ((hintText hint).toList ++ firstRest) := by
  cases hint with
  | none => exact further.behind
  | some hint =>
    obtain ⟨more, begins⟩ := exists_beforeHint
    refine .inr ⟨'[' :: '3' :: (more ++ hint.toList ++ firstRest), ?_⟩
    simp [hintText, String.toList_append, begins, breakBefore]

theorem render_append_injective (firstPlain : first.Plain) (secondPlain : second.Plain)
    (firstFurther : Further firstRest) (secondFurther : Further secondRest)
    (same : first.render.toList ++ firstRest = second.render.toList ++ secondRest) :
    first = second ∧ firstRest = secondRest := by
  obtain ⟨firstField, firstMessage, firstHint⟩ := first
  obtain ⟨secondField, secondMessage, secondHint⟩ := second
  obtain ⟨more, begins⟩ := exists_beforeMessage
  simp only [render_eq, String.toList_append, List.append_assoc, List.append_cancel_left_eq] at same
  rw [begins] at same
  obtain ⟨fields, behindFields⟩ := Text.append_cons_injective firstPlain.field secondPlain.field same
  have behindMarks := List.append_cancel_left behindFields
  obtain ⟨messages, behindMessages⟩ := append_behind_injective firstPlain.message secondPlain.message
    (behind_hintText firstHint firstFurther) (behind_hintText secondHint secondFurther) behindMarks
  obtain ⟨hints, rests⟩ := hintText_append_injective firstPlain.hint secondPlain.hint firstFurther secondFurther
    behindMessages
  obtain rfl := String.toList_injective fields
  obtain rfl := String.toList_injective messages
  obtain rfl := hints
  exact ⟨rfl, rests⟩

end Entries

/-- The number of the diagnostics, as a report ends with it. -/
def total (count : Nat) : String :=
  if count > 1 then "\n\n" ++ dimmed "found" ++ " " ++ bold (red (toString count)) ++ " " ++ dimmed "errors"
  else ""

def heading : String :=
  bold (red "config validation failed:") ++ "\n\n"

/-- Further diagnostics, and what the report ends with. -/
def entries (diagnostics : List Diagnostic) (ending : List Char) : List Char :=
  diagnostics.flatMap (fun diagnostic => "\n\n".toList ++ diagnostic.render.toList) ++ ending

/-- What a report can end with behind its last diagnostic. -/
def Ending (text : List Char) : Prop :=
  text = [] ∨ ∃ rest, text = "\n\n\x1b[2mf".toList ++ rest

theorem Ending.further {text : List Char} (ending : Ending text) : Further text := by
  obtain none | ⟨rest, spelled⟩ := ending
  · exact .inl none
  · exact .inr ⟨'m' :: 'f' :: rest, spelled⟩

theorem ending_total (count : Nat) : Ending (total count).toList := by
  unfold total
  split
  case isTrue =>
    have begins : "\n\n" ++ dimmed "found" = "\n\n\x1b[2mf" ++ "ound\x1b[0m" := by decide
    refine .inr ⟨("ound\x1b[0m" ++ " " ++ bold (red (toString count)) ++ " " ++ dimmed "errors").toList, ?_⟩
    rw [begins, ← String.toList_append]
    simp only [String.append_assoc]
  case isFalse => exact .inl rfl

theorem toList_intercalate_render (diagnostic : Diagnostic) (diagnostics : List Diagnostic) (ending : List Char) :
    ("\n\n".intercalate ((diagnostic :: diagnostics).map render)).toList ++ ending =
      diagnostic.render.toList ++ entries diagnostics ending := by
  induction diagnostics generalizing diagnostic with
  | nil => simp [entries]
  | cons next diagnostics ih =>
    simp only [List.map_cons, String.intercalate_cons_cons, String.toList_append, List.append_assoc] at ih ⊢
    rw [ih next]
    simp only [entries, List.flatMap_cons, List.append_assoc]

theorem toList_report (diagnostic : Diagnostic) (diagnostics : List Diagnostic) :
    (report (diagnostic :: diagnostics)).toList =
      heading.toList ++
        (diagnostic.render.toList ++ entries diagnostics (total (diagnostics.length + 1)).toList) := by
  rw [← toList_intercalate_render, ← String.toList_append, ← String.toList_append, String.toList_inj]
  simp only [report, heading, total, List.length_cons, String.append_assoc]

theorem exists_entries_cons (diagnostic : Diagnostic) (diagnostics : List Diagnostic) (ending : List Char) :
    ∃ rest, entries (diagnostic :: diagnostics) ending = "\n\n\x1b[2m[".toList ++ rest := by
  obtain ⟨more, begins⟩ := exists_beforeField
  simp only [entries, List.flatMap_cons, render_eq, String.toList_append, begins]
  exact ⟨_, rfl⟩

theorem further_entries (diagnostics : List Diagnostic) {ending : List Char} (ends : Ending ending) :
    Further (entries diagnostics ending) := by
  cases diagnostics with
  | nil => exact ends.further
  | cons diagnostic diagnostics =>
    obtain ⟨rest, begins⟩ := exists_entries_cons diagnostic diagnostics ending
    exact .inr ⟨'m' :: '[' :: rest, begins⟩

theorem entries_cons_ne {diagnostic : Diagnostic} {diagnostics : List Diagnostic} {ending text : List Char}
    (ends : Ending text) : entries (diagnostic :: diagnostics) ending ≠ text := by
  obtain ⟨rest, begins⟩ := exists_entries_cons diagnostic diagnostics ending
  obtain rfl | ⟨other, rfl⟩ := ends
  all_goals simp [begins]

theorem entries_injective {first second : List Diagnostic} {firstEnding secondEnding : List Char}
    (firstPlain : ∀ diagnostic ∈ first, diagnostic.Plain) (secondPlain : ∀ diagnostic ∈ second, diagnostic.Plain)
    (firstEnds : Ending firstEnding) (secondEnds : Ending secondEnding)
    (same : entries first firstEnding = entries second secondEnding) : first = second := by
  induction first generalizing second with
  | nil =>
    cases second with
    | nil => rfl
    | cons diagnostic second => exact absurd same.symm (entries_cons_ne firstEnds)
  | cons diagnostic first ih =>
    cases second with
    | nil => exact absurd same (entries_cons_ne secondEnds)
    | cons other second =>
      obtain ⟨plain, firstOthers⟩ := List.forall_mem_cons.mp firstPlain
      obtain ⟨otherPlain, secondOthers⟩ := List.forall_mem_cons.mp secondPlain
      simp only [entries, List.flatMap_cons, List.append_assoc, List.append_cancel_left_eq] at same
      obtain ⟨rfl, rests⟩ := render_append_injective plain otherPlain (further_entries first firstEnds)
        (further_entries second secondEnds) same
      rw [ih firstOthers secondOthers rests]

theorem toList_report_nil : (report []).toList = heading.toList := by
  simp [report, heading]

theorem report_cons_ne_nil (diagnostic : Diagnostic) (diagnostics : List Diagnostic) :
    report (diagnostic :: diagnostics) ≠ report [] := by
  obtain ⟨more, begins⟩ := exists_beforeField
  rw [Ne, ← String.toList_inj, toList_report, toList_report_nil, List.append_right_eq_self, render_eq]
  simp [begins]

/-- A report tells the diagnostics it was made of, each of them whole and in its place. -/
theorem report_eq_iff (first second : List Diagnostic) (firstPlain : ∀ diagnostic ∈ first, diagnostic.Plain)
    (secondPlain : ∀ diagnostic ∈ second, diagnostic.Plain) : report first = report second ↔ first = second := by
  refine ⟨?_, congrArg report⟩
  intro same
  cases first with
  | nil =>
    cases second with
    | nil => rfl
    | cons other second => exact absurd same.symm (report_cons_ne_nil other second)
  | cons diagnostic first =>
    cases second with
    | nil => exact absurd same (report_cons_ne_nil diagnostic first)
    | cons other second =>
      obtain ⟨plain, firstOthers⟩ := List.forall_mem_cons.mp firstPlain
      obtain ⟨otherPlain, secondOthers⟩ := List.forall_mem_cons.mp secondPlain
      have firstEnds := ending_total (first.length + 1)
      have secondEnds := ending_total (second.length + 1)
      rw [← String.toList_inj, toList_report, toList_report] at same
      obtain ⟨rfl, rests⟩ := render_append_injective plain otherPlain (further_entries first firstEnds)
        (further_entries second secondEnds) (List.append_cancel_left same)
      rw [entries_injective firstOthers secondOthers firstEnds secondEnds rests]

/-- A message that spells out a hint, one more diagnostic and a number. -/
def spelledOut : List Diagnostic :=
  [⟨"a", "b\n  hint: c\n\n[d]\n→ e\n\nfound 2 errors", none⟩]

/-- What `spelledOut` spells out. -/
def meant : List Diagnostic :=
  [⟨"a", "b", some "c"⟩, ⟨"d", "e", none⟩]

theorem report_eq_iff_spelledOut :
    (∀ diagnostic ∈ spelledOut, diagnostic.Plain) ∧ (∀ diagnostic ∈ meant, diagnostic.Plain) ∧
      report spelledOut ≠ report meant := by
  have firstPlain : ∀ diagnostic ∈ spelledOut, diagnostic.Plain := by decide
  have secondPlain : ∀ diagnostic ∈ meant, diagnostic.Plain := by decide
  exact ⟨firstPlain, secondPlain, mt (report_eq_iff _ _ firstPlain secondPlain).mp (by decide)⟩

end PageInliner.Diagnostic
