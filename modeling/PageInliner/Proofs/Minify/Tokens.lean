import Mathlib.Data.List.Chain
import PageInliner.Proofs.Minify.Idempotence

/-!
# The tokens of a short script

In a script of words, signs and semicolons on one line, blanks do nothing but keep tokens apart. The short
form keeps every blank between two words, and closes the gaps beside signs. That makes no difference to the
tokens unless a single sign comes to stand before the same sign, where the two are read as one.
-/

set_option autoImplicit false

namespace PageInliner.Minify

open Text

/-- A character of an identifier or a number. -/
def isWordChar (c : Char) : Bool :=
  c.isAlphanum || c == '_' || c == '$'

/-- A character that makes an operator on its own, and another one doubled. -/
def isSign (c : Char) : Bool :=
  c == '+' || c == '-'

/-- The tokens of a script, each the longest that can be read: a run of word characters, a doubled sign, or a
single character. Blanks stand between tokens and in none. -/
def tokens : List Char → List (List Char)
  | [] => []
  | c :: rest =>
    if isWordChar c then (c :: rest.takeWhile isWordChar) :: tokens (rest.dropWhile isWordChar)
    else if isSign c ∧ rest.head? = some c then [c, c] :: tokens rest.tail
    else if isBlank c then tokens rest
    else [c] :: tokens rest
termination_by text => text.length
decreasing_by
  · have := (List.dropWhile_sublist (l := rest) isWordChar).length_le
    simp only [List.length_cons]
    omega
  · simp only [List.length_tail, List.length_cons]
    omega
  · simp
  · simp

/-- A single sign, and behind it a token that begins with the same sign. -/
def fuses (first second : List Char) : Bool :=
  match first with
  | [c] => isSign c && second.head? == some c
  | _ => false

section Characters

theorem toNat_of_between {low high c : Char} (above : 0x20 < low.toNat) (below : high.toNat < 0x85)
    (between : c.val ≥ low.val ∧ c.val ≤ high.val) : 0x20 < c.toNat ∧ c.toNat < 0x85 :=
  ⟨Nat.lt_of_lt_of_le above (UInt32.le_iff_toNat_le.mp between.1),
    Nat.lt_of_le_of_lt (UInt32.le_iff_toNat_le.mp between.2) below⟩

theorem toNat_of_isWordChar {c : Char} (word : isWordChar c = true) : 0x20 < c.toNat ∧ c.toNat < 0x85 := by
  rw [isWordChar, Bool.or_eq_true, Bool.or_eq_true, beq_iff_eq, beq_iff_eq] at word
  rcases word with (alphanum | rfl) | rfl
  · cases Bool.or_eq_true_iff.mp alphanum with
    | inl letter =>
      cases Bool.or_eq_true_iff.mp letter with
      | inl capital => exact toNat_of_between (by decide) (by decide) (of_decide_eq_true capital)
      | inr small =>
        obtain ⟨lower, upper⟩ := Bool.and_eq_true_iff.mp small
        exact toNat_of_between (by decide) (by decide) ⟨of_decide_eq_true lower, of_decide_eq_true upper⟩
    | inr digit =>
      obtain ⟨lower, upper⟩ := Bool.and_eq_true_iff.mp digit
      exact toNat_of_between (by decide) (by decide) ⟨of_decide_eq_true lower, of_decide_eq_true upper⟩
  · decide
  · decide

theorem isBlank_of_isWordChar {c : Char} (word : isWordChar c = true) : isBlank c = false := by
  obtain ⟨lower, upper⟩ := toNat_of_isWordChar word
  simp only [isBlank, Bool.or_eq_false_iff, Bool.and_eq_false_iff, decide_eq_false_iff_not, beq_eq_false_iff_ne]
  omega

theorem isScriptMark_of_isSign {c : Char} (sign : isSign c = true) : isScriptMark c = true := by
  rw [isSign, Bool.or_eq_true, beq_iff_eq, beq_iff_eq] at sign
  rcases sign with rfl | rfl <;> rfl

theorem isScriptMark_of_isWordChar {c : Char} (word : isWordChar c = true) : isScriptMark c = false := by
  have plain : ['{', '}', ';', ':', ',', '=', '+', '-', '*', '/', '<', '>', '!', '&', '|', '?'].all
      (fun c => !isWordChar c) = true := by decide
  rw [← Bool.not_eq_true]
  intro mark
  rw [isScriptMark, List.contains_iff_mem] at mark
  have other := List.all_eq_true.mp plain c mark
  rw [word] at other
  cases other

theorem not_isWordChar_of_isSign {c : Char} (sign : isSign c = true) : isWordChar c = false :=
  Bool.eq_false_iff.mpr (mt isScriptMark_of_isWordChar (by simp [isScriptMark_of_isSign sign]))

theorem not_isWordChar_of_isBlank {c : Char} (blank : isBlank c = true) : isWordChar c = false :=
  Bool.eq_false_iff.mpr (mt isBlank_of_isWordChar (by simp [blank]))

theorem isBlank_of_isSign {c : Char} (sign : isSign c = true) : isBlank c = false :=
  isBlank_of_isScriptMark (isScriptMark_of_isSign sign)

end Characters

section Reading

variable {c : Char} {rest : List Char}

theorem tokens_word {word : List Char} (is : ∀ d ∈ c :: word, isWordChar d = true)
    (ends : ∀ d, rest.head? = some d → isWordChar d = false) :
    tokens (c :: (word ++ rest)) = (c :: word) :: tokens rest := by
  have first := is c List.mem_cons_self
  have later : ∀ d ∈ word, isWordChar d = true := fun d member => is d (List.mem_cons_of_mem c member)
  have stops : rest.takeWhile isWordChar = [] ∧ rest.dropWhile isWordChar = rest := by
    cases rest with
    | nil => exact ⟨rfl, rfl⟩
    | cons d rest => simp [ends d rfl]
  rw [tokens, if_pos first, List.takeWhile_append_of_pos later, List.dropWhile_append_of_pos later, stops.1,
    stops.2, List.append_nil]

theorem tokens_pair (sign : isSign c = true) : tokens (c :: c :: rest) = [c, c] :: tokens rest := by
  have plain := not_isWordChar_of_isSign sign
  rw [tokens, if_neg (by simp [plain]), if_pos ⟨sign, rfl⟩, List.tail_cons]

theorem tokens_blank (blank : isBlank c = true) : tokens (c :: rest) = tokens rest := by
  have plain := not_isWordChar_of_isBlank blank
  have other : isSign c = false := Bool.eq_false_iff.mpr (mt isBlank_of_isSign (by simp [blank]))
  rw [tokens, if_neg (by simp [plain]), if_neg (by simp [other]), if_pos blank]

theorem tokens_gap {gap : List Char} (blank : allBlank gap = true) : tokens (gap ++ rest) = tokens rest := by
  induction gap with
  | nil => rfl
  | cons c gap ih =>
    obtain ⟨here, later⟩ := allBlank_cons.mp blank
    rw [List.cons_append, tokens_blank here, ih later]

theorem tokens_single (plain : isWordChar c = false) (solid : isBlank c = false)
    (alone : isSign c = true → rest.head? ≠ some c) : tokens (c :: rest) = [c] :: tokens rest := by
  rw [tokens, if_neg (by simp [plain]), if_neg (fun both => alone both.1 both.2), if_neg (by simp [solid])]

/-- The first token begins with the first solid character. -/
theorem head?_tokens (text : List Char) : (tokens text).head?.bind List.head? = (solids text).head? := by
  fun_induction tokens text with
  | case1 => rfl
  | case2 c rest word _ => simp [isBlank_of_isWordChar word]
  | case3 c rest _ pair _ =>
    simp [isBlank_of_isSign pair.1]
  | case4 c rest _ _ blank ih => simpa [solids, blank] using ih
  | case5 c rest _ _ solid _ => simp [Bool.eq_false_iff.mpr solid]

end Reading

section Tight

theorem tight_script (text : List Char) : Tight isScriptMark (script text) := by
  rw [script_eq_refill]
  refine tight_refill ruleOfBlanks_scriptGap (fun c => isBlank_of_isScriptMark) ?_ _
  intro a gap b mark
  exact if_pos (Bool.or_eq_true_iff.mpr mark)

/-- Where no blank follows a sign, the longest match has left nothing that could be read as one token. -/
theorem tokens_separate {text : List Char}
    (closed : text.IsChain fun c d => isSign c = true → isBlank d = false) :
    (tokens text).IsChain fun first second => fuses first second = false := by
  fun_induction tokens text with
  | case1 => exact .nil
  | case2 c rest word ih =>
    have other : isSign c = false := Bool.eq_false_iff.mpr (mt not_isWordChar_of_isSign (by simp [word]))
    have later := ih ((List.isChain_cons.mp closed).2.suffix (List.dropWhile_suffix _))
    refine List.isChain_cons.mpr ⟨fun second _ => ?_, later⟩
    cases rest.takeWhile isWordChar <;> simp [fuses, other]
  | case3 c rest _ pair ih =>
    have later := ih (List.isChain_cons.mp closed).2.tail
    exact List.isChain_cons.mpr ⟨fun _ _ => rfl, later⟩
  | case4 c rest _ _ _ ih => exact ih (List.isChain_cons.mp closed).2
  | case5 c rest _ alone _ ih =>
    obtain ⟨next, closedLater⟩ := List.isChain_cons.mp closed
    refine List.isChain_cons.mpr ⟨fun second found => ?_, ih closedLater⟩
    rw [← Bool.not_eq_true]
    intro fused
    rw [fuses, Bool.and_eq_true, beq_iff_eq] at fused
    obtain ⟨sign, same⟩ := fused
    have begins := head?_tokens rest
    rw [Option.mem_def.mp found, Option.bind_some, same] at begins
    cases rest with
    | nil => cases begins
    | cons d rest =>
      rw [solids_cons_of_solid (next d rfl sign), List.head?_cons] at begins
      exact alone ⟨sign, begins.symm⟩

theorem tokens_script_separate (text : List Char) :
    (tokens (script text)).IsChain fun first second => fuses first second = false := by
  apply tokens_separate
  rw [List.isChain_iff_forall_rel_of_append_cons_cons]
  intro c d before after whole sign
  rw [← Bool.not_eq_true]
  intro blank
  have cut : script text = (before ++ [c]) ++ d :: after := by rw [whole]; simp
  have plain := ((tight_script text).beside _ d after cut blank).1 c List.getLast?_concat
  rw [isScriptMark_of_isSign sign] at plain
  cases plain

end Tight

section Closing

/-- A script on one line, made of words, signs and semicolons with spaces between them. -/
def Wordy (text : List Char) : Prop :=
  ∀ c ∈ text, isWordChar c = true ∨ c ∈ [' ', '+', '-', ';']

instance (text : List Char) : Decidable (Wordy text) :=
  List.decidableBAll _ text

/-- A text with its gaps filled as in a script. `left` is the character in front of the text. -/
abbrev spaced (left : Option Char) (text : List Char) : List Char :=
  refill (within scriptGap) left text

theorem Wordy.suffix {text rest : List Char} (wordy : Wordy text) (part : rest <:+ text) : Wordy rest :=
  fun c member => wordy c (part.subset member)

theorem Wordy.not_mem {text : List Char} (wordy : Wordy text) {c : Char} (other : isWordChar c = false)
    (unlisted : c ∉ [' ', '+', '-', ';']) : c ∉ text := by
  intro member
  cases wordy c member with
  | inl word =>
    rw [other] at word
    cases word
  | inr listed => exact unlisted listed

theorem spaced_solid {left : Option Char} {c : Char} (solid : isBlank c = false) (rest : List Char) :
    spaced left (c :: rest) = c :: spaced (some c) rest := by
  have filled := @refill_solid (within scriptGap) left [] rest c rfl solid
  have nothing : within scriptGap left [] (some c) = [] := by
    cases left with
    | none => rfl
    | some a =>
      change scriptGap a [] c = []
      unfold scriptGap
      split <;> rfl
  rw [nothing] at filled
  exact filled

theorem spaced_word {word : List Char} (is : ∀ c ∈ word, isWordChar c = true) {left : Char}
    (rest : List Char) (leftIs : isWordChar left = true) :
    ∃ last, isWordChar last = true ∧ spaced (some left) (word ++ rest) = word ++ spaced (some last) rest := by
  induction word generalizing left with
  | nil => exact ⟨left, leftIs, rfl⟩
  | cons c word ih =>
    have here := is c List.mem_cons_self
    obtain ⟨last, lastIs, filled⟩ := ih (fun d member => is d (List.mem_cons_of_mem c member)) here
    refine ⟨last, lastIs, ?_⟩
    rw [List.cons_append, spaced_solid (isBlank_of_isWordChar here), filled, List.cons_append]

/-- Behind a mark the text goes on with its next solid character. -/
theorem head?_spaced_mark {c : Char} (mark : isScriptMark c = true) (rest : List Char) :
    (spaced (some c) rest).head? = (solids rest).head? := by
  cases rest using gap_induction with
  | gap gap blank => rw [spaced, refill_gap blank, solids_of_blank blank]; rfl
  | solid gap d rest blank solid =>
    have nothing : within scriptGap (some c) gap (some d) = [] := by
      change scriptGap c gap d = []
      rw [scriptGap, mark, Bool.true_or, if_pos rfl]
    rw [spaced, refill_solid blank solid, nothing, solids_append, solids_of_blank blank, solids_cons_of_solid solid]
    rfl

/-- Behind a word no word character follows, unless it did before. -/
theorem head?_spaced_word {last : Char} (word : isWordChar last = true) {rest : List Char} (oneLine : '\n' ∉ rest)
    (ends : ∀ c, rest.head? = some c → isWordChar c = false) :
    ∀ c, (spaced (some last) rest).head? = some c → isWordChar c = false := by
  cases rest using gap_induction with
  | gap gap blank =>
    rw [spaced, refill_gap blank]
    exact nofun
  | solid gap d rest blank solid =>
    rw [spaced, refill_solid blank solid]
    change ∀ c, (scriptGap last gap d ++ _).head? = some c → _
    have isFilling := ruleOfBlanks_scriptGap last gap d blank
    cases put : scriptGap last gap d with
    | cons e space =>
      intro c found
      cases found
      rw [put] at isFilling
      exact not_isWordChar_of_isBlank (allBlank_cons.mp isFilling).1
    | nil =>
      intro c found
      cases found
      rw [← Bool.not_eq_true]
      intro wordHere
      -- Between two words the gap stays open, so there was none and the word went on before.
      rw [scriptGap, isScriptMark_of_isWordChar word, isScriptMark_of_isWordChar wordHere] at put
      have together : gap = [] := by
        by_contra apart
        exact lineGap_ne_nil apart (fun member => oneLine (List.mem_append_left _ member)) put
      subst together
      rw [ends d rfl] at wordHere
      cases wordHere

theorem tokens_spaced_blank {left : Option Char} {c : Char} (blank : isBlank c = true) (rest : List Char) :
    tokens (spaced left (c :: rest)) = tokens (spaced left rest) := by
  have blanks := fillsBlank_within ruleOfBlanks_scriptGap
  induction rest using gap_induction with
  | gap space isGap =>
    have whole : allBlank (c :: space) = true := allBlank_cons.mpr ⟨blank, isGap⟩
    have front := @tokens_gap [] _ (blanks left (c :: space) none whole)
    have back := @tokens_gap [] _ (blanks left space none isGap)
    rw [List.append_nil] at front back
    rw [spaced, spaced, refill_gap whole, refill_gap isGap, front, back]
  | solid space d rest isGap solid _ =>
    have whole : allBlank (c :: space) = true := allBlank_cons.mpr ⟨blank, isGap⟩
    rw [spaced, spaced, ← List.cons_append, refill_solid whole solid, refill_solid isGap solid,
      tokens_gap (blanks _ _ _ whole), tokens_gap (blanks _ _ _ isGap)]

/-- Where no two tokens fuse, closing gaps leaves the tokens as they are. -/
theorem tokens_spaced {text : List Char} (wordy : Wordy text)
    (separate : (tokens text).IsChain fun first second => fuses first second = false) (left : Option Char) :
    tokens (spaced left text) = tokens text := by
  fun_induction tokens text generalizing left with
  | case1 =>
    have nothing : within scriptGap left [] none = [] := by cases left <;> rfl
    rw [spaced, refill_gap rfl, nothing, tokens]
  | case2 c rest word ih =>
    have wordyRest := wordy.suffix (List.suffix_cons c rest)
    have wordyLater := wordyRest.suffix (List.dropWhile_suffix isWordChar)
    have later : ∀ d ∈ rest.takeWhile isWordChar, isWordChar d = true :=
      fun d member => List.all_eq_true.mp List.all_takeWhile d member
    have stops : ∀ d, (rest.dropWhile isWordChar).head? = some d → isWordChar d = false := by
      intro d found
      have stop := List.head?_dropWhile_not isWordChar rest
      rw [found] at stop
      simpa using stop
    obtain ⟨last, lastIs, filled⟩ := spaced_word later (rest.dropWhile isWordChar) word
    rw [List.takeWhile_append_dropWhile] at filled
    rw [spaced_solid (isBlank_of_isWordChar word), filled,
      tokens_word (List.forall_mem_cons.mpr ⟨word, later⟩)
        (head?_spaced_word lastIs (wordyLater.not_mem rfl (by decide)) stops),
      ih wordyLater (List.isChain_cons.mp separate).2]
  | case3 c rest _ pair ih =>
    obtain ⟨sign, next⟩ := pair
    obtain ⟨more, rfl⟩ := List.head?_eq_some_iff.mp next
    have solid := isBlank_of_isSign sign
    have wordyLater : Wordy more := wordy.suffix ⟨[c, c], rfl⟩
    rw [spaced_solid solid, spaced_solid solid, tokens_pair sign, List.tail_cons]
    exact congrArg _ (ih wordyLater (List.isChain_cons.mp separate).2 (some c))
  | case4 c rest _ _ blank ih =>
    rw [tokens_spaced_blank blank, ih (wordy.suffix (List.suffix_cons c rest)) separate]
  | case5 c rest plain alone solid ih =>
    rw [Bool.not_eq_true] at plain solid
    obtain ⟨apart, separateLater⟩ := List.isChain_cons.mp separate
    have apartHere : isSign c = true → (spaced (some c) rest).head? ≠ some c := by
      intro sign next
      -- The next solid character begins the next token, which would fuse with this one.
      rw [head?_spaced_mark (isScriptMark_of_isSign sign), ← head?_tokens] at next
      obtain ⟨second, found, begins⟩ := Option.bind_eq_some_iff.mp next
      have fused : fuses [c] second = true := by simp [fuses, sign, begins]
      rw [apart second found] at fused
      cases fused
    rw [spaced_solid solid, tokens_single plain solid apartHere,
      ih (wordy.suffix (List.suffix_cons c rest)) separateLater]

end Closing

/-- A short script has the tokens of the script exactly if no single sign stands before a token that begins
with the same sign. -/
theorem tokens_script_eq_iff {text : List Char} (wordy : Wordy text) :
    tokens (script text) = tokens text ↔
      (tokens text).IsChain fun first second => fuses first second = false := by
  constructor
  · intro same
    rw [← same]
    exact tokens_script_separate text
  · intro separate
    have bare := dropComments_of_no_slash (wordy.not_mem (c := '/') rfl (by decide))
    rw [script_eq_refill, bare.1, bare.2]
    exact tokens_spaced wordy separate none

/-- A doubled sign keeps its two halves in front of a third. -/
theorem tokens_script_eq_iff_doubled :
    Wordy "i++ + j - 1;".toList ∧ tokens (script "i++ + j - 1;".toList) = tokens "i++ + j - 1;".toList :=
  ⟨by decide, (tokens_script_eq_iff (by decide)).mpr (by decide +kernel)⟩

/-- A sum with a signed summand becomes an increment. -/
theorem tokens_script_fused :
    Wordy "a + +b".toList ∧ tokens (script "a + +b".toList) = [['a'], ['+', '+'], ['b']] ∧
    tokens (script "a + +b".toList) ≠ tokens "a + +b".toList := by
  decide +kernel

end PageInliner.Minify
