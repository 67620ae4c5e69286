import PageInliner.Proofs.Minify.Shrinking
import PageInliner.Proofs.Page.Closing

/-!
# What becomes of a text that is embedded

A closing tag is found in every spelling of its letters. In a script each of them is written with a
backslash in it and all else stays as it was; a stylesheet with one in it is refused; markup is never
changed.
-/

set_option autoImplicit false

namespace PageInliner.Text

section Spelling

/-- The characters that count as `w` where case does not matter: the character itself, its capital, and
for two letters one character beyond ASCII. -/
def spellings (w : Char) : List Char :=
  w :: w.toUpper ::
    if w = 's' then [Char.ofNat 0x17F] else if w = 'k' then [Char.ofNat 0x212A] else []

/-- The word stands at the place, in any of its spellings. -/
def SpelledAt (word text : List Char) (place : Nat) : Prop :=
  List.Forall₂ (fun c w => c ∈ spellings w) ((text.drop place).take word.length) word

instance (word text : List Char) : DecidablePred (SpelledAt word text) := fun place =>
  inferInstanceAs (Decidable
    (List.Forall₂ (fun c w => c ∈ spellings w) ((text.drop place).take word.length) word))

/-- The places of a text at which the word stands. -/
def places (word text : List Char) : List Nat :=
  (List.range text.length).filter fun place => SpelledAt word text place

private theorem toNat_toLower (c : Char) :
    c.toLower.toNat = if 65 ≤ c.toNat ∧ c.toNat ≤ 90 then c.toNat + 32 else c.toNat := by
  by_cases capital : 65 ≤ c.toNat ∧ c.toNat ≤ 90
  · have lowered : c.toLower = _ := dif_pos capital
    rw [if_pos capital, lowered]
    change (c.val + 32).toNat = c.val.toNat + 32
    have most : c.val.toNat ≤ 90 := capital.2
    rw [UInt32.toNat_add]
    exact Nat.mod_eq_of_lt (show c.val.toNat + 32 < 2 ^ 32 by omega)
  · rw [if_neg capital]
    exact congrArg Char.toNat (dif_neg capital)

private theorem toNat_toUpper (c : Char) :
    c.toUpper.toNat = if 97 ≤ c.toNat ∧ c.toNat ≤ 122 then c.toNat - 32 else c.toNat := by
  by_cases small : 97 ≤ c.toNat ∧ c.toNat ≤ 122
  · have raised : c.toUpper = _ := dif_pos small
    rw [if_pos small, raised]
    -- The distance between the two cases is negative, so the addition wraps around.
    change (c.val + 4294967264).toNat = c.val.toNat - 32
    have least : 97 ≤ c.val.toNat := small.1
    have most : c.val.toNat ≤ 122 := small.2
    rw [UInt32.toNat_add]
    change (c.val.toNat + 4294967264) % 2 ^ 32 = _
    omega
  · rw [if_neg small]
    exact congrArg Char.toNat (dif_neg small)

private theorem toLower_eq_iff {c w : Char} (small : w.toLower = w) :
    c.toLower = w ↔ c = w ∨ c = w.toUpper := by
  simp only [← Char.toNat_inj, toNat_toLower, toNat_toUpper] at small ⊢
  split at small <;> split <;> split <;> omega

private theorem mem_spellings_iff {c w : Char} (small : w.toLower = w) :
    c ∈ spellings w ↔
      c.toLower = w ∨ (w = 's' ∧ c = Char.ofNat 0x17F) ∨ (w = 'k' ∧ c = Char.ofNat 0x212A) := by
  rw [toLower_eq_iff small, spellings, List.mem_cons, List.mem_cons, or_assoc]
  by_cases isS : w = 's'
  · subst isS
    simp
  · by_cases isK : w = 'k' <;> simp [isS, isK]

theorem foldCase_eq_iff {c w : Char} (small : foldCase w = w) : foldCase c = w ↔ c ∈ spellings w := by
  have notLong : w ≠ Char.ofNat 0x17F := by
    intro same
    subst same
    exact absurd small (by decide)
  have notKelvin : w ≠ Char.ofNat 0x212A := by
    intro same
    subst same
    exact absurd small (by decide)
  have lower : w.toLower = w := by
    simpa only [foldCase, notLong, notKelvin, ↓reduceIte] using small
  rw [mem_spellings_iff lower]
  by_cases long : c = Char.ofNat 0x17F
  · subst long
    have folded : foldCase (Char.ofNat 0x17F) = 's' := by decide
    have same : (Char.ofNat 0x17F).toLower = Char.ofNat 0x17F := by decide
    have differs : Char.ofNat 0x17F ≠ Char.ofNat 0x212A := by decide
    simp only [folded, same, notLong.symm, differs, and_false, or_false, and_true, false_or]
    exact eq_comm
  · by_cases kelvin : c = Char.ofNat 0x212A
    · subst kelvin
      have folded : foldCase (Char.ofNat 0x212A) = 'k' := by decide
      have same : (Char.ofNat 0x212A).toLower = Char.ofNat 0x212A := by decide
      simp only [folded, same, notKelvin.symm, long, and_false, and_true, false_or]
      exact eq_comm
    · simp only [foldCase, long, kelvin, ↓reduceIte, and_false, or_false]

/-- The search for a word finds it in all its spellings and in no other. -/
theorem startsFolded_iff {word : List Char} (small : ∀ w ∈ word, foldCase w = w) (text : List Char) :
    startsFolded word text = true ↔ SpelledAt word text 0 := by
  rw [SpelledAt, List.drop_zero]
  induction word generalizing text with
  | nil => simp [startsFolded]
  | cons w word ih =>
    cases text with
    | nil =>
      rw [List.take_nil]
      constructor <;> intro found <;> cases found
    | cons c text =>
      rw [List.forall_mem_cons] at small
      rw [startsFolded, Bool.and_eq_true, beq_iff_eq, foldCase_eq_iff small.1, ih small.2,
        List.length_cons, List.take_succ_cons, List.forall₂_cons]

theorem spelledAt_succ {word text : List Char} {c : Char} {place : Nat} :
    SpelledAt word (c :: text) (place + 1) ↔ SpelledAt word text place := Iff.rfl

theorem containsFolded_iff {word : List Char} (small : ∀ w ∈ word, foldCase w = w) (text : List Char) :
    containsFolded word text = true ↔ ∃ place, SpelledAt word text place := by
  induction text with
  | nil =>
    rw [containsFolded, startsFolded_iff small]
    constructor
    · exact fun here => ⟨0, here⟩
    · intro found
      obtain ⟨place, here⟩ := found
      simpa only [SpelledAt, List.drop_nil] using here
  | cons c text ih =>
    rw [containsFolded, Bool.or_eq_true, startsFolded_iff small, ih]
    constructor
    · intro found
      cases found with
      | inl here => exact ⟨0, here⟩
      | inr later =>
        obtain ⟨place, there⟩ := later
        exact ⟨place + 1, there⟩
    · intro found
      obtain ⟨place, here⟩ := found
      cases place with
      | zero => exact .inl here
      | succ place => exact .inr ⟨place, here⟩

theorem length_places_cons (word text : List Char) (c : Char) :
    (places word (c :: text)).length =
      (if SpelledAt word (c :: text) 0 then 1 else 0) + (places word text).length := by
  rw [places, List.length_cons, List.range_succ_eq_map, List.filter_cons, List.filter_map,
    places]
  by_cases here : SpelledAt word (c :: text) 0
  · simp [here, Function.comp_def, spelledAt_succ, Nat.add_comm]
  · simp [here, Function.comp_def, spelledAt_succ]

end Spelling

end PageInliner.Text

namespace PageInliner.Page

open Text

section Guard

private theorem small_scriptEnd : ∀ w ∈ closingTag "script", foldCase w = w :=
  have tagged : Asset.Kind.script.tag? = some "script" := rfl
  (isPlain_closingTag tagged).folded

private theorem small_styleClose : ∀ w ∈ styleClose, foldCase w = w := by
  have tagged : Asset.Kind.style.tag? = some "style" := rfl
  have spelled : styleClose = closingTag "style" := by decide
  rw [spelled]
  exact (isPlain_closingTag tagged).folded

private theorem opens_iff (c : Char) (rest : List Char) :
    (c == '<' && startsFolded scriptClose rest) = true ↔ SpelledAt (closingTag "script") (c :: rest) 0 := by
  have opener : foldCase c = '<' ↔ c = '<' := by
    rw [foldCase_eq_iff (by decide)]
    simp [spellings]
  rw [← startsFolded_iff small_scriptEnd]
  change _ ↔ startsFolded ('<' :: scriptClose) (c :: rest) = true
  rw [startsFolded, Bool.and_eq_true, Bool.and_eq_true, beq_iff_eq, beq_iff_eq, opener]

private theorem escapeScriptClose_cons (c : Char) (rest : List Char) :
    escapeScriptClose (c :: rest) =
      (if SpelledAt (closingTag "script") (c :: rest) 0 then [c, '\\'] else [c]) ++
        escapeScriptClose rest := by
  rw [escapeScriptClose]
  by_cases spelled : SpelledAt (closingTag "script") (c :: rest) 0
  · rw [if_pos ((opens_iff c rest).mpr spelled), if_pos spelled]
    rfl
  · rw [if_neg fun opens => spelled ((opens_iff c rest).mp opens), if_neg spelled]
    rfl

/-- Every character is kept, and a backslash comes behind the `<` of each closing tag. -/
theorem escapeScriptClose_eq_flatMap (text : List Char) :
    escapeScriptClose text = text.zipIdx.flatMap fun (c, place) =>
      if SpelledAt (closingTag "script") text place then [c, '\\'] else [c] := by
  induction text with
  | nil => rfl
  | cons c rest ih =>
    rw [escapeScriptClose_cons, ih, List.zipIdx_cons, List.flatMap_cons, Nat.zero_add, List.zipIdx_succ,
      List.flatMap_map]
    rfl

theorem size_escapeScriptClose (weight : Char → Nat) (text : List Char) :
    Minify.size weight (escapeScriptClose text) =
      Minify.size weight text + (places (closingTag "script") text).length * weight '\\' := by
  induction text with
  | nil => simp [escapeScriptClose, Minify.size, places]
  | cons c rest ih =>
    rw [escapeScriptClose_cons, length_places_cons]
    by_cases spelled : SpelledAt (closingTag "script") (c :: rest) 0
    · simp only [spelled, ↓reduceIte, List.cons_append, List.nil_append, Minify.size, ih, Nat.add_mul]
      omega
    · simp only [spelled, ↓reduceIte, List.cons_append, List.nil_append, Minify.size, ih, Nat.zero_add]
      omega

theorem escapeScriptClose_of_clean {text : List Char}
    (clean : ∀ place, ¬ SpelledAt (closingTag "script") text place) : escapeScriptClose text = text := by
  rw [escapeScriptClose_eq_flatMap]
  simp only [clean, ↓reduceIte]
  rw [← List.map_eq_flatMap, List.zipIdx_map_fst]

/-- What becomes of a text, told by the places at which it holds the closing tag of its own element. A script
gets a backslash behind the `<` of each of them and is otherwise the same; then it holds none, so that a
second round changes nothing. A stylesheet is refused if there is one, and markup stays what it is. -/
theorem embeddable_exact (asset : Asset) :
    match asset.kind with
    | .markup => embeddable asset = .ok asset.text
    | .style =>
      ((∃ place, SpelledAt styleClose asset.text.toList place) →
        embeddable asset = .error (.endsOwnBlock asset.path "</style")) ∧
      ((∀ place, ¬ SpelledAt styleClose asset.text.toList place) → embeddable asset = .ok asset.text)
    | .script => ∃ text, embeddable asset = .ok text ∧
      text.toList = (asset.text.toList.zipIdx.flatMap fun (c, place) =>
        if SpelledAt (closingTag "script") asset.text.toList place then [c, '\\'] else [c]) ∧
      (∀ place, ¬ SpelledAt (closingTag "script") text.toList place) ∧
      embeddable { asset with text := text } = .ok text ∧
      text.length = asset.text.length + (places (closingTag "script") asset.text.toList).length ∧
      text.utf8ByteSize =
        asset.text.utf8ByteSize + (places (closingTag "script") asset.text.toList).length := by
  cases kind : asset.kind with
  | markup => simp only [embeddable, kind]
  | style =>
    have found := containsFolded_iff small_styleClose asset.text.toList
    simp only [embeddable, kind]
    constructor
    · intro spelled
      rw [if_pos (found.mpr spelled)]
    · intro clean
      rw [if_neg fun spelled => not_exists.mpr clean (found.mp spelled)]
  | script =>
    -- With no closing tag left, the second round is the case of a clean text.
    have clean : ∀ place, ¬ SpelledAt (closingTag "script") (escapeScriptClose asset.text.toList) place := by
      rw [← not_exists, ← containsFolded_iff small_scriptEnd,
        containsFolded_escapeScriptClose]
      exact Bool.false_ne_true
    have grows (weight : Char → Nat) (backslash : weight '\\' = 1) :
        Minify.size weight (escapeScriptClose asset.text.toList) =
          Minify.size weight asset.text.toList +
            (places (closingTag "script") asset.text.toList).length := by
      rw [size_escapeScriptClose, backslash, Nat.mul_one]
    refine ⟨.ofList (escapeScriptClose asset.text.toList), ?_, ?_, ?_, ?_, ?_, ?_⟩
    · simp only [embeddable, kind]
    · rw [String.toList_ofList]
      exact escapeScriptClose_eq_flatMap _
    · rwa [String.toList_ofList]
    · simp only [embeddable, String.toList_ofList, escapeScriptClose_of_clean clean]
    · rw [← Minify.size_one, ← Minify.size_one, String.toList_ofList, grows _ rfl]
    · rw [← Minify.size_utf8Size, ← Minify.size_utf8Size, String.toList_ofList, grows _ rfl]

example : embeddable ⟨.script, ⟨"a.js"⟩, "a</ScRiPt></ſcript"⟩ = .ok "a<\\/ScRiPt><\\/ſcript" := by
  decide +kernel

end Guard

end PageInliner.Page
