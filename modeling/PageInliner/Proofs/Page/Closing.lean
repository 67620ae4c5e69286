import PageInliner.Page.Embedding

/-!
# Closing tags behind embedded texts

A text in the form in which it is embedded holds no closing tag of its own element, and none can arise
where it meets the line break behind it. The first closing tag from the start of the text on is therefore
the one that the page puts there, and it tells where the text ends.
-/

set_option autoImplicit false

namespace PageInliner.Text

/-- The first place of a text at which a word begins, whatever the case of the ASCII letters in the text.
The word is in small letters. -/
structure FirstAt (word text : List Char) (place : Nat) : Prop where
  begins : word <+: (text.drop place).map Char.toLower
  first : ∀ earlier < place, ¬ word <+: (text.drop earlier).map Char.toLower

theorem FirstAt.unique {word text : List Char} {place other : Nat} (here : FirstAt word text place)
    (there : FirstAt word text other) : place = other := by
  rcases Nat.lt_trichotomy place other with earlier | same | later
  · exact absurd here.begins (there.first place earlier)
  · exact same
  · exact absurd there.begins (here.first other later)

/-- A word that stands at the front of a text does not reach beyond a character it does not have. -/
theorem prefix_of_prefix_append_cons {word front rest : List Char} {c : Char}
    (stands : word <+: front ++ c :: rest) (absent : c ∉ word) : word <+: front := by
  induction word generalizing front with
  | nil => exact List.nil_prefix
  | cons w word ih =>
    cases front with
    | nil =>
      obtain ⟨rfl, _⟩ := List.cons_prefix_cons.mp stands
      simp at absent
    | cons d front =>
      obtain ⟨rfl, later⟩ := List.cons_prefix_cons.mp stands
      exact List.cons_prefix_cons.mpr ⟨rfl, ih later fun member => absent (List.mem_cons_of_mem _ member)⟩

theorem startsFolded_of_prefix {word text : List Char} (small : ∀ w ∈ word, foldCase w = w)
    (begins : word <+: text.map Char.toLower) : startsFolded word text = true := by
  induction word generalizing text with
  | nil => rfl
  | cons w word ih =>
    cases text with
    | nil => simp at begins
    | cons c text =>
      obtain ⟨same, later⟩ := List.cons_prefix_cons.mp begins
      have folded : foldCase c = w := by
        have kept := small w List.mem_cons_self
        rw [same] at kept ⊢
        by_cases long : c = Char.ofNat 0x17F
        · subst long
          simp [foldCase] at kept
        · by_cases kelvin : c = Char.ofNat 0x212A
          · subst kelvin
            simp [foldCase] at kept
          · simp [foldCase, long, kelvin]
      have rest := ih (fun v member => small v (List.mem_cons_of_mem _ member)) later
      simp [startsFolded, folded, rest]

theorem not_startsFolded_drop {word text : List Char} (clean : containsFolded word text = false)
    (place : Nat) : startsFolded word (text.drop place) = false := by
  induction text generalizing place with
  | nil => simpa [containsFolded] using clean
  | cons c text ih =>
    simp only [containsFolded, Bool.or_eq_false_iff] at clean
    cases place with
    | zero => exact clean.1
    | succ place => exact ih clean.2 place

/-- A word in small letters and without blanks. -/
structure IsPlain (word : List Char) : Prop where
  nonempty : word ≠ []
  folded : ∀ w ∈ word, foldCase w = w
  lower : ∀ w ∈ word, w.toLower = w
  solid : '\n' ∉ word ∧ ' ' ∉ word

/-- A word that a text does not hold is first found behind the text and the line break and spaces that
follow it. -/
theorem firstAt_of_clean {word text gap rest : List Char} (plain : IsPlain word)
    (clean : containsFolded word text = false) (apart : gap ≠ [])
    (blank : ∀ c ∈ gap, c = '\n' ∨ c = ' ') :
    FirstAt word (text ++ gap ++ word ++ rest) (text.length + gap.length) := by
  have solid : ∀ c ∈ gap, c.toLower ∉ word := by
    intro c member
    rcases blank c member with rfl | rfl
    · exact plain.solid.1
    · exact plain.solid.2
  constructor
  · have cut : (text ++ gap ++ word ++ rest).drop (text.length + gap.length) = word ++ rest := by
      rw [List.append_assoc (text ++ gap), ← List.length_append, List.drop_left]
    rw [cut, List.map_append, List.map_congr_left plain.lower, List.map_id']
    exact List.prefix_append _ _
  · intro earlier before stands
    rw [List.append_assoc, List.append_assoc] at stands
    rcases Nat.lt_or_ge earlier text.length with within | beyond
    · -- Begun inside the text the word would have to reach over the gap, or lie in the text.
      obtain ⟨c, gap, rfl⟩ := List.exists_cons_of_ne_nil apart
      rw [List.drop_append_of_le_length (Nat.le_of_lt within), List.map_append, List.cons_append,
        List.map_cons] at stands
      have inside := prefix_of_prefix_append_cons stands (solid c List.mem_cons_self)
      have found := startsFolded_of_prefix plain.folded inside
      rw [not_startsFolded_drop clean earlier] at found
      cases found
    · obtain ⟨further, rfl⟩ := Nat.exists_eq_add_of_le beyond
      have short : further < gap.length := by omega
      rw [List.drop_length_add_append, List.drop_append_of_le_length (Nat.le_of_lt short),
        List.drop_eq_getElem_cons short, List.cons_append, List.map_cons] at stands
      obtain ⟨w, word, rfl⟩ := List.exists_cons_of_ne_nil plain.nonempty
      obtain ⟨rfl, _⟩ := List.cons_prefix_cons.mp stands
      exact solid _ (List.getElem_mem short) List.mem_cons_self

end PageInliner.Text

namespace PageInliner.Page

open Text

/-- What the closing tag of an element begins with. -/
def closingTag (tag : String) : List Char :=
  '<' :: '/' :: tag.toList

theorem isPlain_closingTag {kind : Asset.Kind} {tag : String} (tagged : kind.tag? = some tag) :
    IsPlain (closingTag tag) := by
  have plain : (closingTag tag).all (fun w =>
      foldCase w == w && w.toLower == w && w != '\n' && w != ' ') = true := by
    cases kind <;> cases tagged <;> decide +kernel
  simp only [List.all_eq_true, Bool.and_eq_true, beq_iff_eq, bne_iff_ne] at plain
  refine ⟨List.cons_ne_nil _ _, fun w member => (plain w member).1.1.1,
    fun w member => (plain w member).1.1.2, ?_, ?_⟩
  · exact fun member => (plain '\n' member).1.2 rfl
  · exact fun member => (plain ' ' member).2 rfl

private theorem toLower_eq_or (c : Char) :
    c.toLower = c ∨ 65 ≤ c.val.toNat ∧ c.toLower.val.toNat = c.val.toNat + 32 := by
  by_cases capital : c.val ≥ 'A'.val ∧ c.val ≤ 'Z'.val
  · right
    have least : 65 ≤ c.val.toNat := capital.1
    have most : c.val.toNat ≤ 90 := capital.2
    have lowered : c.toLower = _ := dif_pos capital
    have shift : ('a'.val - 'A'.val).toNat = 32 := by decide
    refine ⟨least, ?_⟩
    rw [lowered]
    change (c.val + ('a'.val - 'A'.val)).toNat = _
    rw [UInt32.toNat_add, shift]
    omega
  · exact .inl (dif_neg capital)

private theorem eq_less_of_foldCase {c : Char} (folded : foldCase c = '<') : c = '<' := by
  by_cases long : c = Char.ofNat 0x17F
  · simp [foldCase, long] at folded
  · by_cases kelvin : c = Char.ofNat 0x212A
    · simp [foldCase, kelvin] at folded
    · simp only [foldCase, long, kelvin, ↓reduceIte] at folded
      rcases toLower_eq_or c with same | ⟨least, shifted⟩
      · exact same.symm.trans folded
      · rw [folded] at shifted
        have less : '<'.val.toNat = 60 := rfl
        omega

/-- A backslash is only put behind `<`, so a word without `<` that stands in the result stood there
before. -/
private theorem startsFolded_of_escapeScriptClose {word text : List Char} (solid : '<' ∉ word)
    (begins : startsFolded word (escapeScriptClose text) = true) : startsFolded word text = true := by
  induction text generalizing word with
  | nil => exact begins
  | cons c text ih =>
    cases word with
    | nil => rfl
    | cons w word =>
      rw [List.mem_cons, not_or] at solid
      simp only [escapeScriptClose] at begins
      split at begins
      case isTrue opened =>
        simp only [Bool.and_eq_true, beq_iff_eq] at opened
        obtain ⟨rfl, _⟩ := opened
        simp only [startsFolded, Bool.and_eq_true, beq_iff_eq] at begins
        exact absurd begins.1 solid.1
      case isFalse =>
        simp only [startsFolded, Bool.and_eq_true] at begins ⊢
        exact ⟨begins.1, ih solid.2 begins.2⟩

private theorem closingTag_script : closingTag "script" = '<' :: scriptClose := rfl

private theorem closingTag_style : closingTag "style" = styleClose := by
  decide

theorem containsFolded_escapeScriptClose (text : List Char) :
    containsFolded (closingTag "script") (escapeScriptClose text) = false := by
  rw [closingTag_script]
  induction text with
  | nil => rfl
  | cons c text ih =>
    simp only [escapeScriptClose]
    split
    case isTrue =>
      have slash : (foldCase '\\' == '/') = false := by decide
      have less : (foldCase '\\' == '<') = false := by decide
      obtain ⟨more, spelled⟩ : ∃ more, scriptClose = '/' :: more := ⟨_, String.toList_ofList⟩
      rw [spelled] at ih ⊢
      simp only [containsFolded, startsFolded, less, slash, ih, Bool.or_false, Bool.false_and,
        Bool.and_false]
    case isFalse closed =>
      rw [containsFolded, Bool.or_eq_false_iff]
      refine ⟨?_, ih⟩
      rw [Bool.eq_false_iff]
      intro begins
      simp only [startsFolded, Bool.and_eq_true, beq_iff_eq] at begins
      have stood := startsFolded_of_escapeScriptClose (by decide) begins.2
      exact closed (by simp [eq_less_of_foldCase begins.1, stood])

theorem containsFolded_of_embeddable {asset : Asset} {tag text : String}
    (tagged : asset.kind.tag? = some tag) (embedded : embeddable asset = .ok text) :
    containsFolded (closingTag tag) text.toList = false := by
  unfold embeddable at embedded
  cases kind : asset.kind with
  | markup => simp [kind, Asset.Kind.tag?] at tagged
  | style =>
    rw [kind] at embedded tagged
    cases tagged
    dsimp only at embedded
    split at embedded
    case isTrue => cases embedded
    case isFalse clean =>
      cases embedded
      rw [closingTag_style]
      exact Bool.eq_false_iff.mpr clean
  | script =>
    rw [kind] at embedded tagged
    cases tagged
    cases embedded
    rw [String.toList_ofList]
    exact containsFolded_escapeScriptClose _

/-- Behind an embedded text the first closing tag of its element is the one that is put there. -/
theorem firstAt_closingTag {asset : Asset} {tag text : String} {gap : List Char}
    (tagged : asset.kind.tag? = some tag) (embedded : embeddable asset = .ok text) (apart : gap ≠ [])
    (blank : ∀ c ∈ gap, c = '\n' ∨ c = ' ') (rest : List Char) :
    FirstAt (closingTag tag) (text.toList ++ gap ++ closingTag tag ++ rest)
      (text.toList.length + gap.length) :=
  firstAt_of_clean (isPlain_closingTag tagged) (containsFolded_of_embeddable tagged embedded) apart blank

/-- A piece of a page that closes an element: a line break and perhaps spaces, and then the closing tag. -/
def Closes (tag : String) (piece : List Char) : Prop :=
  ∃ gap more, piece = gap ++ closingTag tag ++ more ∧ gap ≠ [] ∧ ∀ c ∈ gap, c = '\n' ∨ c = ' '

/-- A page tells where an embedded text ends, and so what it is. -/
theorem embeddable_append_injective {first second : Asset} {kind : Asset.Kind}
    {tag firstText secondText : String} {piece firstRest secondRest : List Char}
    (firstKind : first.kind = kind) (secondKind : second.kind = kind) (tagged : kind.tag? = some tag)
    (firstEmbedded : embeddable first = .ok firstText)
    (secondEmbedded : embeddable second = .ok secondText) (closes : Closes tag piece)
    (same : firstText.toList ++ (piece ++ firstRest) = secondText.toList ++ (piece ++ secondRest)) :
    firstText = secondText ∧ firstRest = secondRest := by
  obtain ⟨gap, more, rfl, apart, blank⟩ := closes
  have firstClose :=
    firstAt_closingTag (firstKind ▸ tagged) firstEmbedded apart blank (more ++ firstRest)
  have secondClose :=
    firstAt_closingTag (secondKind ▸ tagged) secondEmbedded apart blank (more ++ secondRest)
  simp only [List.append_assoc] at same firstClose secondClose
  rw [same] at firstClose
  have sizes := firstClose.unique secondClose
  obtain ⟨texts, rests⟩ := List.append_inj same (by omega)
  refine ⟨String.toList_injective texts, ?_⟩
  simpa only [List.append_cancel_left_eq] using rests

end PageInliner.Page
