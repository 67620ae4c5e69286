import PageInliner.Proofs.Text.Layout

/-!
# Substitution as a scan

Two other ways to see a substitution. The one searches every key in what is left of the text and replaces the
earliest of the occurrences it has found; the other goes over the text once and decides at each place by what
stands there. All three come to the same text, however the keys overlap.
-/

set_option autoImplicit false

namespace PageInliner.Text

/-- The first occurrence of each key that is not empty and occurs at all, in the order of the bindings. -/
def occurrences (bindings : List Binding) (text : List Char) : List Hit :=
  (bindings.filter fun binding => !binding.key.isEmpty).filterMap fun binding =>
    (cut? binding.key text).map fun cut => ⟨cut.before, binding.value, cut.after⟩

/-- The occurrence that begins first; of several that begin at one place, the first in the list. -/
def earliest? : List Hit → Option Hit
  | [] => none
  | hit :: hits =>
    match earliest? hits with
    | none => some hit
    | some other => if other.before.length < hit.before.length then some other else some hit

/-- One walk over the text. Where keys stand, the value of the first of them is put out and its key is passed
over; any other character is put out as it is. -/
def scan (bindings : List Binding) : List Char → List Char
  | [] => []
  | c :: text =>
    match _ : standing? Binding.key bindings (c :: text) with
    | none => c :: scan bindings text
    | some binding => binding.value ++ scan bindings ((c :: text).drop binding.key.length)
termination_by text => text.length
decreasing_by
  · exact Nat.lt_succ_self _
  · have nonempty := (standing?_eq_some ‹_›).2.1
    have positive := List.length_pos_iff.mpr nonempty
    rw [List.length_drop, List.length_cons]
    omega

section Search

variable {bindings : List Binding} {c : Char} {text : List Char}

private def Hit.behind (c : Char) (hit : Hit) : Hit :=
  { hit with before := c :: hit.before }

private theorem occurrences_cons_of_empty {binding : Binding} (empty : binding.key.isEmpty = true)
    (bindings : List Binding) (text : List Char) :
    occurrences (binding :: bindings) text = occurrences bindings text := by
  rw [occurrences, List.filter_cons_of_neg (by simp [empty])]
  rfl

private theorem occurrences_cons_of_nonempty {binding : Binding} (nonempty : binding.key.isEmpty = false)
    (bindings : List Binding) (text : List Char) :
    occurrences (binding :: bindings) text =
      ((cut? binding.key text).map fun cut => ⟨cut.before, binding.value, cut.after⟩).toList ++
        occurrences bindings text := by
  rw [occurrences, List.filter_cons_of_pos (by simp [nonempty]), List.filterMap_cons]
  cases cut? binding.key text <;> rfl

private theorem earliest?_map_behind (c : Char) (hits : List Hit) :
    earliest? (hits.map (Hit.behind c)) = (earliest? hits).map (Hit.behind c) := by
  induction hits with
  | nil => rfl
  | cons hit hits ih =>
    rw [List.map_cons, earliest?, earliest?, ih]
    cases earliest? hits with
    | none => rfl
    | some other =>
      simp only [Option.map_some, Hit.behind, List.length_cons, Nat.add_lt_add_iff_right]
      split <;> rfl

private theorem earliest?_occurrences_of_front {hit : Hit} (front : frontHit? bindings (c :: text) = some hit) :
    earliest? (occurrences bindings (c :: text)) = some hit := by
  have atFront : hit.before = [] := by
    obtain ⟨_, _, _, atFront, _, _⟩ := exists_of_frontHit? front
    exact atFront
  induction bindings with
  | nil => cases front
  | cons binding bindings ih =>
    cases empty : binding.key.isEmpty with
    | true =>
      rw [frontHit?, if_pos empty] at front
      rw [occurrences_cons_of_empty empty]
      exact ih front
    | false =>
      rw [frontHit?, if_neg (by simp [empty])] at front
      rw [occurrences_cons_of_nonempty empty]
      cases stands : after? binding.key (c :: text) with
      | some rest =>
        rw [stands] at front
        cases front
        -- Nothing begins before the front, so what comes later in the list is not taken.
        rw [cut?_of_after? stands]
        simp only [Option.map_some, Option.toList_some, List.singleton_append, earliest?]
        cases earliest? (occurrences bindings (c :: text)) <;> simp
      | none =>
        rw [stands] at front
        cases found : cut? binding.key text with
        | none => simpa [cut?, stands, found] using ih front
        | some cut => simp [cut?, stands, found, earliest?, ih front, atFront]

private theorem occurrences_cons_of_free (free : frontHit? bindings (c :: text) = none) :
    occurrences bindings (c :: text) = (occurrences bindings text).map (Hit.behind c) := by
  induction bindings with
  | nil => rfl
  | cons binding bindings ih =>
    cases empty : binding.key.isEmpty with
    | true =>
      rw [frontHit?, if_pos empty] at free
      rw [occurrences_cons_of_empty empty, occurrences_cons_of_empty empty]
      exact ih free
    | false =>
      rw [frontHit?, if_neg (by simp [empty])] at free
      rw [occurrences_cons_of_nonempty empty, occurrences_cons_of_nonempty empty]
      cases stands : after? binding.key (c :: text) with
      | some rest => simp [stands] at free
      | none =>
        rw [stands] at free
        rw [ih free, List.map_append, cut?, stands]
        cases cut? binding.key text <;> rfl

/-- To search each key and to take the occurrence that begins first is to find the first place at which a key
stands and the first of the keys that stand there. -/
theorem earliest?_occurrences (bindings : List Binding) (text : List Char) :
    earliest? (occurrences bindings text) = firstHit? bindings text := by
  induction text with
  | nil =>
    have nothing : occurrences bindings [] = [] := by
      rw [occurrences, List.filterMap_eq_nil_iff]
      intro binding among
      obtain ⟨_, nonempty⟩ := List.mem_filter.mp among
      cases spelled : binding.key with
      | nil => simp [spelled] at nonempty
      | cons k key => rfl
    rw [nothing]
    rfl
  | cons c text ih =>
    rw [firstHit?]
    cases front : frontHit? bindings (c :: text) with
    | some hit => exact earliest?_occurrences_of_front front
    | none =>
      rw [occurrences_cons_of_free front, earliest?_map_behind, ih]
      rfl

theorem replaceHits_eq_search (bindings : List Binding) (text : List Char) :
    replaceHits bindings text =
      match earliest? (occurrences bindings text) with
      | none => text
      | some hit => hit.before ++ hit.value ++ replaceHits bindings hit.after := by
  rw [earliest?_occurrences, replaceHits]
  split <;> simp_all

end Search

theorem scan_eq_layout (bindings : List Binding) (text : List Char) :
    scan bindings text = (layout Binding.key bindings text).flatMap (Piece.shown Binding.value) := by
  induction text using layout_induction Binding.key bindings with
  | nil => simp [scan, layout_nil]
  | kept c text free ih =>
    rw [layout_kept free, scan]
    split
    case h_1 => rw [ih]; rfl
    case h_2 found => rw [free] at found; cases found
  | replaced binding rest found ih =>
    obtain ⟨_, nonempty, _⟩ := standing?_eq_some found
    rw [layout_replaced found, List.flatMap_cons, ← ih]
    obtain ⟨c, key, spelled⟩ := List.exists_cons_of_ne_nil nonempty
    have text : binding.key ++ rest = c :: (key ++ rest) := by rw [spelled, List.cons_append]
    rw [text] at found ⊢
    rw [scan]
    split
    case h_1 free => rw [found] at free; cases free
    case h_2 other standing =>
      rw [found] at standing
      cases standing
      rw [← text, List.drop_left]
      rfl

/-- Substitution is the scan of the text. It comes about by searching: as long as a key that is not empty occurs
in what is left, the earliest occurrence is replaced, and less is left after it. So the text is cut into
characters that stay and occurrences of keys, each of which gives way to the value of its binding. Where it is
cut depends on the keys alone: whatever values are bound to them, none of them is looked at. -/
theorem replaceAll_eq_scan (content : String) (pairs : List (String × String)) :
    let bindings : List Binding := pairs.map fun (key, value) => ⟨key.toList, value.toList⟩
    let pieces := layout Binding.key bindings content.toList
    (replaceAll content pairs).toList = scan bindings content.toList ∧
      (∀ rest, replaceHits bindings rest =
        match earliest? (occurrences bindings rest) with
        | none => rest
        | some hit => hit.before ++ hit.value ++ replaceHits bindings hit.after) ∧
      (∀ rest hit, earliest? (occurrences bindings rest) = some hit →
        hit.after.length < rest.length) ∧
      content.toList = pieces.flatMap (Piece.source Binding.key) ∧
      (replaceAll content pairs).toList = pieces.flatMap (Piece.shown Binding.value) ∧
      (∀ binding, .replaced binding ∈ pieces → binding ∈ bindings ∧ binding.key ≠ []) ∧
      ∀ value : Binding → List Char,
        replaceHits (bindings.map fun binding => ⟨binding.key, value binding⟩) content.toList =
          pieces.flatMap (Piece.shown value) := by
  intro bindings pieces
  have anyValues : ∀ value : Binding → List Char,
      replaceHits (bindings.map fun binding => ⟨binding.key, value binding⟩) content.toList =
        pieces.flatMap (Piece.shown value) :=
    fun value => replaceHits_eq_layout value content.toList
  have shown : (replaceAll content pairs).toList = pieces.flatMap (Piece.shown Binding.value) := by
    have own := anyValues Binding.value
    rw [List.map_id'] at own
    rw [replaceAll, String.toList_ofList]
    exact own
  refine ⟨?_, replaceHits_eq_search bindings, ?_, (layout_source Binding.key bindings content.toList).symm,
    shown, fun binding => mem_of_replaced_mem_layout, anyValues⟩
  · rw [shown, scan_eq_layout]
  · intro rest hit found
    rw [earliest?_occurrences] at found
    exact firstHit?_after_length_lt found

end PageInliner.Text
