import Mathlib.Data.List.TakeWhile
import PageInliner.Proofs.Files.Joining

/-!
# The directories above a place

If the names of a place are such as directories hold, the paths above its path are those of the places above it,
and its path leads to what the tree has there. A file has a parent, however its path is written.
-/

set_option autoImplicit false

namespace PageInliner

namespace Path

theorem piecesBack_of_root {path : Path} {rest : List Char}
    (text : path.text.toList = '/' :: rest) : path.piecesBack = (splitSeparators rest).reverse := by
  rw [piecesBack, text]
  rfl

theorem parent?_of_named {path : Path} {piece : List Char} (absolute : path.isAbsolute = true)
    (member : piece ∈ path.piecesBack) (named : isIdle piece = false) :
    ∃ parent, path.parent? = some parent ∧ parent.isAbsolute = true := by
  obtain ⟨rest, spelled⟩ := exists_of_isAbsolute absolute
  have root : lead path.text.toList = ['/'] := by rw [spelled, lead]
  rw [parent?]
  cases left : path.piecesBack.dropWhile isIdle with
  | nil =>
    rw [List.dropWhile_eq_nil_iff] at left
    rw [left piece member] at named
    cases named
  | cons last pieces =>
    refine ⟨_, rfl, ?_⟩
    rw [root, isAbsolute, ofPiecesBack, String.toList_ofList]
    rfl

end Path

namespace Place

/-- A name that a directory can hold. -/
structure IsName (name : String) : Prop where
  nonempty : name ≠ ""
  proper : name ≠ "." ∧ name ≠ ".."
  solid : '/' ∉ name.toList
  nulFree : Char.ofNat 0 ∉ name.toList
  short : name.utf8ByteSize ≤ FileTree.longestName

instance (name : String) : Decidable (IsName name) :=
  decidable_of_iff (name ≠ "" ∧ (name ≠ "." ∧ name ≠ "..") ∧ '/' ∉ name.toList ∧
      Char.ofNat 0 ∉ name.toList ∧ name.utf8ByteSize ≤ FileTree.longestName)
    ⟨fun ⟨nonempty, proper, solid, nulFree, short⟩ => ⟨nonempty, proper, solid, nulFree, short⟩,
      fun ⟨nonempty, proper, solid, nulFree, short⟩ => ⟨nonempty, proper, solid, nulFree, short⟩⟩

/-- The names are such as directories hold. -/
def Named (place : Place) : Prop :=
  ∀ name ∈ place, IsName name

instance (place : Place) : Decidable place.Named :=
  inferInstanceAs (Decidable (∀ name ∈ place, IsName name))

/-- `top` is the nearest of the places from `place` upwards that satisfies the condition. -/
structure Nearest (condition : Place → Prop) (place top : Place) : Prop where
  above : top <:+ place
  holds : condition top
  nearest : ∀ other, other <:+ place → top.length < other.length → ¬ condition other

section Named

variable {place : Place} {name : String}

theorem Named.head (named : Named (name :: place)) : IsName name :=
  named name List.mem_cons_self

theorem Named.tail (named : Named (name :: place)) : Named place :=
  fun other member => named other (List.mem_cons_of_mem _ member)

theorem Named.cons (isName : IsName name) (named : place.Named) : Named (name :: place) :=
  List.forall_mem_cons.mpr ⟨isName, named⟩

theorem Named.suffix {top : Place} (named : place.Named) (above : top <:+ place) : top.Named :=
  fun name member => named name (above.subset member)

theorem Named.pieces (named : place.Named) :
    ∀ piece ∈ place.map String.toList, Path.isIdle piece = false ∧ '/' ∉ piece := by
  intro piece member
  obtain ⟨name, among, rfl⟩ := List.mem_map.mp member
  have isName := named name among
  have dot : name.toList ≠ ['.'] := fun same => isName.proper.1 (String.toList_inj.mp same)
  refine ⟨?_, isName.solid⟩
  simp [Path.isIdle, isName.nonempty, dot]

private theorem intercalate_eq_joinSeparators (pieces : List (List Char)) :
    List.intercalate ['/'] pieces = Path.joinSeparators pieces := by
  induction pieces with
  | nil => rfl
  | cons piece pieces ih =>
    cases pieces with
    | nil => simp [Path.joinSeparators]
    | cons next pieces =>
      rw [Path.joinSeparators, ← ih]
      · simp
      · exact List.cons_ne_nil _ _

theorem toList_path (place : Place) :
    place.path.text.toList = '/' :: Path.joinSeparators (place.map String.toList).reverse := by
  rw [path, String.toList_append, String.toList_intercalate, ← List.map_reverse]
  exact congrArg (List.cons '/') (intercalate_eq_joinSeparators _)

theorem path_eq_ofPiecesBack (place : Place) :
    place.path = Path.ofPiecesBack ['/'] (place.map String.toList) := by
  have text : place.path.text = String.ofList ('/' :: Path.joinSeparators (place.map String.toList).reverse) := by
    rw [← toList_path, String.ofList_toList]
  exact congrArg Path.mk text

theorem isAbsolute_path (place : Place) : place.path.isAbsolute = true := by
  rw [Path.isAbsolute, toList_path]
  rfl

theorem piecesBack_path (named : Named (name :: place)) :
    (path (name :: place)).piecesBack = (name :: place).map String.toList := by
  rw [Path.piecesBack_of_root (toList_path _), Path.splitSeparators_joinSeparators,
    List.reverse_reverse]
  · simp
  · intro piece member
    exact (named.pieces piece (List.mem_reverse.mp member)).2

private theorem dropWhile_pieces (named : place.Named) :
    (place.map String.toList).dropWhile Path.isIdle = place.map String.toList := by
  cases place with
  | nil => rfl
  | cons name place =>
    have first := (named.pieces name.toList List.mem_cons_self).1
    rw [List.map_cons, List.dropWhile_cons_of_neg (by simp [first])]

private theorem above_pieces (named : Named (name :: place)) :
    Path.above ['/'] ((name :: place).map String.toList) = place.tails.map path := by
  induction place generalizing name with
  | nil =>
    have first := (named.pieces name.toList List.mem_cons_self).1
    rw [List.map_cons, Path.above, if_neg (by simp [first])]
    rfl
  | cons next place ih =>
    have first := (named.pieces name.toList List.mem_cons_self).1
    rw [List.map_cons, Path.above, if_neg (by simp [first]), dropWhile_pieces named.tail, ih named.tail,
      ← path_eq_ofPiecesBack]
    rfl

theorem ancestors_path (named : place.Named) : place.path.ancestors = place.tails.map path := by
  have root : Path.lead place.path.text.toList = ['/'] := by rw [toList_path, Path.lead]
  rw [Path.ancestors, root]
  cases place with
  | nil => rfl
  | cons name place =>
    rw [piecesBack_path named, above_pieces named]
    rfl

theorem parent?_path (named : Named (name :: place)) : (path (name :: place)).parent? = some place.path := by
  have root : Path.lead (path (name :: place)).text.toList = ['/'] := by rw [toList_path, Path.lead]
  rw [Path.parent?_eq_head?_above, root, piecesBack_path named, above_pieces named]
  cases place <;> rfl

/-- Behind the path of a place there comes a separator, and for the root the one that is there already. -/
theorem toList_path_cons (name : String) (place : Place) :
    (path (name :: place)).text.toList =
      (if place = [] then [] else place.path.text.toList) ++ '/' :: name.toList := by
  rw [toList_path, List.map_cons, List.reverse_cons]
  cases place with
  | nil => rfl
  | cons next place =>
    rw [Path.joinSeparators_append (by simp) (List.cons_ne_nil _ _), if_neg (List.cons_ne_nil _ _), toList_path,
      List.cons_append]
    rfl

theorem endsOpen_path (named : Named (name :: place)) : (path (name :: place)).endsOpen = false := by
  have letters : name.toList ≠ [] := fun none => named.head.nonempty (String.toList_eq_nil_iff.mp none)
  rw [Path.endsOpen, toList_path_cons, Bool.eq_false_iff, Ne, beq_iff_eq, List.append_cons, List.getLast?_append,
    List.getLast?_eq_some_getLast letters, Option.some_or, Option.some_inj]
  intro opened
  exact named.head.solid (opened ▸ List.getLast_mem letters)

theorem isAbsolute_of_named (named : Named (name :: place)) : (Path.mk name).isAbsolute = false := by
  rw [Path.isAbsolute, Bool.eq_false_iff, Ne, beq_iff_eq]
  intro root
  exact named.head.solid (List.mem_of_head? root)

/-- A name put behind the path of a directory is the path of the place in it. -/
theorem path_join (named : Named (name :: place)) : place.path.join ⟨name⟩ = path (name :: place) := by
  have text : (place.path.join ⟨name⟩).text.toList = (path (name :: place)).text.toList := by
    rw [toList_path_cons, Path.join, isAbsolute_of_named named,
      Path.isEmpty_of_isAbsolute (isAbsolute_path place), Bool.false_or]
    cases place with
    | nil =>
      have atRoot : (path []).endsOpen = true := by decide
      rw [atRoot]
      simp [path]
    | cons next place =>
      rw [endsOpen_path named.tail]
      simp
  exact congrArg Path.mk (String.toList_inj.mp text)

theorem ofNames_reverse (named : place.Named) : ofNames place.reverse = place := by
  induction place with
  | nil => rfl
  | cons name place ih =>
    rw [List.reverse_cons, ofNames_concat, ih named.tail, step, if_neg named.head.proper.1,
      if_neg named.head.proper.2]

theorem closedSteps_path (named : place.Named) : Machine.closedSteps place.path = place.reverse := by
  induction place with
  | nil => decide
  | cons name place ih =>
    obtain ⟨notIdle, solid⟩ := named.pieces name.toList List.mem_cons_self
    rw [Machine.closedSteps_eq_namesIn, toList_path_cons, Machine.namesIn_append,
      Machine.namesIn_of_named solid notIdle, String.ofList_toList, List.reverse_cons]
    cases place with
    | nil => rfl
    | cons next place =>
      rw [if_neg (List.cons_ne_nil _ _), ← Machine.closedSteps_eq_namesIn, ih named.tail]

theorem nulFree_path (named : place.Named) : Char.ofNat 0 ∉ place.path.text.toList := by
  induction place with
  | nil => decide
  | cons name place ih =>
    have notSeparator : Char.ofNat 0 ≠ '/' := by decide
    rw [toList_path_cons, List.mem_append, List.mem_cons, not_or, not_or]
    refine ⟨?_, notSeparator, named.head.nulFree⟩
    split
    · exact List.not_mem_nil
    · exact ih named.tail

end Named

section Nearest

variable {condition : Place → Prop} {place top : Place}

theorem Nearest.here (holds : condition place) : Nearest condition place place := by
  refine ⟨List.suffix_rfl, holds, ?_⟩
  intro other above longer
  exact absurd above.length_le (Nat.not_le_of_lt longer)

theorem Nearest.further {name : String} (fails : ¬ condition (name :: place)) (nearest : Nearest condition place top) :
    Nearest condition (name :: place) top := by
  refine ⟨nearest.above.trans (List.suffix_cons name place), nearest.holds, ?_⟩
  intro other above longer
  rcases List.suffix_cons_iff.mp above with rfl | above
  · exact fails
  · exact nearest.nearest other above longer

/-- A search from a place upwards ends at the nearest place that satisfies the condition, or there is none. -/
theorem find?_tails (check : Place → Bool) (place : Place) :
    (∃ top, Nearest (check · = true) place top ∧ place.tails.find? check = some top) ∨
      (∀ top, top <:+ place → check top = false) ∧ place.tails.find? check = none := by
  induction place with
  | nil =>
    cases found : check [] with
    | true => exact .inl ⟨[], .here found, by simp [found]⟩
    | false => exact .inr ⟨by simpa using found, by simp [found]⟩
  | cons name place ih =>
    rw [List.tails, List.find?_cons]
    cases found : check (name :: place) with
    | true => exact .inl ⟨_, .here found, rfl⟩
    | false =>
      rcases ih with ⟨top, nearest, search⟩ | ⟨none, search⟩
      · exact .inl ⟨top, .further (by simp [found]) nearest, search⟩
      · refine .inr ⟨?_, search⟩
        intro top above
        rcases List.suffix_cons_iff.mp above with rfl | above
        · exact found
        · exact none top above

end Nearest

end Place

namespace Spot

theorem walk_of_dots {spot : Spot} {names : List String} (directory : spot.branch.entry = .directory)
    (dots : ∀ name ∈ names, name = ".") : spot.walk names = .ok spot := by
  induction names with
  | nil => rfl
  | cons name names ih =>
    rw [List.forall_mem_cons] at dots
    rw [walk, dots.1, step_dot directory]
    exact ih dots.2

end Spot

/-- A walk along the names of a place gets to what the tree has there. -/
theorem FileTree.exists_walk_of_find? {tree : FileTree} {place : Place} {entry : Entry} (named : place.Named)
    (found : tree.find? place = some entry) :
    ∃ spot, tree.walk place.reverse = .ok spot ∧ spot.place = place ∧ spot.branch.entry = entry := by
  induction place generalizing entry with
  | nil =>
    cases found
    exact ⟨⟨tree.root, []⟩, rfl, rfl, rfl⟩
  | cons name place ih =>
    -- The place above is in the tree as well, and as something is in it, it can be stepped through.
    have above : ∃ middle, tree.find? place = some middle := by
      rw [FileTree.find?, List.reverse_cons, Branch.find?_append] at found
      cases reached : tree.root.find? place.reverse with
      | none =>
        rw [reached] at found
        cases found
      | some branch => exact ⟨branch.entry, by rw [FileTree.find?, reached]; rfl⟩
    obtain ⟨middle, there⟩ := above
    obtain ⟨spot, walked, same, _⟩ := ih named.tail there
    rw [← same, (Spot.LiesIn.root.walk walked).find?_cons] at found
    obtain ⟨child, isChild, isEntry⟩ := Option.map_eq_some_iff.mp found
    have directory : spot.branch.entry = .directory := by
      cases shape : spot.branch with
      | file bytes =>
        rw [shape] at isChild
        cases isChild
      | directory children => rfl
    refine ⟨⟨child, (name, spot.branch) :: spot.above⟩, ?_, congrArg (List.cons name) same, isEntry⟩
    rw [List.reverse_cons, walk_concat walked, Spot.step_named directory named.head.proper named.head.short, isChild]

namespace Machine

theorem isFile_iff {machine : Machine} {path : Path} :
    machine.isFile path = true ↔ ∃ bytes, machine.read path = .ok bytes := by
  unfold isFile read
  cases machine.entry path with
  | error cause => simp [bind, Except.bind]
  | ok entry => cases entry <;> simp [bind, Except.bind, pure, Except.pure, throw, throwThe, MonadExceptOf.throw]

theorem steps_of_idle {path : Path} (absolute : path.isAbsolute = true)
    (idle : ∀ piece ∈ path.piecesBack, Path.isIdle piece = true) : ∀ name ∈ path.steps, name = "." := by
  obtain ⟨rest, spelled⟩ := Path.exists_of_isAbsolute absolute
  have closed : ∀ name ∈ closedSteps path, name = "." := by
    rw [closedSteps_eq_namesIn, spelled]
    change ∀ name ∈ namesIn ([] ++ '/' :: rest), name = "."
    rw [namesIn_append, namesIn_nil, List.nil_append, namesIn]
    rw [Path.piecesBack_of_root spelled] at idle
    intro name member
    obtain ⟨piece, among, rfl⟩ := List.mem_map.mp member
    obtain ⟨among, nonempty⟩ := List.mem_filter.mp among
    have dot := idle piece (List.mem_reverse.mpr among)
    simp only [decide_eq_true_eq] at nonempty
    simp only [Path.isIdle, Bool.or_eq_true, beq_iff_eq, nonempty, false_or] at dot
    rw [dot]
  rcases steps_eq_closedSteps path with same | further
  · rwa [same]
  · rw [further, List.forall_mem_append]
    exact ⟨closed, by simp⟩

/-- The path of a file has a name that can be taken off. -/
theorem exists_parent_of_isFile {machine : Machine} {path : Path} (absolute : path.isAbsolute = true)
    (isFile : machine.isFile path = true) :
    ∃ parent, path.parent? = some parent ∧ parent.isAbsolute = true := by
  by_contra orphan
  -- Without a name all steps stay at the root, which is a directory.
  have idle : ∀ piece ∈ path.piecesBack, Path.isIdle piece = true := by
    intro piece member
    cases named : Path.isIdle piece with
    | true => rfl
    | false => exact absurd (Path.parent?_of_named absolute member named) orphan
  obtain ⟨bytes, read⟩ := isFile_iff.mp isFile
  obtain ⟨spot, located, found⟩ := read_eq_ok_iff.mp read
  obtain ⟨_, _, followed⟩ := bind_eq_ok located
  rw [absolute, follow_true, FileTree.walk, Spot.walk_of_dots rfl (steps_of_idle absolute idle)] at followed
  cases followed
  cases found

theorem checked_path {place : Place} (named : place.Named)
    (short : place.path.text.utf8ByteSize ≤ FileTree.longestPath) : checked place.path = .ok () := by
  rw [checked, if_neg (by simpa using Place.nulFree_path named),
    if_neg (by simp [Path.isEmpty_of_isAbsolute place.isAbsolute_path]), if_neg (Nat.not_lt_of_le short)]

/-- The path of a place leads to a file if the tree has one there. -/
theorem isFile_path_iff {machine : Machine} {place : Place} (named : place.Named)
    (short : place.path.text.utf8ByteSize ≤ FileTree.longestPath) :
    machine.isFile place.path = true ↔ ∃ bytes, machine.tree.find? place = some (.file bytes) := by
  rw [isFile_iff]
  constructor
  · rintro ⟨bytes, read⟩
    obtain ⟨other, led, found⟩ := find?_of_read read
    rw [resolve?_of_isAbsolute machine place.isAbsolute_path, Place.closedSteps_path named,
      Place.ofNames_reverse named, Option.some_inj] at led
    exact ⟨bytes, led ▸ found⟩
  · rintro ⟨bytes, found⟩
    obtain ⟨spot, walked, _, isFile⟩ := FileTree.exists_walk_of_find? named found
    refine ⟨bytes, read_eq_ok_iff.mpr ⟨spot, ?_, isFile⟩⟩
    cases place with
    | nil => cases found
    | cons name place =>
      have steps : (Place.path (name :: place)).steps = (name :: place).reverse := by
        have closed := Place.closedSteps_path named
        rwa [closedSteps, Place.endsOpen_path named, if_neg Bool.false_ne_true] at closed
      rw [locate, checked_path named short, Place.isAbsolute_path, steps, follow_true, walked]
      rfl

end Machine

end PageInliner
