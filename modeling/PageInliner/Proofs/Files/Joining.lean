import PageInliner.Proofs.Files.Above
import PageInliner.Proofs.Files.Resolution

/-!
# Paths put behind a directory

A path that is put behind an absolute one leads on from where that one leads. The empty path leads nowhere
further, and as the separator in front of it asks for a directory no file can be read there.
-/

set_option autoImplicit false

namespace PageInliner

namespace Path

variable {base path : Path}

theorem text_eq_empty_iff : path.text = "" ↔ path = .empty := by
  rw [empty, Path.mk.injEq]

theorem exists_of_isAbsolute (absolute : path.isAbsolute = true) :
    ∃ rest, path.text.toList = '/' :: rest := by
  rw [isAbsolute, beq_iff_eq] at absolute
  exact List.head?_eq_some_iff.mp absolute

theorem isEmpty_of_isAbsolute (absolute : path.isAbsolute = true) : path.isEmpty = false := by
  obtain ⟨rest, spelled⟩ := exists_of_isAbsolute absolute
  rw [Bool.eq_false_iff, Ne, isEmpty_iff, ← String.toList_eq_nil_iff, spelled]
  exact List.cons_ne_nil _ _

theorem exists_of_endsOpen (endsOpen : path.endsOpen = true) :
    ∃ front, path.text.toList = front ++ ['/'] := by
  rw [Path.endsOpen, beq_iff_eq] at endsOpen
  exact List.getLast?_eq_some_iff.mp endsOpen

/-- Behind a path and a separator there stands the path that is put there. -/
theorem exists_text_join (absolute : base.isAbsolute = true) (relative : path.isAbsolute = false) :
    ∃ front, (base.join path).text.toList = front ++ '/' :: path.text.toList ∧
      (base.text.toList = front ∨ base.text.toList = front ++ ['/']) := by
  rw [join, relative, isEmpty_of_isAbsolute absolute, Bool.false_or]
  cases endsOpen : base.endsOpen with
  | true =>
    obtain ⟨front, spelled⟩ := exists_of_endsOpen endsOpen
    refine ⟨front, ?_, .inr spelled⟩
    simp [spelled]
  | false =>
    refine ⟨base.text.toList, ?_, .inl rfl⟩
    simp

theorem isAbsolute_join (absolute : base.isAbsolute = true) (path : Path) :
    (base.join path).isAbsolute = true := by
  cases again : path.isAbsolute with
  | true => rwa [join, if_pos again]
  | false =>
    obtain ⟨rest, spelled⟩ := exists_of_isAbsolute absolute
    obtain ⟨front, text, same | same⟩ := exists_text_join absolute again
    all_goals rw [isAbsolute, text]
    · rw [← same, spelled]
      rfl
    · cases front with
      | nil => rfl
      | cons c front =>
        rw [same, List.cons_append, List.cons.injEq] at spelled
        rw [spelled.1]
        rfl

theorem endsOpen_join_empty (absolute : base.isAbsolute = true) : (base.join empty).endsOpen = true := by
  have relative : empty.isAbsolute = false := rfl
  obtain ⟨front, text, _⟩ := exists_text_join absolute relative
  rw [endsOpen, text]
  simp [empty]

end Path

namespace Machine

variable {base path : Path}

theorem closedSteps_join (absolute : base.isAbsolute = true) (relative : path.isAbsolute = false) :
    closedSteps (base.join path) = closedSteps base ++ closedSteps path := by
  obtain ⟨front, text, same⟩ := Path.exists_text_join absolute relative
  rw [closedSteps_eq_namesIn, closedSteps_eq_namesIn, closedSteps_eq_namesIn, text, namesIn_append]
  rcases same with same | same
  · rw [same]
  · rw [same, namesIn_append, namesIn_nil, List.append_nil]

theorem resolve?_of_isAbsolute (machine : Machine) (absolute : path.isAbsolute = true) :
    machine.resolve? path = some (.ofNames (closedSteps path)) := by
  rw [resolve?, absolute]
  change some (Place.ofNames path.steps) = _
  rcases steps_eq_closedSteps path with same | further
  · rw [same]
  · rw [further, Place.ofNames_concat]
    rfl

/-- The empty path behind a directory leads to the directory. -/
theorem resolve?_join_empty (machine : Machine) (absolute : base.isAbsolute = true) :
    machine.resolve? (base.join .empty) = machine.resolve? base := by
  have nothing : closedSteps .empty = [] := by decide
  rw [resolve?_of_isAbsolute machine (Path.isAbsolute_join absolute _), resolve?_of_isAbsolute machine absolute,
    closedSteps_join absolute rfl, nothing, List.append_nil]

/-- There is no file behind a separator at the end of a path. -/
theorem read_ne_ok_of_endsOpen {machine : Machine} (absolute : path.isAbsolute = true)
    (endsOpen : path.endsOpen = true) (bytes : ByteArray) : machine.read path ≠ .ok bytes := by
  intro read
  obtain ⟨spot, located, isFile⟩ := read_eq_ok_iff.mp read
  obtain ⟨_, _, followed⟩ := bind_eq_ok located
  rw [absolute, follow_true] at followed
  obtain ⟨last, walked, same⟩ := map_eq_ok followed
  cases same
  have directory : spot.branch.entry = .directory := by
    unfold Path.steps at walked
    simp only [endsOpen, Bool.true_and] at walked
    split at walked
    · obtain ⟨middle, _, taken⟩ := FileTree.exists_walk_of_append walked
      rw [Spot.walk_singleton] at taken
      have isDirectory := (Spot.step_eq_ok_iff.mp taken).1
      rw [Spot.step_dot isDirectory] at taken
      cases taken
      exact isDirectory
    · -- Without a name the walk has not left the root.
      rename_i none
      simp only [Bool.not_eq_true', Bool.not_eq_false, List.isEmpty_iff] at none
      rw [none] at walked
      cases walked
      rfl
  rw [directory] at isFile
  cases isFile

end Machine

end PageInliner
