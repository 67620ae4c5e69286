import PageInliner.Proofs.Files.Parents
import PageInliner.Proofs.Files.Resolution

/-!
# When directories can be made

The directories for a file can be made if there is a directory or nothing wherever its path goes through. Then
the walk that is tried first gets to its end or stops for want of a directory. In that case the directories
above are made, and the second attempt finds them.
-/

set_option autoImplicit false

namespace PageInliner.Machine

/-- Names lead to a directory, which may be one that has been removed. -/
def Stands (machine : Machine) (fromRoot : Bool) (names : List String) : Prop :=
  ∃ spot?, machine.follow fromRoot names = .ok spot? ∧
    ∀ spot, spot? = some spot → spot.branch.entry = .directory

/-- Nothing but missing directories is in the way of names. -/
def Clear (machine : Machine) (fromRoot : Bool) (names : List String) : Prop :=
  ∃ way?, machine.way fromRoot names = .ok way? ∧ ∀ way, way? = some way → machine.tree.Passable way

/-- There is a directory to set out from. -/
def Starts (machine : Machine) (fromRoot : Bool) : Prop :=
  fromRoot = false → ∃ spot, machine.tree.walk machine.directory.reverse = .ok spot ∧
    spot.branch.entry = .directory

section Standing

variable {machine : Machine} {fromRoot : Bool} {names : List String}

theorem stands_of_removed (followed : machine.follow fromRoot names = .ok none) :
    machine.Stands fromRoot names := by
  refine ⟨none, followed, ?_⟩
  intro spot isSpot
  cases isSpot

theorem stands_of_directory {spot : Spot} (followed : machine.follow fromRoot names = .ok (some spot))
    (directory : spot.branch.entry = .directory) : machine.Stands fromRoot names := by
  refine ⟨some spot, followed, ?_⟩
  rintro _ ⟨⟩
  exact directory

/-- Names that end in a removed directory only lead on from there. -/
private theorem leave_of_none {removed : Nat} (left : leave removed names = .ok none) :
    ∃ still, ∀ more, leave removed (names ++ more) = leave (still + 1) more := by
  induction names generalizing removed with
  | nil =>
    cases removed with
    | zero => cases left
    | succ removed => exact ⟨removed, fun _ => rfl⟩
  | cons name names ih =>
    cases removed with
    | zero => cases left
    | succ removed =>
      obtain ⟨next, behind, onwards⟩ := leave_cons left
      obtain ⟨still, leads⟩ := ih behind
      exact ⟨still, fun more => by rw [List.cons_append, onwards, leads]⟩

private theorem leave_of_follow_none (followed : machine.follow fromRoot names = .ok none) :
    fromRoot = false ∧ ∃ still, ∀ more, leave machine.removed (names ++ more) = leave (still + 1) more := by
  cases fromRoot with
  | true =>
    rw [follow_true] at followed
    obtain ⟨_, _, same⟩ := map_eq_ok followed
    cases same
  | false =>
    cases left : leave machine.removed names with
    | error cause => simp [follow, left, bind, Except.bind] at followed
    | ok left? =>
      cases left? with
      | none => exact ⟨rfl, leave_of_none left⟩
      | some left' =>
        rw [follow_false left] at followed
        obtain ⟨_, _, same⟩ := map_eq_ok followed
        cases same

theorem Clear.of_append {more : List String} (clear : machine.Clear fromRoot (names ++ more)) :
    machine.Clear fromRoot names := by
  obtain ⟨way?, led, passable⟩ := clear
  obtain ⟨front?, ledFront, further⟩ := way_of_append led
  refine ⟨front?, ledFront, ?_⟩
  intro front isFront
  exact (passable _ (further front isFront)).of_append

/-- Where nothing is in the way, a directory is there or one is missing. -/
theorem Clear.stands_or_missing (clear : machine.Clear fromRoot names) :
    machine.Stands fromRoot names ∨ machine.follow fromRoot names = .error .notFound := by
  obtain ⟨way?, led, passable⟩ := clear
  cases way? with
  | none => exact .inl (stands_of_removed (follow_of_way_none led))
  | some way =>
    have followed := follow_of_way led
    rcases FileTree.walk_of_passable (passable way rfl) with ⟨spot, walked, directory⟩ | missing
    · left
      rw [walked] at followed
      exact stands_of_directory followed directory
    · right
      rw [missing] at followed
      exact followed

theorem Starts.stands (starts : machine.Starts fromRoot) : machine.Stands fromRoot [] := by
  cases fromRoot with
  | true =>
    have atRoot : machine.follow true [] = .ok (some ⟨machine.tree.root, []⟩) := rfl
    exact stands_of_directory atRoot rfl
  | false =>
    cases count : machine.removed with
    | zero =>
      obtain ⟨spot, walked, directory⟩ := starts rfl
      have left : leave machine.removed [] = .ok (some []) := by rw [count, leave]
      refine stands_of_directory ?_ directory
      rw [follow_false left, List.append_nil, walked]
      rfl
    | succ removed => exact stands_of_removed (follow_false_removed (by rw [count]; rfl))

theorem starts_of_follow {spot : Spot} (followed : machine.follow fromRoot names = .ok (some spot))
    (directory : spot.branch.entry = .directory) : machine.Starts fromRoot := by
  rintro rfl
  obtain ⟨way, led, walked⟩ := way_of_follow followed
  obtain ⟨left?, _, same⟩ := map_eq_ok led
  cases left? with
  | none => cases same
  | some left =>
    cases same
    obtain ⟨middle, reached, rest⟩ := FileTree.exists_walk_of_append walked
    exact ⟨middle, reached, Spot.isDirectory_of_walk rest directory⟩

theorem Stands.dot (stands : machine.Stands fromRoot names) : machine.Stands fromRoot (names ++ ["."]) := by
  obtain ⟨spot?, followed, directory⟩ := stands
  cases spot? with
  | none =>
    obtain ⟨rfl, still, leads⟩ := leave_of_follow_none followed
    exact stands_of_removed (follow_false_removed (leads ["."]))
  | some spot =>
    refine stands_of_directory ?_ (directory spot rfl)
    rw [follow_snoc followed, Spot.step_dot (directory spot rfl)]
    rfl

theorem Stands.dots (stands : machine.Stands fromRoot names) (starts : machine.Starts fromRoot) :
    machine.Stands fromRoot (names ++ [".."]) := by
  obtain ⟨spot?, followed, directory⟩ := stands
  cases spot? with
  | none =>
    obtain ⟨rfl, still, leads⟩ := leave_of_follow_none followed
    cases still with
    | zero =>
      obtain ⟨spot, walked, isDirectory⟩ := starts rfl
      have left : leave machine.removed (names ++ [".."]) = .ok (some []) := leads [".."]
      refine stands_of_directory ?_ isDirectory
      rw [follow_false left, List.append_nil, walked]
      rfl
    | succ still => exact stands_of_removed (follow_false_removed (leads [".."]))
  | some spot =>
    refine stands_of_directory ?_ ((liesIn_of_follow followed).isDirectory_parent (directory spot rfl))
    rw [follow_snoc followed, Spot.step_dots (directory spot rfl)]
    rfl

/-- There is no name in a removed directory. -/
private theorem Clear.follow_ne_none {name : String} (clear : machine.Clear fromRoot (names ++ [name]))
    (proper : name ≠ "." ∧ name ≠ "..") : machine.follow fromRoot names ≠ .ok none := by
  intro followed
  obtain ⟨rfl, still, leads⟩ := leave_of_follow_none followed
  obtain ⟨way?, led, _⟩ := clear
  obtain ⟨left?, left, _⟩ := map_eq_ok led
  rw [leads, leave, if_neg proper.1, if_neg proper.2] at left
  cases left

end Standing

section Making

variable {machine : Machine} {path : Path} {names : List String} {name : String}

theorem slot_of_follow {spot? : Option Spot} (allowed : checked path = .ok ())
    (steps : closedSteps path = names ++ [name])
    (followed : machine.follow path.isAbsolute names = .ok spot?)
    (directory : ∀ spot, spot? = some spot → spot.branch.entry = .directory) :
    machine.slot path = .ok ⟨spot?, (some name).filter fun name => name ≠ "." && name ≠ ".."⟩ := by
  have free : spot?.any (·.branch.entry ≠ .directory) = false := by
    cases spot? with
    | none => rfl
    | some spot => simp [directory spot rfl]
  rw [slot, allowed]
  change (machine.follow path.isAbsolute (closedSteps path).dropLast >>= _) = _
  rw [steps, List.dropLast_concat, followed]
  simp only [bind, Except.bind, free, Bool.false_eq_true, ↓reduceIte, List.getLast?_concat]
  rfl

theorem vacancy_of_short {spot : Spot} (short : name.utf8ByteSize ≤ FileTree.longestName) :
    vacancy (some spot) name = .ok (name :: spot.place, (spot.branch.child? name).map Branch.entry) := by
  rw [vacancy, if_neg (Nat.not_lt_of_le short)]

theorem isDirectory_of_stands (allowed : checked path = .ok ())
    (stands : machine.Stands path.isAbsolute (closedSteps path)) : machine.isDirectory path = true := by
  have whole : machine.Stands path.isAbsolute path.steps := by
    rcases steps_eq_closedSteps path with same | further
    · rw [same]
      exact stands
    · rw [further]
      exact stands.dot
  obtain ⟨spot?, followed, directory⟩ := whole
  have located : machine.locate path = .ok spot? := by
    rw [locate, allowed]
    exact followed
  have found : machine.entry path = .ok .directory := by
    cases spot? with
    | none => exact entry_of_locate_removed located
    | some spot => rw [entry_of_locate located, directory spot rfl]
  rw [isDirectory, found]

theorem withDirectory_of_proper {spot : Spot} (allowed : checked path = .ok ())
    (steps : closedSteps path = names ++ [name])
    (followed : machine.follow path.isAbsolute names = .ok (some spot))
    (directory : spot.branch.entry = .directory) (proper : name ≠ "." ∧ name ≠ "..")
    (short : name.utf8ByteSize ≤ FileTree.longestName) :
    machine.withDirectory path =
      match spot.branch.child? name with
      | none => .ok (machine.tree.insert (name :: spot.place) .directory)
      | some _ => .error .alreadyExists := by
  have found := slot_of_follow allowed steps followed (by rintro _ ⟨⟩; exact directory)
  have named : (some name).filter (fun name => name ≠ "." && name ≠ "..") = some name := by simp [proper]
  rw [named] at found
  rw [withDirectory, found]
  change (vacancy (some spot) name >>= _) = _
  rw [vacancy_of_short short]
  cases spot.branch.child? name <;> rfl

theorem withDirectory_of_improper (allowed : checked path = .ok ())
    (steps : closedSteps path = names ++ [name]) (stands : machine.Stands path.isAbsolute names)
    (improper : name = "." ∨ name = "..") : machine.withDirectory path = .error .alreadyExists := by
  obtain ⟨spot?, followed, directory⟩ := stands
  have found := slot_of_follow allowed steps followed directory
  have unnamed : (some name).filter (fun name => name ≠ "." && name ≠ "..") = none := by
    rcases improper with rfl | rfl <;> rfl
  rw [unnamed] at found
  rw [withDirectory, found]
  rfl

/-- A directory is made in one that is there, unless it is there already. -/
theorem withDirectory_of_stands (allowed : checked path = .ok ())
    (steps : closedSteps path = names ++ [name]) (starts : machine.Starts path.isAbsolute)
    (stands : machine.Stands path.isAbsolute names)
    (clear : machine.Clear path.isAbsolute (names ++ [name])) :
    (∃ tree, machine.withDirectory path = .ok tree ∧
        { machine with tree := tree }.Stands path.isAbsolute (names ++ [name])) ∨
      machine.withDirectory path = .error .alreadyExists ∧
        machine.Stands path.isAbsolute (names ++ [name]) := by
  by_cases improper : name = "." ∨ name = ".."
  · refine .inr ⟨withDirectory_of_improper allowed steps stands improper, ?_⟩
    rcases improper with rfl | rfl
    · exact stands.dot
    · exact stands.dots starts
  · have proper := not_or.mp improper
    obtain ⟨spot?, followed, directory⟩ := stands
    cases spot? with
    | none => exact absurd followed (clear.follow_ne_none proper)
    | some spot =>
      have directory := directory spot rfl
      obtain ⟨way, led, walked⟩ := way_of_follow followed
      obtain ⟨way?, ledOn, passable⟩ := clear
      cases (way_append led [name]).symm.trans ledOn
      have passable := passable _ rfl
      have short := passable.short name (by simp)
      have taken := Spot.step_named directory proper short
      have made := withDirectory_of_proper allowed steps followed directory proper short
      cases isChild : spot.branch.child? name with
      | none =>
        rw [isChild] at made
        have vacant : machine.tree.find? (name :: spot.place) ≠ some .directory := by
          rw [(liesIn_of_follow followed).find?_cons, isChild]
          nofun
        obtain ⟨_, _, copy, reached, _, isDirectory⟩ :=
          Opening.insert ⟨steps, proper, short, followed, directory⟩ vacant .directory
        rw [steps] at reached
        refine .inl ⟨_, made, some copy, reached, ?_⟩
        rintro _ ⟨⟩
        exact isDirectory
      | some child =>
        rw [isChild] at made taken
        refine .inr ⟨made, some ⟨child, (name, spot.branch) :: spot.above⟩, ?_, ?_⟩
        · rw [follow_snoc followed, taken]
          rfl
        · rintro _ ⟨⟩
          exact FileTree.isDirectory_of_passable passable ((FileTree.walk_concat walked name).trans taken)

theorem withDirectory_of_missing (allowed : checked path = .ok ())
    (steps : closedSteps path = names ++ [name])
    (missing : machine.follow path.isAbsolute names = .error .notFound) :
    machine.withDirectory path = .error .notFound := by
  rw [withDirectory, slot, allowed]
  change ((machine.follow path.isAbsolute (closedSteps path).dropLast >>= _) >>= _) = _
  rw [steps, List.dropLast_concat, missing]
  rfl

end Making

section Kept

variable {before after : Machine} {path : Path}

theorem AddsParents.find?_eq_file_iff (adds : before.AddsParents after path) {place : Place}
    {bytes : ByteArray} :
    after.tree.find? place = some (.file bytes) ↔ before.tree.find? place = some (.file bytes) := by
  rcases adds.places place with same | ⟨missing, onWay⟩
  · rw [same]
  · rw [onWay.find?, missing]
    constructor <;> nofun

theorem AddsParents.clear (adds : before.AddsParents after path) {fromRoot : Bool} {names : List String}
    (clear : before.Clear fromRoot names) : after.Clear fromRoot names := by
  obtain ⟨way?, led, passable⟩ := clear
  rw [← way_congr adds.directory adds.removed] at led
  refine ⟨way?, led, ?_⟩
  intro way there
  exact (passable way there).transfer fun _ _ => adds.find?_eq_file_iff.mp

theorem Starts.transfer {fromRoot : Bool} (starts : before.Starts fromRoot) (kept : before.Keeps after) :
    after.Starts fromRoot := by
  intro relative
  obtain ⟨spot, walked, directory⟩ := starts relative
  obtain ⟨copy, copyWalked, _, copyDirectory⟩ :=
    Spot.walk_transfer kept.directories .root .root rfl walked directory
  refine ⟨copy, ?_, copyDirectory⟩
  rw [kept.directory]
  exact copyWalked

end Kept

/-- An attempt to make a directory in one that is there ends well, whatever would be done about other causes. -/
theorem run_makeDirectory_of_stands {machine : Machine} {path : Path} {names : List String} {name : String}
    (allowed : checked path = .ok ()) (steps : closedSteps path = names ++ [name])
    (starts : machine.Starts path.isAbsolute) (stands : machine.Stands path.isAbsolute names)
    (clear : machine.Clear path.isAbsolute (names ++ [name]))
    {next : Except Cause Unit → StateM Machine (Except Cause Unit)} (made : next (.ok ()) = pure (.ok ()))
    (there : next (.error .alreadyExists) =
      do return if ← Host.isDirectory path then .ok () else .error .alreadyExists) :
    ∃ after, (Host.makeDirectory path >>= next).run machine = (.ok (), after) ∧
      after.Stands path.isAbsolute (names ++ [name]) := by
  rw [run_bind, run_makeDirectory]
  rcases withDirectory_of_stands allowed steps starts stands clear with ⟨tree, new, whole⟩ | ⟨old, whole⟩
  · refine ⟨_, ?_, whole⟩
    rw [new]
    dsimp only [update]
    rw [made]
    rfl
  · refine ⟨machine, ?_, whole⟩
    rw [← steps] at whole
    rw [old]
    dsimp only [update]
    rw [there, run_bind, run_isDirectory, isDirectory_of_stands allowed whole]
    rfl

/-- The directories above a file are made if nothing is in the way. -/
theorem run_makeDirectories_ok {long : Path} {lead : List Char} {pieces : List (List Char)}
    (spells : Spells lead pieces)
    (asked : ∀ front piece more, pieces = front ++ piece :: more → Path.isIdle piece = false →
      let short := Path.ofPiecesBack lead (piece :: more)
      IsAbove short long ∧ checked short = .ok ())
    {machine : Machine} (starts : machine.Starts long.isAbsolute)
    (clear : machine.Clear long.isAbsolute (closedSteps (Path.ofPiecesBack lead pieces))) :
    ∃ after, (Host.makeDirectories lead pieces : StateM Machine (Except Cause Unit)).run machine =
        (.ok (), after) ∧
      after.Stands long.isAbsolute (closedSteps (Path.ofPiecesBack lead pieces)) := by
  induction pieces generalizing machine with
  | nil =>
    refine ⟨machine, rfl, ?_⟩
    rw [closedSteps_eq_namesIn, Path.ofPiecesBack, String.toList_ofList]
    rcases spells.lead with rfl | rfl | ⟨rfl, _⟩
    · exact starts.stands
    · exact starts.stands
    · exact starts.stands.dot
  | cons piece pieces ih =>
    have steps := closedSteps_ofPiecesBack_cons spells
    have askedRest : ∀ front next more, pieces = front ++ next :: more → Path.isIdle next = false →
        let short := Path.ofPiecesBack lead (next :: more)
        IsAbove short long ∧ checked short = .ok () :=
      fun front next more split => asked (piece :: front) next more (by rw [split, List.cons_append])
    have clearRest : machine.Clear long.isAbsolute (closedSteps (Path.ofPiecesBack lead pieces)) := by
      rw [steps] at clear
      exact clear.of_append
    obtain ⟨middle, ran, middleStands⟩ := ih spells.tail askedRest starts clearRest
    cases idle : Path.isIdle piece with
    | true =>
      rw [Host.makeDirectories, if_pos idle, steps]
      refine ⟨middle, ran, ?_⟩
      simp only [Path.isIdle, Bool.or_eq_true, beq_iff_eq] at idle
      rcases idle with rfl | rfl
      · rw [namesIn_nil, List.append_nil]
        exact middleStands
      · exact middleStands.dot
    | false =>
      obtain ⟨⟨sameStart, _⟩, isAllowed⟩ := asked [] piece pieces rfl idle
      have adds := addsParents_makeDirectories
        (fun front next more split named => (askedRest front next more split named).1) machine
      rw [ran] at adds
      have middleStarts := starts.transfer adds.keeps
      have middleClear := adds.clear clear
      rw [namesIn_of_named (spells.solid piece List.mem_cons_self) idle] at steps
      rw [steps, ← sameStart] at clear middleClear
      rw [← sameStart] at starts middleStarts middleStands clearRest
      rw [Host.makeDirectories, if_neg (by simp [idle]), steps, ← sameStart]
      rcases clearRest.stands_or_missing with stands | missing
      · exact run_makeDirectory_of_stands isAllowed steps starts stands clear rfl rfl
      · -- The directories above are made, and the second attempt is made in the last of them.
        rw [run_bind, run_makeDirectory, withDirectory_of_missing isAllowed steps missing]
        dsimp only [update]
        rw [run_bind, ran]
        exact run_makeDirectory_of_stands isAllowed steps middleStarts middleStands middleClear rfl rfl

theorem run_makeParent_ok {machine : Machine} {path : Path} {names : List String} {name : String}
    (allowed : checked path = .ok ()) (steps : closedSteps path = names ++ [name]) (named : name ≠ ".")
    (starts : machine.Starts path.isAbsolute) (clear : machine.Clear path.isAbsolute names) :
    ∃ after, (Host.makeParent path : StateM Machine (Except Cause Unit)).run machine = (.ok (), after) ∧
      after.Stands path.isAbsolute names := by
  have onWay := closedSteps_parent steps named
  rw [← onWay] at clear ⊢
  apply run_makeDirectories_ok (spells_piecesBack path).dropWhile
  · intro front piece more split idle short
    obtain ⟨nonempty, behind, _, text⟩ := text_of_pieces split idle
    exact ⟨isAbove_of_pieces split idle, checked_of_text nonempty text allowed⟩
  · exact starts
  · exact clear

/-- Nothing is made where there is no directory to set out from. -/
theorem makeParent_starts_or_same (path : Path) (machine : Machine) :
    machine.Starts path.isAbsolute ∨
      ((Host.makeParent path : StateM Machine (Except Cause Unit)).run machine).2 = machine := by
  apply makeDirectories_related (R := fun before after => before.Starts path.isAbsolute ∨ after = before)
  · exact fun machine => .inr rfl
  · rintro first second third (starts | rfl) next
    · exact .inl starts
    · exact next
  · intro front piece more split idle machine
    cases made : machine.withDirectory (Path.ofPiecesBack (Path.lead path.text.toList) (piece :: more)) with
    | error cause => exact .inr rfl
    | ok tree =>
      left
      obtain ⟨names, name, spot, opening, _⟩ := withDirectory_eq_ok made
      rw [← (isAbove_of_pieces split idle).1]
      exact starts_of_follow opening.leads opening.directory

end PageInliner.Machine
