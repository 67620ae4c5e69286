import Mathlib.Data.List.Nodup
import PageInliner.CommandLine.Reading
import PageInliner.Proofs.Answer

/-!
# Command lines that ask for a build

A build is asked for by names and options, in whatever order and each option in one of several ways. What is read
is what was asked for: an option takes its own value and nothing else from the arguments behind it, and it does
not matter on which side of the command an option stands that is understood everywhere.
-/

set_option autoImplicit false

namespace PageInliner.CommandLine

/-- What a command line is put together from, the command itself apart. -/
inductive Part where
  | name (text : String)
  | color (choice : ColorChoice)
  | config (path : Path)
  | minify (value : Bool)
  | lenient
  | verbose
  deriving Repr, DecidableEq

/-- A text that cannot be taken for an option. -/
def Bare (text : String) : Prop :=
  text ≠ "" ∧ text.toList.head? ≠ some '-'

theorem shape_of_bare {text : String} (bare : Bare text) : Shape.of text = .plain text := by
  have first := bare.2
  unfold Shape.of
  split <;> simp_all

namespace Part

/-- The ways to write a part, each as a row of arguments. -/
def spellings : Part → List (List String)
  | name text => [[text]]
  | color choice => [["--color", choice.name]]
  | config path => [["-C", path.text], ["--config", path.text]]
  | minify true => [["--minify"], ["-m"], ["--minify=true"], ["-m=true"]]
  | minify false => [["--minify=false"], ["-m=false"]]
  | lenient => [["-l"], ["--lenient-markers"]]
  | verbose => [["-V"], ["--verbose"]]

/-- Names and paths are bare. -/
def Writable : Part → Prop
  | name text => Bare text
  | config path => Bare path.text
  | _ => True

/-- The setting of an option. -/
@[simp] def setting? : Part → Option Setting
  | name _ => none
  | color _ => some .color
  | config _ => some .config
  | minify _ => some .minify
  | lenient => some .lenient
  | verbose => some .verbose

/-- An option that is understood before the command too. -/
@[simp] def isGlobal : Part → Bool
  | color _ | config _ => true
  | _ => false

@[simp] def name? : Part → Option String
  | name text => some text
  | _ => none

@[simp] def color? : Part → Option ColorChoice
  | color choice => some choice
  | _ => none

@[simp] def config? : Part → Option Path
  | config path => some path
  | _ => none

@[simp] def minify? : Part → Option Bool
  | minify value => some value
  | _ => none

end Part

/-- The arguments are the parts in their order, each written in one of its ways. -/
inductive Spelled : List Part → List String → Prop where
  | nil : Spelled [] []
  | cons {part : Part} {parts : List Part} {own rest : List String} :
      part.Writable → own ∈ part.spellings → Spelled parts rest → Spelled (part :: parts) (own ++ rest)

/-- The options of a command line that has each of these settings once. -/
def requested (color : Option ColorChoice) (config : Option Path) (options : BuildOptions) : List Part :=
  color.toList.map .color ++ config.toList.map .config ++ options.minify.toList.map .minify ++
    (if options.lenientMarkers then [.lenient] else []) ++ if options.verbose then [.verbose] else []

/-! ## What has been said -/

/-- What parts say that name no setting twice. -/
def Given.of (parts : List Part) : Given where
  color := (parts.filterMap Part.color?).head?
  config := (parts.filterMap Part.config?).head?
  minify := (parts.filterMap Part.minify?).head?
  lenient := decide (.lenient ∈ parts)
  verbose := decide (.verbose ∈ parts)
  names := parts.filterMap Part.name?

/-- Everything that has been read comes to this, and no option waits for its value. -/
structure Progress.Settled (progress : Progress) (given : Given) : Prop where
  settle : progress.settle = .ok given
  closed : ∀ text, progress.answer? text = none

namespace Progress

variable {progress : Progress} {given next : Given} {level : Level} {setting : Setting}

theorem settled_start : start.Settled (.of []) :=
  ⟨rfl, fun _ => rfl⟩

theorem Settled.take {value : Option String} (settled : progress.Settled given)
    (set : given.set setting value = .ok next) :
    ∃ after, progress.take setting value = .ok after ∧ after.Settled next := by
  refine ⟨⟨next, none⟩, ?_, rfl, fun _ => rfl⟩
  simp [Progress.take, settled.settle, set, bind, Except.bind, pure, Except.pure]

theorem Settled.addName (settled : progress.Settled given) (name : String) :
    ∃ after, progress.addName name = .ok after ∧ after.Settled (given.addName name) := by
  refine ⟨⟨given.addName name, none⟩, ?_, rfl, fun _ => rfl⟩
  simp [Progress.addName, settled.settle, bind, Except.bind, pure, Except.pure]

/-- One more argument: an option, the value of one or, for a build, a name. -/
def advance (level : Level) (progress : Progress) (argument : String) : Except Refusal Progress :=
  match Shape.of argument with
  | .word word value => progress.readWord level word value
  | .letters letters => progress.readLetters level letters
  | .plain text =>
    match progress.answer? text with
    | some next => .ok next
    | none => if level = .build then progress.addName text else .error .unknownArgument
  | .separator => .error .unknownArgument

/-- An option that waits for its value gets it from the next argument. -/
theorem Settled.answer {text : String} (settled : progress.Settled given) (bare : Bare text)
    (set : given.set setting (some text) = .ok next) :
    ∃ after, (progress.expect setting >>= (advance level · text)) = .ok after ∧ after.Settled next := by
  refine ⟨⟨given, some ⟨setting, some text⟩⟩, ?_, set, fun _ => rfl⟩
  simp [expect, settled.settle, advance, shape_of_bare bare, answer?, bind, Except.bind, pure, Except.pure]

end Progress

open Progress

/-- A reader that takes one argument after the other takes a row of them. -/
theorem read_append {α : Type} {level : Level} {readOn : Progress → List String → α}
    (step : ∀ {progress next argument} (rest), advance level progress argument = .ok next →
      readOn progress (argument :: rest) = readOn next rest)
    {progress next : Progress} {own : List String} (moved : own.foldlM (advance level) progress = .ok next)
    (rest : List String) : readOn progress (own ++ rest) = readOn next rest := by
  induction own generalizing progress with
  | nil => cases moved; rfl
  | cons argument own ih =>
    obtain ⟨middle, first, later⟩ := bind_eq_ok moved
    rw [List.cons_append, step _ first, ih later]

theorem readCommand_step {level : Level} {progress next : Progress} {argument : String} (rest : List String)
    (moved : advance level progress argument = .ok next) :
    readCommand level false progress (argument :: rest) = readCommand level false next rest := by
  rw [readCommand, if_neg Bool.false_ne_true]
  unfold advance at moved
  split at moved
  case h_1 word value shape => simp [shape, moved, bind, Except.bind]
  case h_2 letters shape => simp [shape, moved, bind, Except.bind]
  case h_3 text shape =>
    split at moved
    case h_1 answered => cases moved; simp [shape, answered]
    case h_2 answered =>
      split at moved
      case isTrue build => simp [shape, answered, build, moved, bind, Except.bind]
      case isFalse => cases moved
  case h_4 => cases moved

theorem readProgram_step {progress next : Progress} {argument : String} (rest : List String)
    (moved : advance .program progress argument = .ok next) :
    readProgram false progress (argument :: rest) = readProgram false next rest := by
  rw [readProgram, if_neg Bool.false_ne_true]
  unfold advance at moved
  split at moved
  case h_1 word value shape => simp [shape, moved, bind, Except.bind]
  case h_2 letters shape => simp [shape, moved, bind, Except.bind]
  case h_3 text shape =>
    split at moved
    case h_1 answered => cases moved; simp [shape, answered]
    case h_2 answered => cases moved
  case h_4 => cases moved

/-! ## Options one by one -/

/-- The option sets this, with this value behind it if it has one. -/
inductive Part.Sets : Part → Setting → Option String → Prop where
  | color {choice : ColorChoice} : Sets (.color choice) .color (some choice.name)
  | config {path : Path} : Sets (.config path) .config (some path.text)
  | minify : Sets (.minify true) .minify none
  | minifyTrue : Sets (.minify true) .minify (some "true")
  | minifyFalse : Sets (.minify false) .minify (some "false")
  | lenient : Sets .lenient .lenient none
  | verbose : Sets .verbose .verbose none

section Step

variable {level : Level} {progress : Progress} {done : List Part} {part : Part} {setting : Setting}
  {value : Option String} {own : List String}

theorem filterMap_of_fresh {α : Type} {view : Part → Option α}
    (views : ∀ part value, view part = some value → part.setting? = some setting)
    (fresh : setting ∉ done.filterMap Part.setting?) : done.filterMap view = [] := by
  rw [List.filterMap_eq_nil_iff]
  intro part member
  cases seen : view part with
  | none => rfl
  | some value => exact absurd (List.mem_filterMap.mpr ⟨part, member, views part value seen⟩) fresh

theorem set_of_fresh (sets : part.Sets setting value) (writable : part.Writable)
    (fresh : setting ∉ done.filterMap Part.setting?) :
    (Given.of done).set setting value = .ok (.of (done ++ [part])) := by
  cases sets with
  | color =>
    have unsaid : done.filterMap Part.color? = [] :=
      filterMap_of_fresh (by intro part value; cases part <;> simp) fresh
    simp [Given.set, Given.of, unsaid, ColorChoice.ofName?_name]
  | config =>
    have unsaid : done.filterMap Part.config? = [] :=
      filterMap_of_fresh (by intro part value; cases part <;> simp) fresh
    have text := writable.1
    simp [Given.set, Given.of, unsaid, text]
  | minify | minifyTrue | minifyFalse =>
    have unsaid : done.filterMap Part.minify? = [] :=
      filterMap_of_fresh (by intro part value; cases part <;> simp) fresh
    simp [Given.set, Given.of, unsaid, Given.truth?]
  | lenient =>
    have unsaid : .lenient ∉ done := fun member => fresh (List.mem_filterMap.mpr ⟨.lenient, member, rfl⟩)
    simp [Given.set, Given.of, unsaid]
  | verbose =>
    have unsaid : .verbose ∉ done := fun member => fresh (List.mem_filterMap.mpr ⟨.verbose, member, rfl⟩)
    simp [Given.set, Given.of, unsaid]

theorem of_name (done : List Part) (text : String) :
    (Given.of done).addName text = .of (done ++ [.name text]) := by
  simp [Given.addName, Given.of]

theorem bare_name (choice : ColorChoice) : Bare choice.name := by
  cases choice <;> exact ⟨by decide, by decide⟩

/-- An option is written with its value in one argument, or with its value behind it. -/
theorem exists_sets_of_spelling (understood : part.isGlobal = true ∨ level = .build)
    (isOption : part.setting? = some setting) (writable : part.Writable) (written : own ∈ part.spellings) :
    ∃ value, part.Sets setting value ∧
      ((∃ flag, own = [flag] ∧ ∀ progress : Progress, advance level progress flag = progress.take setting value) ∨
        ∃ flag text, own = [flag, text] ∧ value = some text ∧ Bare text ∧
          ∀ progress : Progress, advance level progress flag = progress.expect setting) := by
  cases part with
  | name text => cases isOption
  | color choice =>
    cases isOption
    obtain rfl : own = ["--color", choice.name] := by simpa [Part.spellings] using written
    exact ⟨_, .color, .inr ⟨_, _, rfl, rfl, bare_name choice, fun _ => by cases level <;> rfl⟩⟩
  | config path =>
    cases isOption
    obtain rfl | rfl : own = ["-C", path.text] ∨ own = ["--config", path.text] := by
      simpa [Part.spellings] using written
    all_goals exact ⟨_, .config, .inr ⟨_, _, rfl, rfl, writable, fun _ => by cases level <;> rfl⟩⟩
  | minify value =>
    cases isOption
    obtain rfl : level = .build := by simpa using understood
    cases value with
    | true =>
      obtain rfl | rfl | rfl | rfl :
          own = ["--minify"] ∨ own = ["-m"] ∨ own = ["--minify=true"] ∨ own = ["-m=true"] := by
        simpa [Part.spellings] using written
      · exact ⟨_, .minify, .inl ⟨_, rfl, fun _ => rfl⟩⟩
      · exact ⟨_, .minify, .inl ⟨_, rfl, fun _ => bind_pure _⟩⟩
      · exact ⟨_, .minifyTrue, .inl ⟨_, rfl, fun _ => rfl⟩⟩
      · exact ⟨_, .minifyTrue, .inl ⟨_, rfl, fun _ => rfl⟩⟩
    | false =>
      obtain rfl | rfl : own = ["--minify=false"] ∨ own = ["-m=false"] := by
        simpa [Part.spellings] using written
      all_goals exact ⟨_, .minifyFalse, .inl ⟨_, rfl, fun _ => rfl⟩⟩
  | lenient =>
    cases isOption
    obtain rfl : level = .build := by simpa using understood
    obtain rfl | rfl : own = ["-l"] ∨ own = ["--lenient-markers"] := by
      simpa [Part.spellings] using written
    · exact ⟨_, .lenient, .inl ⟨_, rfl, fun _ => bind_pure _⟩⟩
    · exact ⟨_, .lenient, .inl ⟨_, rfl, fun _ => rfl⟩⟩
  | verbose =>
    cases isOption
    obtain rfl : level = .build := by simpa using understood
    obtain rfl | rfl : own = ["-V"] ∨ own = ["--verbose"] := by
      simpa [Part.spellings] using written
    · exact ⟨_, .verbose, .inl ⟨_, rfl, fun _ => bind_pure _⟩⟩
    · exact ⟨_, .verbose, .inl ⟨_, rfl, fun _ => rfl⟩⟩

/-- One part more has been read. -/
theorem Progress.Settled.read (settled : progress.Settled (.of done))
    (understood : part.isGlobal = true ∨ level = .build) (writable : part.Writable)
    (written : own ∈ part.spellings)
    (fresh : ∀ setting, part.setting? = some setting → setting ∉ done.filterMap Part.setting?) :
    ∃ after, own.foldlM (advance level) progress = .ok after ∧ after.Settled (.of (done ++ [part])) := by
  cases isOption : part.setting? with
  | none =>
    cases part with
    | name text =>
      obtain rfl : level = .build := by simpa using understood
      obtain rfl : own = [text] := by simpa [Part.spellings] using written
      have named : advance .build progress text = progress.addName text := by
        simp [advance, shape_of_bare writable, settled.closed]
      obtain ⟨after, moved, settled⟩ := settled.addName text
      exact ⟨after, by simp [named, moved], of_name done text ▸ settled⟩
    | _ => cases isOption
  | some setting =>
    obtain ⟨value, sets, ⟨flag, rfl, taken⟩ | ⟨flag, text, rfl, rfl, bare, expected⟩⟩ :=
      exists_sets_of_spelling understood isOption writable written
    · obtain ⟨after, moved, settled⟩ := settled.take (set_of_fresh sets writable (fresh setting isOption))
      exact ⟨after, by simp [taken, moved], settled⟩
    · obtain ⟨after, moved, settled⟩ :=
        settled.answer bare (set_of_fresh sets writable (fresh setting isOption))
      exact ⟨after, by simpa [expected] using moved, settled⟩

/-- Any row of parts has been read, none of which names a setting that was named before. -/
theorem Progress.Settled.readAll {parts : List Part} {arguments : List String}
    (settled : progress.Settled (.of done)) (spelled : Spelled parts arguments)
    (understood : ∀ part ∈ parts, part.isGlobal = true ∨ level = .build)
    (distinct : ((done ++ parts).filterMap Part.setting?).Nodup) :
    ∃ after, arguments.foldlM (advance level) progress = .ok after ∧ after.Settled (.of (done ++ parts)) := by
  induction spelled generalizing done progress with
  | nil => exact ⟨progress, rfl, by simpa using settled⟩
  | @cons part parts own rest writable written _ ih =>
    have fresh : ∀ setting, part.setting? = some setting → setting ∉ done.filterMap Part.setting? := by
      intro setting isOption member
      rw [List.filterMap_append, List.nodup_append] at distinct
      exact distinct.2.2 setting member setting (List.mem_filterMap.mpr ⟨part, by simp, isOption⟩) rfl
    obtain ⟨middle, first, settled⟩ :=
      settled.read (understood part (by simp)) writable written fresh
    obtain ⟨after, later, settled⟩ := ih settled (fun part member => understood part (by simp [member]))
      (by simpa using distinct)
    refine ⟨after, ?_, by simpa using settled⟩
    rw [List.foldlM_append, first]
    exact later

end Step

/-! ## Whole command lines -/

/-- The parts before the command and behind it ask for a build: the names stand behind the command in their order,
and each option that is asked for is one of the others, once and wherever it is understood. -/
structure Asks (before behind : List Part) (color : Option ColorChoice) (config : Option Path)
    (names : List String) (options : BuildOptions) : Prop where
  globals : ∀ part ∈ before, part.isGlobal = true
  names : behind.filterMap Part.name? = names
  each : ((before ++ behind).filter (·.setting?.isSome)).Perm (requested color config options)

section Requested

variable (color : Option ColorChoice) (config : Option Path) (options : BuildOptions)

theorem settings_requested : ((requested color config options).filterMap Part.setting?).Nodup := by
  obtain ⟨minify, lenient, verbose⟩ := options
  cases color <;> cases config <;> cases minify <;> cases lenient <;> cases verbose <;> simp [requested]

theorem colors_requested : (requested color config options).filterMap Part.color? = color.toList := by
  simp [requested, List.filterMap_map, Function.comp_def, apply_ite (List.filterMap Part.color?)]

theorem configs_requested : (requested color config options).filterMap Part.config? = config.toList := by
  simp [requested, List.filterMap_map, Function.comp_def, apply_ite (List.filterMap Part.config?)]

theorem minifies_requested : (requested color config options).filterMap Part.minify? = options.minify.toList := by
  simp [requested, List.filterMap_map, Function.comp_def, apply_ite (List.filterMap Part.minify?)]

theorem lenient_mem_requested : .lenient ∈ requested color config options ↔ options.lenientMarkers = true := by
  simp [requested]

theorem verbose_mem_requested : .verbose ∈ requested color config options ↔ options.verbose = true := by
  simp [requested]

end Requested

theorem eq_toList_of_perm {α : Type} {values : List α} {value : Option α} (same : values.Perm value.toList) :
    values = value.toList := by
  cases value with
  | none => exact same.eq_nil
  | some value => exact List.perm_singleton.mp same

/-- The one value of two places is found in either of them. -/
theorem head?_or_head? {α : Type} {former latter : List α} {value : Option α}
    (whole : former ++ latter = value.toList) : (latter.head? <|> former.head?) = value := by
  cases value with
  | none => simp_all
  | some value =>
    rcases List.append_eq_singleton_iff.mp whole with ⟨rfl, rfl⟩ | ⟨rfl, rfl⟩ <;> rfl

namespace Asks

variable {before behind : List Part} {color : Option ColorChoice} {config : Option Path}
  {names : List String} {options : BuildOptions}

theorem perm_view {α : Type} (asks : Asks before behind color config names options) (view : Part → Option α)
    (views : ∀ part, part.setting? = none → view part = none) :
    ((before ++ behind).filterMap view).Perm ((requested color config options).filterMap view) := by
  have same : ((before ++ behind).filter (·.setting?.isSome)).filterMap view = (before ++ behind).filterMap view := by
    rw [List.filterMap_filter]
    apply List.filterMap_congr
    intro part _
    cases isOption : part.setting? with
    | none => simp [views part isOption]
    | some setting => simp
  exact same ▸ asks.each.filterMap view

theorem distinct (asks : Asks before behind color config names options) :
    ((before ++ behind).filterMap Part.setting?).Nodup :=
  (asks.perm_view Part.setting? fun _ none => none).nodup_iff.mpr (settings_requested color config options)

/-- What is asked for is said before the command or behind it. -/
theorem head?_or_head?_view {α : Type} {view : Part → Option α} {value : Option α}
    (asks : Asks before behind color config names options)
    (views : ∀ part, part.setting? = none → view part = none)
    (said : (requested color config options).filterMap view = value.toList) :
    ((behind.filterMap view).head? <|> (before.filterMap view).head?) = value := by
  apply head?_or_head?
  rw [← List.filterMap_append]
  exact eq_toList_of_perm (said ▸ asks.perm_view view views)

theorem color_eq (asks : Asks before behind color config names options) :
    ((Given.of behind).color <|> (Given.of before).color) = color :=
  asks.head?_or_head?_view (by intro part; cases part <;> simp) (colors_requested color config options)

theorem config_eq (asks : Asks before behind color config names options) :
    ((Given.of behind).config <|> (Given.of before).config) = config :=
  asks.head?_or_head?_view (by intro part; cases part <;> simp) (configs_requested color config options)

theorem minify_eq (asks : Asks before behind color config names options) :
    (Given.of behind).minify = options.minify := by
  have noneBefore : before.filterMap Part.minify? = [] := by
    rw [List.filterMap_eq_nil_iff]
    intro part member
    have global := asks.globals part member
    cases part <;> simp_all
  have either := asks.head?_or_head?_view (by intro part; cases part <;> simp)
    (minifies_requested color config options)
  simpa [noneBefore, Given.of] using either

theorem mem_behind_iff (asks : Asks before behind color config names options) {part : Part}
    (isOption : part.setting?.isSome = true) (notGlobal : part.isGlobal = false) :
    part ∈ behind ↔ part ∈ requested color config options := by
  have notBefore : part ∉ before := by
    intro member
    rw [asks.globals part member] at notGlobal
    cases notGlobal
  rw [← asks.each.mem_iff, List.mem_filter, List.mem_append]
  simp only [isOption, notBefore, false_or, and_true]

theorem buildOptions_eq (asks : Asks before behind color config names options) :
    (Given.of behind).buildOptions = options := by
  have lenient : Part.lenient ∈ behind ↔ options.lenientMarkers = true :=
    (asks.mem_behind_iff rfl rfl).trans (lenient_mem_requested color config options)
  have verbose : Part.verbose ∈ behind ↔ options.verbose = true :=
    (asks.mem_behind_iff rfl rfl).trans (verbose_mem_requested color config options)
  rw [Given.buildOptions, asks.minify_eq]
  simp [Given.of, lenient, verbose]

end Asks

/-- Behind the name of the command its own arguments are read, and what they come to is what it is to do. -/
theorem readProgram_build {progress : Progress} {own given : Given} {verb : String} {arguments : List String}
    (settled : progress.Settled own) (isVerb : verb ∈ ["build", "b"])
    (given_eq : readCommand .build false .start arguments = .ok given) :
    readProgram false progress (verb :: arguments) =
      .ok (request own (some (.build given.names given.buildOptions, given))) := by
  have plain : Shape.of verb = .plain verb := by
    simp only [List.mem_cons, List.not_mem_nil, or_false] at isVerb
    obtain rfl | rfl := isVerb <;> exact shape_of_bare ⟨by decide, by decide⟩
  have build : Verb.ofName? verb = some .build := by
    simp only [List.mem_cons, List.not_mem_nil, or_false] at isVerb
    obtain rfl | rfl := isVerb <;> rfl
  rw [readProgram]
  simp [plain, settled.closed, build, given_eq, settled.settle, bind, Except.bind, pure, Except.pure]

/-- Whatever build is asked for, in whatever order and in whatever way each option is written, just this is read.
Without a command the options that are left ask for the build of everything. -/
theorem read_spelled {before behind : List Part} {color : Option ColorChoice} {config : Option Path}
    {names : List String} {options : BuildOptions} {early late : List String}
    (asks : Asks before behind color config names options) (spelledEarly : Spelled before early)
    (spelledLate : Spelled behind late) :
    (∀ verb ∈ ["build", "b"], ∃ request, read (early ++ verb :: late) = .ok request ∧
      request.resolved = .build names options ∧ request.color = color.getD .auto ∧ request.config = config) ∧
    (behind = [] → ∃ request, read early = .ok request ∧
      request.resolved = .build [] ⟨none, false, false⟩ ∧ request.color = color.getD .auto ∧
      request.config = config) := by
  have distinct := asks.distinct
  rw [List.filterMap_append, List.nodup_append] at distinct
  obtain ⟨atProgram, movedEarly, settledEarly⟩ : ∃ progress,
      early.foldlM (advance .program) .start = .ok progress ∧ progress.Settled (.of before) :=
    settled_start.readAll spelledEarly (fun part member => .inl (asks.globals part member)) distinct.1
  obtain ⟨atBuild, movedLate, settledLate⟩ : ∃ progress,
      late.foldlM (advance .build) .start = .ok progress ∧ progress.Settled (.of behind) :=
    settled_start.readAll spelledLate (fun _ _ => .inr rfl) distinct.2.1
  constructor
  · intro verb isVerb
    have given : readCommand .build false .start late = .ok (.of behind) := by
      have all := read_append readCommand_step movedLate []
      rwa [List.append_nil, readCommand, settledLate.settle] at all
    refine ⟨_, (read_append readProgram_step movedEarly _).trans (readProgram_build settledEarly isVerb given), ?_⟩
    refine ⟨?_, congrArg (·.getD .auto) asks.color_eq, asks.config_eq⟩
    rw [asks.buildOptions_eq]
    exact congrArg (Command.build · options) asks.names
  · intro alone
    subst alone
    have made : read early = .ok (request (.of before) none) := by
      have all := read_append readProgram_step movedEarly []
      rwa [List.append_nil, readProgram, settledEarly.settle] at all
    exact ⟨_, made, rfl, congrArg (·.getD .auto) asks.color_eq, asks.config_eq⟩

theorem read_spelled_interleaved :
    Asks [.color .always] [.minify true, .name "site", .lenient, .config ⟨"x.toml"⟩, .name "docs"]
      (some .always) (some ⟨"x.toml"⟩) ["site", "docs"] ⟨some true, true, false⟩ ∧
    ∃ request, read ["--color", "always", "b", "-m", "site", "-l", "--config", "x.toml", "docs"] = .ok request ∧
      request.resolved = .build ["site", "docs"] ⟨some true, true, false⟩ ∧ request.color = .always ∧
      request.config = some ⟨"x.toml"⟩ := by
  have asks : Asks [.color .always] [.minify true, .name "site", .lenient, .config ⟨"x.toml"⟩, .name "docs"]
      (some .always) (some ⟨"x.toml"⟩) ["site", "docs"] ⟨some true, true, false⟩ :=
    ⟨by decide, rfl, by decide⟩
  have early : Spelled [.color .always] (["--color", "always"] ++ []) :=
    .cons trivial (.head _) .nil
  have late : Spelled [.minify true, .name "site", .lenient, .config ⟨"x.toml"⟩, .name "docs"]
      (["-m"] ++ (["site"] ++ (["-l"] ++ (["--config", "x.toml"] ++ (["docs"] ++ []))))) :=
    .cons trivial (.tail _ (.head _)) (.cons ⟨by decide, by decide⟩ (.head _) (.cons trivial (.head _)
      (.cons ⟨by decide, by decide⟩ (.tail _ (.head _)) (.cons ⟨by decide, by decide⟩ (.head _) .nil))))
  exact ⟨asks, (read_spelled asks early late).1 "b" (by decide)⟩

end PageInliner.CommandLine
