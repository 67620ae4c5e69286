import Mathlib.Control.Monad.Basic
import PageInliner.Proofs.Build.Drafting

/-!
# Every file at its own place

The inputs of a bundle are read in a row, and only their order tells what each of them is for. Still every
rule gets the text of its own file, and every part of the built-in page its own file or what comes with the
page. If a file cannot be read, the first such file in that order is the one that is told.
-/

set_option autoImplicit false

namespace PageInliner

open Page

section Reading

/-- The asset that is read from a file with these contents. -/
def Asset.Source.asset (directory : Path) (content : Path → String) (source : Asset.Source) : Asset :=
  ⟨source.kind, directory.join source.path, content source.path⟩

namespace Machine

variable {machine : Machine} {directory : Path}

theorem input_of_text {content : Path → String} {source : Asset.Source}
    (readable : machine.text (directory.join source.path) = .ok (content source.path)) :
    machine.input directory source = .ok (source.asset directory content) := by
  unfold input
  rw [readable]
  rfl

theorem inputs_of_readable {content : Path → String} {sources : List Asset.Source}
    (readable : ∀ source ∈ sources,
      machine.text (directory.join source.path) = .ok (content source.path)) :
    machine.inputs directory sources = .ok (sources.map (Asset.Source.asset directory content)) := by
  induction sources with
  | nil => rfl
  | cons source sources ih =>
    rw [List.forall_mem_cons] at readable
    have later := ih readable.2
    rw [inputs] at later ⊢
    rw [List.mapM_cons, input_of_text readable.1, later]
    rfl

/-- The first file that cannot be read ends the reading, whatever the later files are. -/
theorem inputs_of_unreadable {sources : List Asset.Source} {before later : List Path} {failing : Path}
    {cause : Cause} (order : sources.map Asset.Source.path = before ++ failing :: later)
    (readable : ∀ path ∈ before, ∃ content, machine.text (directory.join path) = .ok content)
    (fails : machine.text (directory.join failing) = .error cause) :
    machine.inputs directory sources = .error (.ofRead (directory.join failing) cause) := by
  induction before generalizing sources with
  | nil =>
    obtain ⟨source, rest, rfl, isFailing, _⟩ := List.map_eq_cons_iff.mp order
    subst isFailing
    have refused : machine.input directory source =
        .error (.ofRead (directory.join source.path) cause) := by
      unfold input
      rw [fails]
    rw [inputs, List.mapM_cons, refused]
    rfl
  | cons path before ih =>
    obtain ⟨source, rest, rfl, isPath, laterOrder⟩ := List.map_eq_cons_iff.mp order
    subst isPath
    rw [List.forall_mem_cons] at readable
    obtain ⟨content, found⟩ := readable.1
    have first : machine.input directory source =
        .ok (source.asset directory fun _ => content) := input_of_text found
    have stops := ih laterOrder readable.2
    rw [inputs] at stops ⊢
    rw [List.mapM_cons, first, stops]
    rfl

end Machine

end Reading

namespace Bundle

variable {bundle : Bundle} {config : Config} {machine : Machine}

/-- The text that goes into a page of the bundle for a text of some kind. -/
def shown (bundle : Bundle) (config : Config) (kind : Asset.Kind) (text : String) : String :=
  if bundle.minify.getD config.minify ∧ kind ≠ .markup then Minify.shortForm kind text else text

/-- What a page of the bundle, or its failure, is as a draft. -/
def drafted (bundle : Bundle) (config : Config) (page : Except BuildError String) : Except Failure Draft :=
  (page.mapError .bundle).map (Draft.mk (config.root.join bundle.output))

theorem prepared_eq_shown (bundle : Bundle) (config : Config) (asset : Asset) :
    asset.prepared (bundle.minifies config.minify) =
      { asset with text := bundle.shown config asset.kind asset.text } := by
  unfold Asset.prepared shown minifies
  cases bundle.minify.getD config.minify with
  | false => simp
  | true => cases kind : asset.kind <;> simp [Minify.shortForm]

section Outcome

theorem run_draft_of_readable {content : Path → String}
    (readable : ∀ path ∈ bundle.inputs.map Asset.Source.path,
      machine.text ((config.root.join bundle.root).join path) = .ok (content path)) :
    ∃ history, (bundle.draft config : StateM Machine (Except Failure Draft)).run machine =
      ((bundle.assemble config.strictMarkers (bundle.minifies config.minify)
        (bundle.inputs.map (Asset.Source.asset (config.root.join bundle.root) content))).1.map
          (Draft.mk (config.root.join bundle.output)), machine.told history) := by
  rw [List.forall_mem_map] at readable
  obtain ⟨history, spec⟩ := run_draft bundle config machine
  refine ⟨history, ?_⟩
  rw [spec, Machine.draft, directory, Machine.inputs_of_readable readable]
  rfl

theorem run_draft_of_unreadable {before later : List Path} {failing : Path} {cause : Cause}
    (order : bundle.inputs.map Asset.Source.path = before ++ failing :: later)
    (readable : ∀ path ∈ before, ∃ content,
      machine.text ((config.root.join bundle.root).join path) = .ok content)
    (fails : machine.text ((config.root.join bundle.root).join failing) = .error cause) :
    ∃ history, (bundle.draft config : StateM Machine (Except Failure Draft)).run machine =
      (.error (.bundle (.ofRead ((config.root.join bundle.root).join failing) cause)),
        machine.told history) := by
  obtain ⟨history, spec⟩ := run_draft bundle config machine
  refine ⟨history, ?_⟩
  rw [spec, Machine.draft, directory, Machine.inputs_of_unreadable order readable fails]

end Outcome

section Markers

theorem inputs_of_markers {template : Path} (markers : bundle.strategy = .markers)
    (isTemplate : bundle.template = some template) :
    bundle.inputs = ⟨.markup, template⟩ :: bundle.rules.map MarkerRule.source := by
  rw [inputs, markers, isTemplate]
  rfl

theorem inlinings_map (minify : Bool) (input : MarkerRule → Asset) :
    bundle.inlinings minify (bundle.rules.map input) =
      bundle.rules.map fun rule => ⟨rule.marker, (input rule).prepared minify⟩ := by
  rw [inlinings, List.zipWith_map_right, List.zipWith_self]

/-- The draft of a markers bundle. The template goes in as it is; the marker of each rule stands for the file
of that rule, of the kind the rule says and minified if the bundle is. The order in which files are looked at
is that of the template and then the rules. -/
theorem draft_markers {template : Path} (config : Config) (machine : Machine)
    (markers : bundle.strategy = .markers) (isTemplate : bundle.template = some template) :
    let resolve := (config.root.join bundle.root).join
    let paths := template :: bundle.rules.map MarkerRule.path
    (∀ content : Path → String, (∀ path ∈ paths, machine.text (resolve path) = .ok (content path)) →
      ∃ history, (bundle.draft config : StateM Machine (Except Failure Draft)).run machine =
        (bundle.drafted config (fromTemplate ⟨.markup, resolve template, content template⟩
          (bundle.rules.map fun rule => ⟨rule.marker,
            ⟨rule.kind, resolve rule.path, bundle.shown config rule.kind (content rule.path)⟩⟩)
          config.strictMarkers).1, machine.told history)) ∧
    ∀ before failing later cause, paths = before ++ failing :: later →
      (∀ path ∈ before, ∃ content, machine.text (resolve path) = .ok content) →
      machine.text (resolve failing) = .error cause →
      ∃ history, (bundle.draft config : StateM Machine (Except Failure Draft)).run machine =
        (.error (.bundle (.ofRead (resolve failing) cause)), machine.told history) := by
  intro resolve paths
  have order : bundle.inputs.map Asset.Source.path = paths := by
    rw [inputs_of_markers markers isTemplate, List.map_cons, List.map_map]
    rfl
  rw [← order]
  constructor
  · intro content readable
    obtain ⟨history, runs⟩ := run_draft_of_readable readable
    refine ⟨history, ?_⟩
    rw [runs, inputs_of_markers markers isTemplate, List.map_cons, List.map_map, assemble, markers]
    dsimp only [assembleMarkers]
    rw [inlinings_map]
    simp only [prepared_eq_shown]
    rfl
  · intro before failing later cause split readable fails
    exact run_draft_of_unreadable split readable fails

/-- Three rules of which two have the same file, and then a file that is not there before one that is no
text. -/
theorem draft_markers_repeated_file :
    let bundle : Bundle := { blank with
      output := ⟨"page.html"⟩
      minify := some true
      template := some ⟨"t.html"⟩
      rules := [⟨.style, "A", ⟨"a.css"⟩⟩, ⟨.script, "B", ⟨"b.js"⟩⟩, ⟨.markup, "C", ⟨"a.css"⟩⟩] }
    let template := ("t.html", Branch.file "A B C".toUTF8)
    let whole := Machine.start
      ⟨[template, ("a.css", .file "p { }".toUTF8), ("b.js", .file "x = 1".toUTF8)]⟩ []
    let broken := Machine.start ⟨[template, ("b.js", .file ⟨#[255]⟩)]⟩ []
    bundle.strategy = .markers ∧ bundle.template = some ⟨"t.html"⟩ ∧
      ((bundle.draft .standard : StateM Machine (Except Failure Draft)).run whole).1 =
        .ok ⟨⟨"page.html"⟩, "<style>\np{}\n</style> <script>\nx=1\n</script> p { }"⟩ ∧
      ((bundle.draft .standard : StateM Machine (Except Failure Draft)).run broken).1 =
        .error (.bundle (.missingInput ⟨"./a.css"⟩)) := by
  intro bundle template whole broken
  have markers : bundle.strategy = .markers := rfl
  have isTemplate : bundle.template = some ⟨"t.html"⟩ := rfl
  refine ⟨markers, isTemplate, ?_, ?_⟩
  · obtain ⟨ready, _⟩ := draft_markers .standard whole markers isTemplate
    let content : Path → String := fun path =>
      if path.text = "t.html" then "A B C" else if path.text = "a.css" then "p { }" else "x = 1"
    obtain ⟨history, runs⟩ := ready content (by decide +kernel)
    rw [runs]
    dsimp only
    decide +kernel
  · obtain ⟨_, unready⟩ := draft_markers .standard broken markers isTemplate
    have readable : ∀ path ∈ [(⟨"t.html"⟩ : Path)], ∃ content,
        broken.text ((Config.standard.root.join bundle.root).join path) = .ok content :=
      List.forall_mem_singleton.mpr ⟨"A B C", by decide +kernel⟩
    obtain ⟨history, runs⟩ := unready _ ⟨"a.css"⟩ _ .notFound rfl readable (by decide +kernel)
    rw [runs]
    dsimp only
    decide +kernel

end Markers

section Skeleton

/-- A part of the built-in page: the file the bundle has for it, or else what comes with the page. -/
def part (bundle : Bundle) (config : Config) (content : Path → String) (builtIn : Asset) :
    Option Path → Asset
  | some path => ⟨builtIn.kind, (config.root.join bundle.root).join path,
      bundle.shown config builtIn.kind (content path)⟩
  | none => { builtIn with text := bundle.shown config builtIn.kind builtIn.text }

theorem contents_map {script : Path} (minify : Bool) (input : Asset.Source → Asset)
    (skeleton : bundle.strategy = .skeleton) (hasScript : bundle.script = some script) :
    bundle.contents minify (bundle.inputs.map input) = .ok
      { title := bundle.title.getD Skeleton.defaultTitle
        style := ((bundle.style.map fun path => input ⟨.style, path⟩).getD .builtInStyle).prepared minify
        script := (input ⟨.script, script⟩).prepared minify
        app := ((bundle.app.map fun path => input ⟨.script, path⟩).getD .builtInApp).prepared minify } := by
  rw [contents, inputs, skeleton, hasScript]
  -- Which place of the row the script has depends on the style, and that of the app on both.
  cases bundle.style with
  | none => cases bundle.app <;> rfl
  | some style => cases bundle.app <;> rfl

theorem prepared_part (content : Path → String) (builtIn : Asset) (path : Option Path) :
    ((path.map fun path => Asset.Source.asset (config.root.join bundle.root) content
      ⟨builtIn.kind, path⟩).getD builtIn).prepared (bundle.minifies config.minify) =
      bundle.part config content builtIn path := by
  rw [prepared_eq_shown]
  cases path <;> rfl

/-- The draft of a skeleton bundle. Every part of the page has its own file, or else what comes with the
page, and all three are minified if the bundle is. The order in which files are looked at is that of style,
script and app. -/
theorem draft_skeleton {script : Path} (config : Config) (machine : Machine)
    (skeleton : bundle.strategy = .skeleton) (hasScript : bundle.script = some script) :
    let resolve := (config.root.join bundle.root).join
    let paths := bundle.style.toList ++ script :: bundle.app.toList
    (∀ content : Path → String, (∀ path ∈ paths, machine.text (resolve path) = .ok (content path)) →
      ∃ history, (bundle.draft config : StateM Machine (Except Failure Draft)).run machine =
        (bundle.drafted config (fromContents {
          title := bundle.title.getD Skeleton.defaultTitle
          style := bundle.part config content .builtInStyle bundle.style
          script := ⟨.script, resolve script, bundle.shown config .script (content script)⟩
          app := bundle.part config content .builtInApp bundle.app }), machine.told history)) ∧
    ∀ before failing later cause, paths = before ++ failing :: later →
      (∀ path ∈ before, ∃ content, machine.text (resolve path) = .ok content) →
      machine.text (resolve failing) = .error cause →
      ∃ history, (bundle.draft config : StateM Machine (Except Failure Draft)).run machine =
        (.error (.bundle (.ofRead (resolve failing) cause)), machine.told history) := by
  intro resolve paths
  have order : bundle.inputs.map Asset.Source.path = paths := by
    simp only [paths]
    rw [inputs, skeleton, hasScript]
    cases bundle.style <;> cases bundle.app <;> rfl
  rw [← order]
  constructor
  · intro content readable
    obtain ⟨history, runs⟩ := run_draft_of_readable readable
    refine ⟨history, ?_⟩
    rw [runs, assemble, skeleton]
    dsimp only
    rw [assembleSkeleton, contents_map _ _ skeleton hasScript]
    rw [← prepared_part content .builtInStyle, ← prepared_part content .builtInApp,
      prepared_eq_shown bundle config (Asset.Source.asset _ content ⟨.script, script⟩)]
    rfl
  · intro before failing later cause split readable fails
    exact run_draft_of_unreadable split readable fails

/-- A page with a logic of its own and the stylesheet that comes with it, and one whose script is no text. -/
theorem draft_skeleton_own_app :
    let bundle : Bundle := { demo with app := some ⟨"app.js"⟩, title := some "A & B" }
    let whole := Machine.start
      ⟨[("lxclua.js", .file "main()".toUTF8), ("app.js", .file "app()".toUTF8)]⟩ []
    let broken := Machine.start ⟨[("lxclua.js", .file ⟨#[255]⟩)]⟩ []
    bundle.strategy = .skeleton ∧ bundle.script = some ⟨"lxclua.js"⟩ ∧
      ((bundle.draft .standard : StateM Machine (Except Failure Draft)).run whole).1 =
        bundle.drafted .standard (fromContents ⟨"A & B", .builtInStyle,
          ⟨.script, ⟨"./lxclua.js"⟩, "main()"⟩, ⟨.script, ⟨"./app.js"⟩, "app()"⟩⟩) ∧
      ((bundle.draft .standard : StateM Machine (Except Failure Draft)).run broken).1 =
        .error (.bundle (.encoding ⟨"./lxclua.js"⟩)) := by
  intro bundle whole broken
  have skeleton : bundle.strategy = .skeleton := rfl
  have hasScript : bundle.script = some ⟨"lxclua.js"⟩ := rfl
  refine ⟨skeleton, hasScript, ?_, ?_⟩
  · obtain ⟨ready, _⟩ := draft_skeleton .standard whole skeleton hasScript
    let content : Path → String := fun path => if path.text = "app.js" then "app()" else "main()"
    obtain ⟨history, runs⟩ := ready content (by decide +kernel)
    have title : bundle.title.getD Skeleton.defaultTitle = "A & B" := rfl
    have style : bundle.part .standard content .builtInStyle bundle.style = .builtInStyle := rfl
    have app : bundle.part .standard content .builtInApp bundle.app =
        ⟨.script, ⟨"./app.js"⟩, "app()"⟩ := by
      decide +kernel
    have script : (⟨.script, (Config.standard.root.join bundle.root).join ⟨"lxclua.js"⟩,
        bundle.shown .standard .script (content ⟨"lxclua.js"⟩)⟩ : Asset) =
          ⟨.script, ⟨"./lxclua.js"⟩, "main()"⟩ := by
      decide +kernel
    rw [runs, style, app, script, title]
  · obtain ⟨_, unready⟩ := draft_skeleton .standard broken skeleton hasScript
    obtain ⟨history, runs⟩ := unready [] ⟨"lxclua.js"⟩ _ .invalidText rfl nofun (by decide +kernel)
    rw [runs]
    dsimp only
    decide +kernel

end Skeleton

end Bundle

end PageInliner
