import PageInliner.Proofs.Build.Drafting
import PageInliner.Proofs.Page.Parts

/-!
# Embedded inputs of a bundle

The page of a bundle is a sealed row of parts, whatever its files hold, whether or not it is minified and
whichever way its page comes about. An input is put into the form in which it is embedded after it was
minified, so it does not matter if a closing tag is only formed by that.
-/

set_option autoImplicit false

namespace PageInliner

open Page Text

theorem Asset.kind_prepared (minify : Bool) (asset : Asset) :
    (asset.prepared minify).kind = asset.kind := by
  cases minify <;> rfl

theorem Machine.kind_of_input {machine : Machine} {directory : Path} {source : Asset.Source}
    {asset : Asset} (read : machine.input directory source = .ok asset) : asset.kind = source.kind := by
  unfold Machine.input at read
  split at read
  · cases read
  · cases read
    rfl

theorem Machine.kinds_of_inputs {machine : Machine} {directory : Path} {sources : List Asset.Source}
    {inputs : List Asset} (read : machine.inputs directory sources = .ok inputs) :
    inputs.map Asset.kind = sources.map Asset.Source.kind := by
  unfold Machine.inputs at read
  induction sources generalizing inputs with
  | nil =>
    cases read
    rfl
  | cons source sources ih =>
    rw [List.mapM_cons] at read
    obtain ⟨asset, first, read⟩ := bind_eq_ok read
    obtain ⟨assets, rest, read⟩ := bind_eq_ok read
    cases read
    rw [List.map_cons, List.map_cons, kind_of_input first, ih rest]

namespace Bundle

/-- The parts of the page of a bundle, made of the inputs that were read for it. -/
def parts (bundle : Bundle) (minify : Bool) (inputs : List Asset) : List Part :=
  match bundle.strategy with
  | .markers =>
    match inputs with
    | [] => []
    | template :: inputs => templateParts template (bundle.inlinings minify inputs)
  | .skeleton =>
    match bundle.contents minify inputs with
    | .error _ => []
    | .ok contents => contents.parts

/-- What an asset of a page is made from: an input, or what comes with the built-in page. -/
def IsSource (inputs : List Asset) (asset : Asset) : Prop :=
  asset ∈ inputs ∨ asset = .builtInStyle ∨ asset = .builtInApp

/-- The first of the inputs belongs to a path that is there. -/
private theorem kinds_of_taken {path : Option Path} {kind : Asset.Kind} {kinds : List Asset.Kind}
    {inputs : List Asset} (shape : inputs.map Asset.kind = (path.map fun _ => kind).toList ++ kinds) :
    let taken := if path.isSome then (inputs.head?, inputs.tail) else (none, inputs)
    (∀ asset, taken.1 = some asset → asset ∈ inputs ∧ asset.kind = kind) ∧
      taken.2 ⊆ inputs ∧ taken.2.map Asset.kind = kinds := by
  cases path with
  | none => exact ⟨nofun, List.Subset.refl _, shape⟩
  | some path =>
    cases inputs with
    | nil => cases shape
    | cons input inputs =>
      obtain ⟨first, rest⟩ := List.cons.inj shape
      refine ⟨?_, List.subset_cons_self _ _, rest⟩
      intro asset isFirst
      cases isFirst
      exact ⟨List.mem_cons_self, first⟩

private theorem getD_cases {motive : Asset → Prop} {taken : Option Asset} {otherwise : Asset}
    (found : ∀ asset, taken = some asset → motive asset) (builtIn : motive otherwise) :
    motive (taken.getD otherwise) := by
  cases taken with
  | none => exact builtIn
  | some asset => exact found asset rfl

/-- The assets of a built-in page are of the kinds that its places are for, and all of them were prepared. -/
theorem contents_eq_ok {bundle : Bundle} {minify : Bool} {inputs : List Asset} {contents : Contents}
    (skeleton : bundle.strategy = .skeleton)
    (kinds : inputs.map Asset.kind = bundle.inputs.map Asset.Source.kind)
    (made : bundle.contents minify inputs = .ok contents) :
    ∃ style script app, contents.style = style.prepared minify ∧
      contents.script = script.prepared minify ∧ contents.app = app.prepared minify ∧
      (IsSource inputs style ∧ style.kind = .style) ∧
      (IsSource inputs script ∧ script.kind = .script) ∧ IsSource inputs app ∧ app.kind = .script := by
  have shape : inputs.map Asset.kind = (bundle.style.map fun _ => .style).toList ++
      ((bundle.script.map fun _ => .script).toList ++
        ((bundle.app.map fun _ => .script).toList ++ [])) := by
    rw [kinds, Bundle.inputs, skeleton]
    cases bundle.style <;> cases bundle.script <;> cases bundle.app <;> rfl
  -- Each path that is there takes the next of the inputs.
  obtain ⟨styled, behindStyle, shape⟩ := kinds_of_taken shape
  obtain ⟨scripted, behindScript, shape⟩ := kinds_of_taken shape
  obtain ⟨run, _⟩ := kinds_of_taken shape
  unfold Bundle.contents at made
  dsimp only at made
  split at made
  · cases made
  · rename_i script taken
    cases made
    refine ⟨_, _, _, rfl, rfl, rfl, ?_, ?_, ?_⟩
    · apply getD_cases (motive := fun asset => IsSource inputs asset ∧ asset.kind = .style)
      case builtIn => exact ⟨.inr (.inl rfl), rfl⟩
      intro asset found
      obtain ⟨among, kind⟩ := styled asset found
      exact ⟨.inl among, kind⟩
    · obtain ⟨among, kind⟩ := scripted script taken
      exact ⟨.inl (behindStyle among), kind⟩
    · apply getD_cases (motive := fun asset => IsSource inputs asset ∧ asset.kind = .script)
      case builtIn => exact ⟨.inr (.inr rfl), rfl⟩
      intro asset found
      obtain ⟨among, kind⟩ := run asset (by rw [← found]; split <;> rfl)
      exact ⟨.inl (behindStyle (behindScript among)), kind⟩

theorem mem_of_mem_inlinings {bundle : Bundle} {minify : Bool} {inputs : List Asset}
    {inlining : Inlining} (member : inlining ∈ bundle.inlinings minify inputs) :
    ∃ input ∈ inputs, inlining.asset = input.prepared minify := by
  rw [inlinings, ← List.map_uncurry_zip_eq_zipWith] at member
  obtain ⟨⟨rule, input⟩, among, rfl⟩ := List.mem_map.mp member
  exact ⟨input, (List.of_mem_zip among).2, rfl⟩

/-- A page that is made of inputs as the bundle asks for them is the row of its parts, and it is sealed. The
assets in it are inputs, or come with the built-in page, and all of them were prepared. -/
theorem assemble_parts {bundle : Bundle} {strict minify : Bool} {inputs : List Asset} {html : String}
    {events : List Event} (kinds : inputs.map Asset.kind = bundle.inputs.map Asset.Source.kind)
    (made : bundle.assemble strict minify inputs = (.ok html, events)) :
    html.toList = spelling (bundle.parts minify inputs) ∧ Sealed (bundle.parts minify inputs) ∧
      ∀ tag asset, .embedded tag asset ∈ bundle.parts minify inputs →
        ∃ source, IsSource inputs source ∧ asset = source.prepared minify := by
  unfold assemble at made
  unfold parts
  cases strategy : bundle.strategy with
  | markers =>
    rw [strategy] at made
    cases inputs with
    | nil => cases (Prod.mk.inj made).1
    | cons template inputs =>
      have page := mapError_eq_ok (Prod.mk.inj made).1
      obtain ⟨spelled, closed⟩ := fromTemplate_parts (Prod.ext page rfl)
      refine ⟨spelled, closed, ?_⟩
      intro tag asset member
      obtain ⟨inlining, among, rfl⟩ := mem_of_embedded_mem_templateParts member
      obtain ⟨input, given, prepared⟩ := mem_of_mem_inlinings among
      exact ⟨input, .inl (List.mem_cons_of_mem _ given), prepared⟩
  | skeleton =>
    rw [strategy] at made
    obtain ⟨contents, filled, made⟩ := bind_eq_ok (Prod.mk.inj made).1
    have page := mapError_eq_ok made
    rw [filled]
    obtain ⟨style, script, app, styleText, scriptText, appText, ⟨styleSource, styled⟩,
      ⟨scriptSource, scripted⟩, appSource, run⟩ := contents_eq_ok strategy kinds filled
    obtain ⟨spelled, closed⟩ := fromContents_parts (by rw [styleText, Asset.kind_prepared, styled])
      (by rw [scriptText, Asset.kind_prepared, scripted])
      (by rw [appText, Asset.kind_prepared, run]) page
    refine ⟨spelled, closed, ?_⟩
    intro tag asset member
    simp only [Contents.parts, List.mem_cons, reduceCtorEq, Part.embedded.injEq, List.not_mem_nil,
      or_false, false_or] at member
    rcases member with ⟨_, rfl⟩ | ⟨_, rfl⟩ | ⟨_, rfl⟩
    · exact ⟨style, styleSource, styleText⟩
    · exact ⟨script, scriptSource, scriptText⟩
    · exact ⟨app, appSource, appText⟩

/-- No input of a bundle ends the element it is put into. The page is the row of its parts, every text in it
is one that was prepared first, and behind each text the first closing tag of its element is the one of the
page. -/
theorem draft_closedByPage {bundle : Bundle} {config : Config} {machine after : Machine} {draft : Draft}
    (drafted : (bundle.draft config : StateM Machine (Except Failure Draft)).run machine =
      (.ok draft, after)) :
    ∃ inputs, machine.inputs (bundle.directory config.root) bundle.inputs = .ok inputs ∧
      let parts := bundle.parts (bundle.minifies config.minify) inputs
      draft.html.toList = spelling parts ∧
      (∀ tag asset, .embedded tag asset ∈ parts → ∃ source, IsSource inputs source ∧
        asset = source.prepared (bundle.minifies config.minify)) ∧
      ClosedByPage parts := by
  obtain ⟨history, spec⟩ := run_draft bundle config machine
  rw [spec, Prod.mk.injEq] at drafted
  obtain ⟨made, _⟩ := drafted
  obtain ⟨inputs, read, page, _⟩ := Machine.draft_eq_ok made
  obtain ⟨spelled, closed, prepared⟩ :=
    assemble_parts (Machine.kinds_of_inputs read) (Prod.ext page rfl)
  exact ⟨inputs, read, spelled, prepared, closed.closedByPage⟩

/-- A script in which a closing tag is only formed when a comment is taken out of it. -/
theorem draft_closedByPage_comment_removed :
    let script := "x='</scr/**/ipt>'"
    let machine := Machine.start ⟨[("t.html", .file "S".toUTF8), ("a.js", .file script.toUTF8)]⟩ []
    let bundle : Bundle := { blank with
      minify := some true
      template := some ⟨"t.html"⟩
      rules := [⟨.script, "S", ⟨"a.js"⟩⟩] }
    containsFolded (closingTag "script") script.toList = false ∧
      containsFolded (closingTag "script") (Minify.shortForm .script script).toList = true ∧
      ∃ draft after, (bundle.draft .standard : StateM Machine (Except Failure Draft)).run machine =
          (.ok draft, after) ∧
        draft.html = "<script>\nx='<\\/script>'\n</script>" ∧
        ∃ inputs, draft.html.toList = spelling (bundle.parts true inputs) ∧
          ClosedByPage (bundle.parts true inputs) := by
  intro script machine bundle
  have page : (machine.draft bundle .standard).toOption.map Draft.html =
      some "<script>\nx='<\\/script>'\n</script>" := by
    decide +kernel
  obtain ⟨history, spec⟩ := run_draft bundle .standard machine
  cases made : machine.draft bundle .standard with
  | error failure =>
    rw [made] at page
    cases page
  | ok draft =>
    rw [made] at page spec
    obtain ⟨inputs, _, spelled, _, closed⟩ := draft_closedByPage spec
    exact ⟨by decide +kernel, by decide +kernel, draft, _, spec, Option.some.inj page, inputs, spelled,
      closed⟩

end Bundle

end PageInliner
