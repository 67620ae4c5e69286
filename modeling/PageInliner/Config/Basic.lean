import PageInliner.Asset

/-!
Configurations: the bundles that can be built and the settings they share. A bundle is one page, made
from a template with markers in it or from the built-in page.
-/

set_option autoImplicit false

namespace PageInliner

/-- How the page of a bundle comes about. -/
inductive Strategy where
  /-- Markers in a template give way to assets. -/
  | markers
  /-- The built-in page is filled. -/
  | skeleton
  deriving Repr, DecidableEq, Inhabited

namespace Strategy

/-- The word for the strategy in configurations and listings. -/
def name : Strategy → String
  | markers => "markers"
  | skeleton => "skeleton"

/-- The strategy a word stands for. -/
def ofName? : String → Option Strategy
  | "markers" => some markers
  | "skeleton" => some skeleton
  | _ => none

theorem ofName?_name (strategy : Strategy) : ofName? strategy.name = some strategy := by
  cases strategy <;> rfl

end Strategy

/-- A marker in a template, and the asset that takes its place. -/
structure MarkerRule where
  kind : Asset.Kind
  marker : String
  path : Path
  deriving Repr, DecidableEq

/-- The file a rule asks for. -/
def MarkerRule.source (rule : MarkerRule) : Asset.Source :=
  ⟨rule.kind, rule.path⟩

/-- One page that can be built. Template and rules belong to the markers strategy; script, style, app
and title to the skeleton. -/
structure Bundle where
  name : String
  strategy : Strategy
  /-- The directory of the inputs, seen from the root of the configuration. -/
  root : Path
  output : Path
  /-- Overrides the setting of the configuration. -/
  minify : Option Bool
  template : Option Path
  rules : List MarkerRule
  script : Option Path
  style : Option Path
  app : Option Path
  title : Option String
  deriving Repr, DecidableEq

namespace Bundle

/-- A bundle of which nothing is said. -/
def blank : Bundle where
  name := ""
  strategy := .markers
  root := ⟨"."⟩
  output := .empty
  minify := none
  template := none
  rules := []
  script := none
  style := none
  app := none
  title := none

/-- The page of the interpreter. -/
def demo : Bundle :=
  { blank with
    name := "demo"
    strategy := .skeleton
    output := ⟨"lxclua_standalone.html"⟩
    script := some ⟨"lxclua.js"⟩ }

/-- The page of the project. -/
def site : Bundle :=
  { blank with
    name := "site"
    root := ⟨"website/src"⟩
    output := ⟨"lxclua_official_site.html"⟩
    template := some ⟨"index.html"⟩
    rules := [
      ⟨.style, "<link rel=\"stylesheet\" href=\"style.css\">", ⟨"style.css"⟩⟩,
      ⟨.script, "<script src=\"script.js\"></script>", ⟨"script.js"⟩⟩] }

/-- The bundle is minified: what it says itself, else what the configuration says. -/
def minifies (bundle : Bundle) (otherwise : Bool) : Bool :=
  bundle.minify.getD otherwise

/-- The files the bundle is made of: the template and then the file of each rule, or whatever there is
of style, script and app, in that order. -/
def inputs (bundle : Bundle) : List Asset.Source :=
  match bundle.strategy with
  | .markers =>
    (bundle.template.map (Asset.Source.mk .markup)).toList ++ bundle.rules.map MarkerRule.source
  | .skeleton =>
    (bundle.style.map (Asset.Source.mk .style)).toList ++
      (bundle.script.map (Asset.Source.mk .script)).toList ++
      (bundle.app.map (Asset.Source.mk .script)).toList

/-- The directory the inputs are looked for in. -/
def directory (bundle : Bundle) (base : Path) : Path :=
  base.join bundle.root

/-- The file the page is written to. -/
def destination (bundle : Bundle) (base : Path) : Path :=
  base.join bundle.output

end Bundle

/-- Everything a run of the program is told by its configuration. -/
structure Config where
  /-- The file the configuration was read from. -/
  configPath : Option Path
  /-- The directory all paths of the configuration are seen from. -/
  root : Path
  /-- A marker that is not in its template is an error. -/
  strictMarkers : Bool
  minify : Bool
  bundles : List Bundle
  deriving Repr, DecidableEq

namespace Config

/-- The configuration of those who have none. -/
def standard : Config where
  configPath := none
  root := .empty
  strictMarkers := true
  minify := false
  bundles := [.demo, .site]

/-- The name a configuration file has if none is given. -/
def fileName : String := "monohtml.toml"

end Config

end PageInliner
