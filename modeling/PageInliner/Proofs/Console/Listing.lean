import Mathlib.Algebra.Order.BigOperators.Group.List
import Mathlib.Algebra.Order.Group.Nat
import PageInliner.Build
import PageInliner.Proofs.Console.Sequences

/-!
# A listing with colours and without

The width of a column counts colours as characters, so the eight characters that make a name bold are taken from
the room for names. Once the colours are deleted from a listing, it is the one without colours only if no name
would have left any of that room free.
-/

set_option autoImplicit false

namespace PageInliner

open Ansi

/-- No text that a listing shows holds an ESC. -/
structure Config.Plain (config : Config) : Prop where
  configPath : ∀ path ∈ config.configPath, Ansi.Plain path.text
  root : Ansi.Plain config.root.text
  name : ∀ bundle ∈ config.bundles, Ansi.Plain bundle.name
  output : ∀ bundle ∈ config.bundles, Ansi.Plain bundle.output.text
  inputs : ∀ bundle ∈ config.bundles, ∀ source ∈ bundle.inputs, Ansi.Plain source.path.text

instance (config : Config) : Decidable config.Plain :=
  decidable_of_iff ((∀ path ∈ config.configPath, Ansi.Plain path.text) ∧ Ansi.Plain config.root.text ∧
      (∀ bundle ∈ config.bundles, Ansi.Plain bundle.name) ∧
      (∀ bundle ∈ config.bundles, Ansi.Plain bundle.output.text) ∧
      ∀ bundle ∈ config.bundles, ∀ source ∈ bundle.inputs, Ansi.Plain source.path.text)
    ⟨fun ⟨configPath, root, name, output, inputs⟩ => ⟨configPath, root, name, output, inputs⟩,
      fun plain => ⟨plain.configPath, plain.root, plain.name, plain.output, plain.inputs⟩⟩

theorem Bundle.plain_destination {bundle : Bundle} {root : Path} (base : Ansi.Plain root.text)
    (output : Ansi.Plain bundle.output.text) : Ansi.Plain (bundle.destination root).text := by
  rw [Bundle.destination, Path.join]
  split
  · exact output
  · split
    · exact plain_append_iff.mpr ⟨base, output⟩
    · exact plain_append_iff.mpr ⟨plain_append_iff.mpr ⟨base, by decide⟩, output⟩

namespace Display

/-- What a listing shows of a bundle behind its name. -/
def details (bundle : Bundle) (root : Path) : String :=
  " " ++ padded 9 bundle.strategy.name ++ " " ++
    ", ".intercalate ((bundle.inputs.map Asset.Source.path).map Path.text) ++ " -> " ++
    (bundle.destination root).text

/-- The line of a bundle without colours, if names have a column of some width. -/
def bundleLine (width : Nat) (root : Path) (bundle : Bundle) : String :=
  padded width bundle.name ++ details bundle root ++ "\n"

/-- Where the bundles of a listing come from. -/
def origin (config : Config) : String :=
  (config.configPath.map Path.text).getD "no config file, using built-in bundles"

/-- A listing without colours, if names have a column of some width. -/
def plainListing (width : Nat) (config : Config) : String :=
  tag false "config" ++ " " ++ origin config ++ "\n" ++ .join (config.bundles.map (bundleLine width config.root))

theorem out_showAll (display : Display) (events : List Event) :
    (display.showAll events).out = .join (events.map fun event => (display.shown event).out) := by
  suffices started : ∀ before : Output,
      (events.foldl (fun before event => before ++ display.shown event) before).out =
        before.out ++ .join (events.map fun event => (display.shown event).out) by
    rw [showAll, started, Output.empty, String.empty_append]
  induction events with
  | nil => simp
  | cons event events ih =>
    intro before
    rw [List.foldl_cons, ih, List.map_cons, String.join_cons, ← String.append_assoc]
    rfl

/-- Eight of the characters that the width counts are not seen. -/
theorem shows_padded_bold {name : String} (plain : Ansi.Plain name) (width : Nat) :
    Shows (padded (width + 8) (bold name)) (padded width name) := by
  have length : (bold name).length = name.length + 8 := by
    have opening : (sequence 1).length = 4 := by decide
    have closing : (sequence 0).length = 4 := by decide
    simp only [bold, styled, String.length_append, opening, closing]
    omega
  have room : width + 8 - (bold name).length = width - name.length := by omega
  simp only [padded, room]
  exact (Shows.of_plain plain).bold.append (.of_plain (by simp [Ansi.Plain]))

theorem out_listed (display : Display) (bundle : Bundle) (root : Path) :
    (display.shown (.listed bundle.name bundle.strategy.name (bundle.inputs.map Asset.Source.path)
        (bundle.destination root))).out =
      padded 12 (if display.colored then bold bundle.name else bundle.name) ++ details bundle root ++ "\n" := by
  simp only [shown, Event.isDetail, Bool.false_and, Bool.false_eq_true, if_false, render, Output.line, listingLine,
    details, String.append_assoc]

theorem plain_details {config : Config} {bundle : Bundle} (plain : config.Plain) (member : bundle ∈ config.bundles) :
    Ansi.Plain (details bundle config.root) := by
  have strategy : Ansi.Plain (" " ++ padded 9 bundle.strategy.name ++ " ") := by
    cases bundle.strategy <;> decide
  have inputs : Ansi.Plain (", ".intercalate ((bundle.inputs.map Asset.Source.path).map Path.text)) := by
    apply plain_intercalate (by decide)
    simpa using plain.inputs bundle member
  have destination := Bundle.plain_destination plain.root (plain.output bundle member)
  simp only [details, plain_append_iff] at strategy ⊢
  exact ⟨⟨⟨strategy, inputs⟩, by decide⟩, destination⟩

theorem shows_bundleLine {config : Config} {bundle : Bundle} (plain : config.Plain)
    (member : bundle ∈ config.bundles) :
    Shows (padded 12 (bold bundle.name) ++ details bundle config.root ++ "\n") (bundleLine 4 config.root bundle) :=
  ((shows_padded_bold (plain.name bundle member) 4).append (.of_plain (plain_details plain member))).append
    (.of_plain (by decide))

theorem out_listing (display : Display) (config : Config) :
    (display.showAll config.listing).out =
      tag display.colored "config" ++ " " ++ origin config ++ "\n" ++
        .join (config.bundles.map fun bundle =>
          padded 12 (if display.colored then bold bundle.name else bundle.name) ++ details bundle config.root ++
            "\n") := by
  have first : (display.shown (.listingFrom config.configPath)).out =
      tag display.colored "config" ++ " " ++ origin config ++ "\n" := by
    unfold origin
    cases config.configPath <;> rfl
  rw [out_showAll, Config.listing, List.map_cons, String.join_cons, first, List.map_map]
  congr 2
  exact List.map_congr_left fun bundle _ => out_listed display bundle config.root

theorem shows_tag {name : String} (plain : Ansi.Plain name) : Shows (tag true name) (tag false name) := by
  have brackets : Ansi.Plain (tag false name) :=
    plain_append_iff.mpr ⟨plain_append_iff.mpr ⟨by decide, plain⟩, by decide⟩
  exact ((Shows.of_plain brackets).colored (sectionColor name)).bold

theorem plain_origin {config : Config} (plain : config.Plain) : Ansi.Plain (origin config) := by
  unfold origin
  cases from_ : config.configPath with
  | none => decide
  | some path => exact plain.configPath path from_

theorem shows_listing {config : Config} (plain : config.Plain) (verbose : Bool) :
    Shows (showAll ⟨true, verbose⟩ config.listing).out (plainListing 4 config) := by
  have heading : Shows (tag true "config") (tag false "config") := shows_tag (by decide)
  have lines := Shows.join fun bundle member => shows_bundleLine plain member
  rw [out_listing]
  exact (((heading.append (.of_plain (by decide))).append (.of_plain (plain_origin plain))).append
    (.of_plain (by decide))).append lines

theorem padded_of_le {width : Nat} {text : String} (wide : width ≤ text.length) : padded width text = text := by
  simp [padded, Nat.sub_eq_zero_of_le wide]

theorem length_padded (width : Nat) (text : String) : (padded width text).length = max width text.length := by
  simp only [padded, String.length_append, String.length_ofList, List.length_replicate]
  omega

theorem length_plainListing_lt {config : Config} {bundle : Bundle} (member : bundle ∈ config.bundles)
    (short : bundle.name.length < 12) : (plainListing 4 config).length < (plainListing 12 config).length := by
  have lines : ((config.bundles.map (bundleLine 4 config.root)).map String.length).sum <
      ((config.bundles.map (bundleLine 12 config.root)).map String.length).sum := by
    simp only [List.map_map, Function.comp_def, bundleLine, String.length_append, length_padded]
    apply List.sum_lt_sum
    · intro other _
      omega
    · exact ⟨bundle, member, by omega⟩
  simp only [plainListing, String.length_append, String.length_join]
  omega

theorem plainListing_eq_iff (config : Config) :
    plainListing 4 config = plainListing 12 config ↔ ∀ bundle ∈ config.bundles, 12 ≤ bundle.name.length := by
  constructor
  · intro same bundle member
    by_contra short
    have shorter := length_plainListing_lt member (Nat.lt_of_not_le short)
    rw [same] at shorter
    exact shorter.false
  · intro wide
    have same : config.bundles.map (bundleLine 4 config.root) = config.bundles.map (bundleLine 12 config.root) := by
      apply List.map_congr_left
      intro bundle member
      have enough := wide bundle member
      rw [bundleLine, bundleLine, padded_of_le enough, padded_of_le (by omega)]
    rw [plainListing, plainListing, same]

/-- Without its colours a listing has room for four characters where it has room for twelve if it is shown without
colours from the start, so the two are the same only if every name takes up all that room. -/
theorem unstyled_listing (config : Config) (plain : config.Plain) (verbose : Bool) :
    unstyled (showAll ⟨true, verbose⟩ config.listing).out.toList = (plainListing 4 config).toList ∧
      (showAll ⟨false, verbose⟩ config.listing).out = plainListing 12 config ∧
      (unstyled (showAll ⟨true, verbose⟩ config.listing).out.toList =
          (showAll ⟨false, verbose⟩ config.listing).out.toList ↔
        ∀ bundle ∈ config.bundles, 12 ≤ bundle.name.length) := by
  have withColors := (shows_listing plain verbose).unstyled_eq
  have without : (showAll ⟨false, verbose⟩ config.listing).out = plainListing 12 config := out_listing _ config
  refine ⟨withColors, without, ?_⟩
  rw [withColors, without, String.toList_inj]
  exact plainListing_eq_iff config

theorem plain_standard : Config.standard.Plain := by decide

theorem unstyled_listing_standard :
    Config.standard.Plain ∧
      unstyled (showAll ⟨true, false⟩ Config.standard.listing).out.toList ≠
        (showAll ⟨false, false⟩ Config.standard.listing).out.toList :=
  ⟨plain_standard, mt (unstyled_listing .standard plain_standard false).2.2.mp (by decide)⟩

/-- A configuration of one bundle with a short name. -/
def shortNamed : Config :=
  { Config.standard with
    bundles := [{ Bundle.blank with
      name := "page"
      strategy := .skeleton
      output := ⟨"o.html"⟩
      script := some ⟨"a.js"⟩ }] }

theorem plain_shortNamed : shortNamed.Plain := by decide

theorem listing_narrowed_by_colors :
    shortNamed.Plain ∧
      (showAll ⟨false, false⟩ shortNamed.listing).out =
        "[config] no config file, using built-in bundles\npage         skeleton  a.js -> o.html\n" ∧
      unstyled (showAll ⟨true, false⟩ shortNamed.listing).out.toList =
        "[config] no config file, using built-in bundles\npage skeleton  a.js -> o.html\n".toList ∧
      unstyled (showAll ⟨true, false⟩ shortNamed.listing).out.toList ≠
        (showAll ⟨false, false⟩ shortNamed.listing).out.toList := by
  have without : (showAll ⟨false, false⟩ shortNamed.listing).out =
      "[config] no config file, using built-in bundles\npage         skeleton  a.js -> o.html\n" := by
    decide +kernel
  have withColors : unstyled (showAll ⟨true, false⟩ shortNamed.listing).out.toList =
      "[config] no config file, using built-in bundles\npage skeleton  a.js -> o.html\n".toList := by
    rw [(shows_listing plain_shortNamed false).unstyled_eq]
    decide +kernel
  refine ⟨plain_shortNamed, without, withColors, ?_⟩
  rw [without, withColors]
  decide

end Display

end PageInliner
