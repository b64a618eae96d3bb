import BridgingHeader.Config.Basic
import BridgingHeader.Toml.Reader

/-!
# Reading configurations

A configuration file is a TOML document. Unknown keys are ignored, and a known key must have a value
of its type. The keys of a section may also be given as an array, in their order.
-/

namespace BridgingHeader.Config

/-- The sections and keys of a configuration, and the types of their values. -/
inductive Expectation where
  | section
  | string
  | boolean
  deriving DecidableEq, Repr

/-- A value that does not have the type of its key. -/
structure Mismatch where
  key : String
  expected : Expectation
  deriving DecidableEq, Repr

/-- The values of the named keys of a section. A date has none of them. -/
def sectionValues (name : String) (keys : List String) : Toml → Except Mismatch (List (Option Toml))
  | .table _ entries => .ok (keys.map fun key => entries.lookup key)
  | .array items => .ok ((List.range keys.length).map fun i => items[i]?)
  | .tables items => .ok ((List.range keys.length).map fun i => items[i]?.map (.table .header))
  | .date _ => .ok (keys.map fun _ => none)
  | _ => .error ⟨name, .section⟩

/-- The text of a value, if there is one. -/
def textOf (key : String) : Option Toml → Except Mismatch (Option String)
  | none => .ok none
  | some (.string text) => .ok (some text)
  | some _ => .error ⟨key, .string⟩

/-- The truth value of a value, if there is one. -/
def truthOf (key : String) : Option Toml → Except Mismatch (Option Bool)
  | none => .ok none
  | some (.boolean value) => .ok (some value)
  | some _ => .error ⟨key, .boolean⟩

/-- The values of the named keys of a section that may be missing. -/
def sectionOf (entries : Toml.Entries) (name : String) (keys : List String) :
    Except Mismatch (List (Option Toml)) :=
  match entries.lookup name with
  | some value => sectionValues name keys value
  | none => .ok (keys.map fun _ => none)

/-- The configuration that a document holds. -/
def ofEntries (entries : Toml.Entries) : Except Mismatch Config := do
  let tools ← sectionOf entries "tools" ["xcodebuild", "clang", "sourcekitten"]
  let build ← sectionOf entries "build" ["sdk", "destination", "legacy_build_system"]
  let generate ← sectionOf entries "generate" ["assume_nonnull", "umbrella_header"]
  let at? (values : List (Option Toml)) (i : Nat) := (values[i]?).join
  return {
    tools :=
      { xcodebuild := (← textOf "xcodebuild" (at? tools 0)).map Path.mk
        clang := (← textOf "clang" (at? tools 1)).map Path.mk
        sourcekitten := (← textOf "sourcekitten" (at? tools 2)).map Path.mk }
    build :=
      { sdk := ← textOf "sdk" (at? build 0)
        destination := ← textOf "destination" (at? build 1)
        legacyBuildSystem := ← truthOf "legacy_build_system" (at? build 2) }
    generate :=
      { assumeNonnull := ← truthOf "assume_nonnull" (at? generate 0)
        umbrellaHeader := ← textOf "umbrella_header" (at? generate 1) } }

/-- The wording of a mismatch. -/
def Mismatch.message (m : Mismatch) : String :=
  let expected := match m.expected with
    | .section => "a table"
    | .string => "a string"
    | .boolean => "a boolean"
  s!"invalid type for `{m.key}`, expected {expected}"

/-- Reads the text of a configuration file; an error is the reader's own wording. -/
def parse (text : String) : Except String Config :=
  match Toml.read text with
  | .ok entries => (ofEntries entries).mapError Mismatch.message
  | .error e => throw (Toml.readErrorMessage e)

end BridgingHeader.Config
