import BridgingHeader.CommandLine.Grammar
import BridgingHeader.Config.Basic
import BridgingHeader.Generation

/-!
# Command line arguments

There are two commands, each with words and options of its own. The options on what is told may
stand before the command and after it. Those after it win where they differ.
-/

namespace BridgingHeader.CommandLine

/-- What a command line asks for. -/
inductive Request where
  | generate (options : GenerateOptions) (tools : ToolSettings)
  | patch (options : PatchOptions)

/-- A command line that can be carried out. -/
structure Arguments where
  verbosity : Verbosity
  color : ColorChoice
  request : Request

/-- Paths must not be empty. -/
def acceptsPath (text : String) : Bool := text ≠ ""

/-- The value is a choice of colours. -/
def acceptsColor (text : String) : Bool := (ColorChoice.parse text).isOk

/-- The options on what is told. -/
def generalOptions : List OptionSpec :=
  [{ name := "verbose", letter := some 'v' }, { name := "quiet", letter := some 'q' },
   { name := "color", takesValue := true, accepts := acceptsColor }, { name := "no-color" }]

/-- The option that says where to put the result. -/
def outputOption : OptionSpec :=
  { name := "output", letter := some 'o', takesValue := true, accepts := acceptsPath }

/-- What may stand before a command. -/
def rootGrammar : Grammar where
  options := generalOptions
  commands := ["generate", "patch", "help"]
  hasVersion := true

/-- The options that name tools, and the environment variables that stand in for them. -/
def toolOptions : List (String × String) :=
  [("xcodebuild", "BRIDGECRAFT_XCODEBUILD"), ("clang", "BRIDGECRAFT_CLANG"),
   ("sourcekitten", "BRIDGECRAFT_SOURCEKITTEN")]

/-- What may stand after `generate`. -/
def generateGrammar : Grammar where
  options := generalOptions ++
    [{ name := "assume-nonnull" }, { name := "sdk", takesValue := true },
     { name := "destination", takesValue := true }, outputOption] ++
    toolOptions.map fun (name, _) => { name, takesValue := true, accepts := acceptsPath }
  words := [acceptsPath, fun _ => true]
  keepsRest := true

/-- What may stand after `patch`. -/
def patchGrammar : Grammar where
  options := generalOptions ++ [outputOption]
  words := [acceptsPath, fun _ => true, acceptsPath]

/-- The tool that an option or the environment names. The environment must not name an empty path.
-/
def toolPath (environment : String → Option String) (m : Matches) (option : String × String) :
    Except Refusal (Option Path) :=
  match m.value? option.1, environment option.2 with
  | some path, _ => return some ⟨path⟩
  | none, some path => if acceptsPath path then return some ⟨path⟩ else throw .invalid
  | none, none => return none

/-- The request of a `generate` command. Settings that it leaves open are taken from a configuration
later. -/
def generateRequest (environment : String → Option String) (m : Matches) :
    Except Refusal Request := do
  let tools ← toolOptions.mapM (toolPath environment m)
  let tool (i : Nat) := (tools[i]?).join
  match m.words with
  | [project, target] =>
    return .generate
      { project := ⟨project⟩
        target
        assumeNonnull := m.has "assume-nonnull"
        dryRun := { sdk := m.value? "sdk", destination := m.value? "destination", extra := m.rest }
        output := (m.value? "output").map Path.mk }
      { xcodebuild := tool 0, clang := tool 1, sourcekitten := tool 2 }
  | _ => throw .invalid

/-- The request of a `patch` command. -/
def patchRequest (m : Matches) : Except Refusal Request :=
  match m.words with
  | [project, target, source] =>
    return .patch
      { project := ⟨project⟩, target, source := ⟨source⟩
        output := (m.value? "output").map Path.mk }
  | _ => throw .invalid

/-- Telling more and telling less cannot be asked for in one place. -/
def consistent (m : Matches) : Bool := !(m.has "verbose" && m.has "quiet")

/-- The choice of colours that was made in one place, if any. -/
def colorIn (m : Matches) : Option ColorChoice :=
  (m.value? "color").bind fun text => (ColorChoice.parse text).toOption

/-- What is asked for when help is asked for by a command with some words. -/
def helpOn : List String → Refusal
  | [] => .help
  | [command] => if command ∈ rootGrammar.commands then .help else .invalid
  | _ => .invalid

/-- Reads a command line. The environment stands in for options that are not given. -/
def parse (environment : String → Option String) (arguments : List String) :
    Except Refusal Arguments := do
  match ← scan rootGrammar none {} arguments with
  | (_, none) => throw .invalid
  | (_, some ("help", rest)) => throw (helpOn rest)
  | (before, some (command, rest)) =>
    let grammar := if command = "generate" then generateGrammar else patchGrammar
    let after ← read grammar rest
    let request ← if command = "generate" then generateRequest environment after
      else patchRequest after
    let before ← before.settle
    if !consistent before ∨ !consistent after then throw .invalid
    let has (name : String) := before.has name || after.has name
    return {
      verbosity := .ofFlags (has "quiet") (has "verbose")
      color := if has "no-color" then .never
        else ((colorIn after).or (colorIn before)).getD .auto
      request }

end BridgingHeader.CommandLine
