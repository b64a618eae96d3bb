import BridgingHeader.CommandLine.Arguments
import BridgingHeader.Config.Files
import BridgingHeader.Digest.Sha256

/-!
# Commands

Carrying out a command line prints what it has to say and gives an exit code.
-/

namespace BridgingHeader.CommandLine

/-- How a command line ended. -/
inductive Exit where
  /-- Help was shown, because it was asked for or because the arguments were refused. -/
  | usage (code : Nat)
  | finished (code : Nat)
  deriving DecidableEq, Repr

/-- The exit code. -/
def Exit.code : Exit → Nat
  | .usage code => code
  | .finished code => code

/-- The lines of the help text. -/
def helpLines : List String :=
  ["bridgecraft - generate the Swift interface of an Objective-C bridging header",
   "",
   "Usage: bridgecraft [OPTIONS] generate [OPTIONS] <PROJECT> <TARGET> [-- <EXTRA>...]",
   "       bridgecraft [OPTIONS] patch [OPTIONS] <PROJECT> <TARGET> <SOURCE>",
   "",
   "Options:",
   "  -v, --verbose                Tell more",
   "  -q, --quiet                  Print errors only",
   "      --color <WHEN>           Color status lines: auto, always or never",
   "      --no-color               Never color status lines",
   "  -o, --output <OUTPUT>        Where to put the result",
   "  -h, --help                   Print help",
   "  -V, --version                Print version",
   "",
   "Options of generate:",
   "      --assume-nonnull         Take declarations as nonnull by default",
   "      --sdk <SDK>              SDK for the dry-run build",
   "      --destination <DEST>     Destination for the dry-run build",
   "      --xcodebuild <PATH>      Build tool to use",
   "      --clang <PATH>           Preprocessor to use",
   "      --sourcekitten <PATH>    Interface service to use"]

/-- The help text. -/
def help : String := String.join (helpLines.map (· ++ "\n"))

/-- The version text. -/
def version : String := "bridgecraft 0.1.0\n"

variable {m : Type → Type} [Monad m] [Host m]

/-- The tool in effect, where it is found. -/
def toolInEffect (named : Option Path) (configured : Path) : m Path :=
  Files.resolveTool (named.getD configured)

/-- The options in effect: those of the command line, and for what they leave open those of the
configuration. -/
def optionsInEffect (options : GenerateOptions) (config : Config) : GenerateOptions :=
  { options with
    assumeNonnull := options.assumeNonnull || config.assumeNonnull
    umbrella := config.umbrellaHeader
    dryRun :=
      { options.dryRun with
        sdk := options.dryRun.sdk.or config.build.sdk
        destination := options.dryRun.destination.or config.build.destination
        legacyBuildSystem := config.legacyBuildSystem } }

/-- Generates an interface with the tools and options in effect. -/
def generate (shell : Shell) (options : GenerateOptions) (tools : ToolSettings) : Work m Unit := do
  let config ← (Config.loadDefault : m Config)
  let buildTool ← (toolInEffect tools.xcodebuild config.xcodebuild : m Path)
  let preprocessor ← (toolInEffect tools.clang config.clang : m Path)
  let service ← (toolInEffect tools.sourcekitten config.sourcekitten : m Path)
  let pipeline : Pipeline m := { shell, buildTool, preprocessor, service := .ofTool service }
  pipeline.generate Digest.sha256 (optionsInEffect options config)

/-- Patches a project and tells what was added. -/
def patch (shell : Shell) (options : PatchOptions) : Work m Unit := do
  let result ← Project.patch Digest.sha256 options
  ExceptT.lift (shell.tell .added
    s!"{result.file.path} to target `{options.target}` of {result.project.text}" : m Unit)

/-- Ends some work: a report is printed and makes for the exit code that is given. -/
def conclude (failureCode : Nat) (work : Work m Unit) : m Exit := do
  match ← work.run with
  | .ok () => return .finished 0
  | .error report =>
    Host.printError s!"error: {report.message}\n"
    return .finished failureCode

/-- Carries out a request. -/
def perform (arguments : Arguments) : m Exit := do
  let shell := Shell.ofChoices arguments.verbosity arguments.color (← Host.errorIsTerminal)
  match arguments.request with
  | .generate options tools => conclude 2 (generate shell options tools)
  | .patch options => conclude 1 (patch shell options)

/-- Shows why nothing is carried out. -/
def refuse : Refusal → m Exit
  | .help => do
    Host.printOut help
    return .usage 0
  | .version => do
    Host.printOut version
    return .finished 0
  | .invalid => do
    Host.printError help
    return .usage 2

/-- The environment variables that stand in for options. -/
def toolVariables : m (List (String × Option String)) :=
  toolOptions.mapM fun (_, name) => do return (name, ← Host.environment name)

/-- Carries out a command line. -/
def run (arguments : List String) : m Exit := do
  let values ← toolVariables
  match parse (fun name => (values.lookup name).join) arguments with
  | .ok arguments => perform arguments
  | .error refusal => refuse refusal

end BridgingHeader.CommandLine
