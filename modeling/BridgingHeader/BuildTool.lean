import BridgingHeader.BuildSettings
import BridgingHeader.Execution
import BridgingHeader.Project.Storage

/-!
# The build tool

The build tool runs in the directory that holds the project. It is asked for its settings, and for a
dry run of a clean build.
-/

namespace BridgingHeader.BuildTool

/-- What a dry run overrides. -/
structure DryRunOptions where
  sdk : Option String := none
  destination : Option String := none
  /-- Choose the build system whose dry runs print compiler invocations. -/
  legacyBuildSystem : Bool := false
  /-- Further arguments, passed on as they are. -/
  extra : List String := []
  deriving DecidableEq, Repr

/-- The directory in which the tool works on a project. -/
def directoryFor (project : Path) : Option Path :=
  project.parent?.filter fun directory => directory.text ≠ ""

/-- The command that prints the build settings of a target. -/
def showSettings (tool project : Path) (target : String) : Command where
  program := tool
  arguments := ["-showBuildSettings", "-project", project.text, "-target", target]
  directory := directoryFor project

/-- A flag with its value, if there is one. -/
def flag (name : String) : Option String → List String
  | some value => [name, value]
  | none => []

/-- The command that prints what building a target would do. -/
def dryRun (tool project : Path) (target : String) (options : DryRunOptions) : Command where
  program := tool
  arguments := ["clean", "build", "-dry-run", "-project", project.text, "-target", target]
    ++ (if options.legacyBuildSystem then ["-UseModernBuildSystem=0"] else [])
    ++ flag "-sdk" options.sdk ++ flag "-destination" options.destination ++ options.extra
  directory := directoryFor project

variable {m : Type → Type} [Monad m] [Host m]

/-- A build setting of a target. The target is looked up in the project first, because the tool
tells an unknown target only by its exit code. -/
def readSetting (tool project : Path) (target key : String) : Task m String := do
  if ((← Project.load project).findTarget? target).isNone then throw (.targetNotFound target)
  let dump ← (showSettings tool project target).output
  MonadExcept.ofExcept (BuildSettings.find dump key)

/-- Everything that a successful dry run printed, the output before the errors. -/
def dryRunLog (tool project : Path) (target : String) (options : DryRunOptions) :
    Task m String := do
  let outcome ← (dryRun tool project target options).executeChecked
  return Text.Utf8.decodeLossy outcome.stdout ++ Text.Utf8.decodeLossy outcome.stderr

end BridgingHeader.BuildTool
