import BridgingHeader.Execution
import BridgingHeader.ImportUnit

/-!
# The preprocessor

The preprocessor flattens an import unit into one header. It keeps comments, which the interface
shows.
-/

namespace BridgingHeader.Preprocessor

/-- The arguments of every run. -/
def fixedArguments : List String := ["-x", "objective-c", "-C", "-fmodules", "-fimplicit-modules"]

/-- The command that flattens one file into another. -/
def command (tool input output : Path) (flags : List String) : Command where
  program := tool
  arguments := fixedArguments ++ ["-E", input.text, "-o", output.text] ++ flags

variable {m : Type → Type} [Monad m] [Host m]

/-- Flattens one file into another. -/
def run (tool input output : Path) (flags : List String) : Task m Unit := do
  let _ ← (command tool input output flags).executeChecked

/-- Puts a header between the marks that make its declarations nonnull by default. -/
def assumeNonnull (header : Path) (umbrella : String) : Task m Unit := do
  let source ← Files.readText header
  Files.writeText header (ImportUnit.assumeNonnull source umbrella)

end BridgingHeader.Preprocessor
