import BridgingHeader.Failure
import BridgingHeader.Text.Blank

/-!
# Commands

A command names a program, its arguments, and the directory in which to run it. Running one gives
what it printed and how it ended.
-/

namespace BridgingHeader

/-- A program with its arguments. Without a directory it runs in the current one. -/
structure Command where
  program : Path
  arguments : List String := []
  directory : Option Path := none
  deriving DecidableEq, Repr

/-- What a command printed, and its exit code unless it was killed. -/
structure Outcome where
  code : Option Int
  stdout : ByteArray
  stderr : ByteArray

/-- A command on one line. -/
def Command.display (c : Command) : String := " ".intercalate (c.program.text :: c.arguments)

/-- An outcome is a success if the exit code is zero. -/
def Outcome.succeeded (outcome : Outcome) : Bool := outcome.code = some 0

end BridgingHeader
