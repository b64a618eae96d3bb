import BridgingHeader.Command
import BridgingHeader.FileTree.Operations

/-!
# Hosts

A host offers what commands need from the system they run on: files, programs, the terminal, a
source of numbers and a clock. Whatever is written against this interface runs on a real system and
in a simulation alike.
-/

namespace BridgingHeader

/-- The services of a system. -/
class Host (m : Type → Type) where
  workingDirectory : m (Except Cause Path)
  environment : String → m (Option String)
  /-- The kind of what a path leads to when links are followed. -/
  kind : Path → m (Except Cause NodeKind)
  /-- The kind of what a path leads to when a link at its end is not followed. -/
  linkKind : Path → m (Except Cause NodeKind)
  /-- A path leads to a file that may be executed. -/
  isExecutable : Path → m Bool
  /-- The absolute path without links that leads to the same place. -/
  canonical : Path → m (Except Cause Path)
  readFile : Path → m (Except Cause ByteArray)
  writeFile : Path → ByteArray → m (Except Cause Unit)
  makeDirectory : Path → m (Except Cause Unit)
  copyFile : Path → Path → m (Except Cause Unit)
  removeFile : Path → m (Except Cause Unit)
  removeTree : Path → m (Except Cause Unit)
  moveFile : Path → Path → m (Except Cause Unit)
  /-- The names and kinds of what a directory holds. -/
  list : Path → m (Except Cause (List (String × NodeKind)))
  /-- Writes a new file under a name of the host's choice into a directory, and gives its absolute
  path. -/
  writeTemporary : Path → ByteArray → m (Except Cause Path)
  /-- Runs a command to its end. -/
  run : Command → m (Except Cause Outcome)
  printOut : String → m Unit
  printError : String → m Unit
  /-- The error stream is shown on a terminal. -/
  errorIsTerminal : m Bool
  /-- A number below a bound. -/
  random : Nat → m Nat
  /-- The time in milliseconds since some moment. -/
  clock : m Nat

end BridgingHeader
