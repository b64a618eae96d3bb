import BridgingHeader.Files
import BridgingHeader.Project.Edit

/-!
# Projects on disk

A project bundle is a directory that holds the descriptor.
-/

namespace BridgingHeader.Project

variable {m : Type → Type} [Monad m] [Host m]

/-- The path of the descriptor of a bundle. -/
def descriptorOf (bundle : Path) : Path := bundle.join descriptorName

/-- Reads the project of a bundle. -/
def load (bundle : Path) : Task m Project := do
  let path := descriptorOf bundle
  let text ← Files.readText path
  match parse text with
  | .ok project => return project
  | .error defect => throw (.invalidProject path defect)

/-- Writes a project into a bundle, which is made if necessary, and gives the path of the
descriptor. -/
def save (p : Project) (bundle : Path) : Task m Path := do
  Files.ensureDirectory bundle
  let path := descriptorOf bundle
  Files.writeText path p.print
  return path

end BridgingHeader.Project
