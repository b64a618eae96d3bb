import BridgingHeader.Temporaries
import BridgingHeader.Project.Storage

/-!
# Patching projects

Patching makes a source file part of a target. It works on the project itself or on a clone of it,
and a clone that it made goes away again if the patch fails.
-/

namespace BridgingHeader

/-- What to patch. -/
structure PatchOptions where
  project : Path
  target : String
  source : Path
  /-- Where to put the patched project, if not where it is. -/
  output : Option Path := none
  deriving DecidableEq, Repr

/-- A patch that was made. -/
structure PatchResult where
  project : Path
  file : FileReference
  added : Project.AddedSource
  deriving DecidableEq, Repr

namespace Project

variable {m : Type → Type} [Monad m] [Host m]

/-- What was being attempted when a source could not be added. If the target was not found, the
targets that there are are shown. -/
def additionContext (p : Project) (file : FileReference) : Failure → String
  | .targetNotFound _ =>
    let targets := if p.targetNames = [] then "(none)" else ", ".intercalate p.targetNames
    s!"cannot add {file.path} to project\navailable targets: {targets}"
  | _ => s!"cannot add {file.path} to project"

/-- Adds a file to a target of the project in one bundle, and writes the result into another or the
same. Nothing is written unless the addition succeeds. -/
def registerSource (digest : Digest) (bundle : Path) (target : String) (file : FileReference)
    (output : Path) : Work m AddedSource := do
  let project ← (load bundle).toWork.within s!"cannot load project at {bundle.text}"
  let (result, project) := (addSource digest target file).run.run project
  match result with
  | .error failure =>
    throw ((Report.ofFailure failure).within (additionContext project file failure))
  | .ok added =>
    let _ ← (save project output).toWork.within s!"cannot save project to {output.text}"
    return added

/-- Copies a bundle, in place of whatever was at the target. -/
def clone (source target : Path) : Work m Unit :=
  (Task.toWork do
    Files.removeIfPresent target
    Files.copyAll source target).within
    s!"cannot clone project at {source.text} to {target.text}"

/-- The reference to a source of a project, both followed from the working directory. -/
def referenceTo (project source : Path) : m FileReference := do
  return .forSource (← Files.absolute project) (← Files.absolute source)

/-- Two paths lead to the same place, or are the same if they lead nowhere. -/
def samePlace (p q : Path) : m Bool := do
  return (← Files.normalize p).equivalent (← Files.normalize q)

/-- Makes a source file part of a target. -/
def patch (digest : Digest) (options : PatchOptions) : Work m PatchResult :=
  Temporaries.cleaningUpOnFailure do
    let output := options.output.getD options.project
    unless ← Temporaries.Tracking.ofWork (samePlace output options.project : m Bool) do
      Temporaries.Tracking.track output
      Temporaries.Tracking.ofWork (clone options.project output)
    Temporaries.Tracking.ofWork do
      let file ← (referenceTo output options.source : m _)
      let added ← registerSource digest output options.target file output
      return { project := output, file, added }

end Project

end BridgingHeader
