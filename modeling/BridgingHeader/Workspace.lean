import BridgingHeader.Failure

/-!
# Workspaces

A run works beside the project, and a number in the names of what it makes there keeps runs apart.
-/

namespace BridgingHeader

/-- What a run makes beside the project. -/
structure Workspace where
  /-- The clone of the project. -/
  clone : Path
  /-- The unit that imports the bridging header. -/
  unit : Path
  /-- The preprocessed unit. -/
  header : Path
  deriving DecidableEq, Repr

namespace Workspace

/-- Numbers in names are below this. -/
def seedRange : Nat := 1000

/-- The workspace of a run on the project at an absolute path. -/
def ofProject (project : Path) (seed : Nat) : Except Report Workspace :=
  match project.stem? with
  | none => throw (.ofRemark s!"invalid project path {project.text}")
  | some stem =>
    let extension := (project.extension?.map ("." ++ ·)).getD ""
    let directory := project.parent?.getD ⟨"."⟩
    return {
      clone := directory.join ⟨s!"{stem}-{seed}{extension}"⟩
      unit := directory.join ⟨s!"Bridging-{seed}.m"⟩
      header := directory.join ⟨s!"Bridging-{seed}.h"⟩ }

end Workspace

end BridgingHeader
