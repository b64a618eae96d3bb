import BridgingHeader.Files

/-!
# Temporaries

Paths are tracked before anything is made there, so that whatever is made can be removed in the end.
-/

namespace BridgingHeader

/-- The paths that a run has to remove. -/
structure Temporaries where
  paths : List Path := []
  deriving DecidableEq, Repr

namespace Temporaries

variable {m : Type → Type} {α : Type} [Monad m] [Host m]

/-- With one more path to remove. -/
def track (t : Temporaries) (path : Path) : Temporaries := ⟨t.paths ++ [path]⟩

/-- Removes what is at a path, if that is possible. -/
def removeQuietly (path : Path) : m Unit := do
  let _ ← (Files.removeIfPresent path).run

/-- Removes what is at all paths, the last one first. Nothing is left to remove. -/
def cleanUp (t : Temporaries) : m Temporaries := do
  t.paths.reverse.forM removeQuietly
  return {}

/-- Gives up the paths without removing anything. -/
def keep (t : Temporaries) : List Path × Temporaries := (t.paths, {})

/-- Work that tracks paths; they stay tracked when it ends with a report. -/
abbrev Tracking (m : Type → Type) (α : Type) := ExceptT Report (StateT Temporaries m) α

/-- Tracks a path from here on. -/
def Tracking.track (path : Path) : Tracking m Unit :=
  modifyThe Temporaries (·.track path)

/-- Work that tracks nothing. -/
def Tracking.ofWork (work : Work m α) : Tracking m α :=
  ExceptT.mk (StateT.lift work.run)

/-- Removes all tracked paths in the end. -/
def cleaningUp (work : Tracking m α) : Work m α := ExceptT.mk do
  let (result, tracked) ← work.run.run {}
  let _ ← tracked.cleanUp
  return result

/-- Removes all tracked paths unless the work succeeds. -/
def cleaningUpOnFailure (work : Tracking m α) : Work m α := ExceptT.mk do
  let (result, tracked) ← work.run.run {}
  match result with
  | .ok value => return .ok value
  | .error report => do
    let _ ← tracked.cleanUp
    return .error report

end Temporaries

end BridgingHeader
