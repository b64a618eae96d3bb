import BridgingHeader.Host
import BridgingHeader.Text.Utf8

/-!
# Working with files

These operations on a host give a failure that names the path at which they were refused.
-/

namespace BridgingHeader

/-- A computation on a host that may fail. -/
abbrev Task (m : Type → Type) (α : Type) := ExceptT Failure m α

/-- A computation on a host that may end with a report. -/
abbrev Work (m : Type → Type) (α : Type) := ExceptT Report m α

variable {m : Type → Type} {α : Type}

/-- A service of the host, whose cause is laid to a path. -/
def Task.at [Monad m] (path : Path) (service : m (Except Cause α)) : Task m α :=
  ExceptT.mk do return (← service).mapError (Failure.io path)

/-- A task as part of some work. -/
def Task.toWork [Monad m] (task : Task m α) : Work m α :=
  ExceptT.mk do return (← task.run).mapError Report.ofFailure

/-- Work that says what was being attempted when it ends with a report. -/
def Work.within [Monad m] (context : String) (work : Work m α) : Work m α :=
  ExceptT.mk do return (← work.run).mapError (·.within context)

namespace Files

variable [Monad m] [Host m]

/-- The home directory, unless it is not known. -/
def homeDirectory : m (Option Path) := do
  return ((← Host.environment "HOME").filter (· ≠ "")).map Path.mk

/-- A path leads to something. -/
def exist (path : Path) : m Bool := do return (← Host.kind path).isOk

/-- A path leads to a file. -/
def isFile (path : Path) : m Bool := do
  match ← Host.kind path with
  | .ok .file => return true
  | _ => return false

/-- A path leads to a directory. -/
def isDirectory (path : Path) : m Bool := do
  match ← Host.kind path with
  | .ok .directory => return true
  | _ => return false

/-- The path without links that leads to the same place, or the path itself if it leads nowhere. -/
def normalize (path : Path) : m Path := do
  match ← Host.canonical path with
  | .ok canonical => return canonical
  | .error _ => return path

/-- The path, followed from the working directory if it is relative. -/
def absolute (path : Path) : m Path := do
  if path.isAbsolute then return path
  match ← Host.workingDirectory with
  | .ok directory => return directory.join path
  | .error _ => return path

/-- Makes a directory; one that is already there will do. -/
def makeOne (path : Path) : m (Except Cause Unit) := do
  match ← Host.makeDirectory path with
  | .ok () => return .ok ()
  | .error cause => if ← isDirectory path then return .ok () else return .error cause

/-- Makes a directory and the directories that lead to it, through at most `depth` of its parents.
-/
def makeDirectories : (depth : Nat) → Path → m (Except Cause Unit)
  | 0, _ => return .error .noEntry
  | depth + 1, path => do
    if path.text = "" then return .ok ()
    match ← Host.makeDirectory path with
    | .ok () => return .ok ()
    | .error .noEntry =>
      match path.parent? with
      | none => return .error (.other "failed to create whole tree")
      | some parent =>
        match ← makeDirectories depth parent with
        | .ok () => makeOne path
        | .error cause => return .error cause
    | .error cause => if ← isDirectory path then return .ok () else return .error cause

/-- A path has no more parents than characters. -/
def makeAllDirectories (path : Path) : Task m Unit :=
  .at path (makeDirectories (path.text.length + 1) path)

/-- Makes sure that a path leads to something, which is a new directory if nothing was there. -/
def ensureDirectory (path : Path) : Task m Unit := do
  unless ← (exist path : m Bool) do makeAllDirectories path

/-- The text of a file. -/
def readText (path : Path) : Task m String := do
  let contents ← .at path (Host.readFile path)
  match String.fromUTF8? contents with
  | some text => return text
  | none => throw (.io path .invalidText)

/-- The parent of a path, unless that is the working directory. -/
def namedParent? (path : Path) : Option Path := path.parent?.filter fun parent => parent.text ≠ ""

/-- Makes sure that the parent of a path is there. -/
def ensureParent (path : Path) : Task m Unit :=
  match namedParent? path with
  | some parent => ensureDirectory parent
  | none => return ()

/-- Writes a text to a file, in a directory that is made if necessary. -/
def writeText (path : Path) (text : String) : Task m Unit := do
  ensureParent path
  .at path (Host.writeFile path text.toUTF8)

/-- Writes a text to a file by moving a complete one into its place. -/
def writeTextAtomically (path : Path) (text : String) : Task m Unit := do
  ensureParent path
  let directory := (namedParent? path).getD ⟨"."⟩
  let temporary ← .at directory (Host.writeTemporary directory text.toUTF8)
  match ← (Host.moveFile temporary path : m _) with
  | .ok () => return ()
  | .error cause =>
    let _ ← (Host.removeFile temporary : m _)
    throw (.io path cause)

/-- Removes what is at a path, without following a link; nothing there will do. -/
def removeIfPresent (path : Path) : Task m Unit := do
  match ← (Host.linkKind path : m _) with
  | .error .noEntry => return ()
  | .error cause => throw (.io path cause)
  | .ok .directory => .at path (Host.removeTree path)
  | .ok _ => .at path (Host.removeFile path)

/-- Copies a directory into the directory of a path that is relative to the target. That one is made
before the original is looked into, so that a tree that is copied into itself has its copy in it. No
path leads through more than `depth` directories. -/
def copyDirectory (target : Path) : (depth : Nat) → (directory relative : Path) → Task m Unit
  | 0, directory, _ => throw (.io directory .nameTooLong)
  | depth + 1, directory, relative => do
    makeAllDirectories (target.join relative)
    match ← (Host.list directory : m _) with
    | .error cause => throw (.io directory (.walking directory cause))
    | .ok items =>
      items.forM fun (name, kind) => do
        let entry := directory.join ⟨name⟩
        let inner := relative.join ⟨name⟩
        if kind = .directory then copyDirectory target depth entry inner
        else .at entry (Host.copyFile entry (target.join inner))

/-- Copies a file or a tree. Links to files are copied as files, and other links are refused. -/
def copyAll (source target : Path) : Task m Unit := do
  if ← (isFile source : m Bool) then
    .at source (Host.copyFile source target)
  else
    match ← (Host.linkKind source : m _) with
    | .error cause => throw (.io source (.walking source cause))
    | .ok .directory => copyDirectory target FileTree.pathLimit source ⟨""⟩
    | .ok _ =>
      match ← (Host.kind source : m _) with
      | .error cause => throw (.io source (.walking source cause))
      | .ok _ => .at source (Host.copyFile source (target.join ⟨""⟩))

end Files

end BridgingHeader
