import BridgingHeader.FileTree.Resolve

/-!
# Operations on file trees

Every operation names its subject by a path and a working directory. It either gives the changed
tree, or a cause, and then the tree stays as it was except where removing a tree has begun.
-/

namespace BridgingHeader.FileTree

variable (t : FileTree) (directory : Place)

/-- The contents of a file with its permissions, if it may be read. -/
def openFile (path : Path) (otherwise : Cause) : Except Cause (Place × Permissions × ByteArray) := do
  let (place, found) ← t.find directory .target path
  if !found.permissions.readable then throw .permissionDenied
  match found with
  | .file permissions contents => return (place, permissions, contents)
  | _ => throw otherwise

/-- The contents of a file. -/
def read (path : Path) : Except Cause ByteArray :=
  return (← t.openFile directory path .isDirectory).2.2

/-- Where a file is to be written, and the permissions of the one that is already there. -/
def openOutput (path : Path) : Except Cause (Place × Option Permissions) := do
  match ← t.resolve directory .output path with
  | .present place (.file permissions _) =>
    if permissions.writable then return (place, some permissions) else throw .permissionDenied
  | .present _ _ => throw .isDirectory
  | .vacant place =>
    if t.isChangeable place then return (place, none) else throw .permissionDenied

/-- Writes a file. The permissions of one that is already there stay as they are. -/
def write (path : Path) (contents : ByteArray) : Except Cause FileTree := do
  let (place, permissions) ← t.openOutput directory path
  return t.set place (.file (permissions.getD .plain) contents)

/-- Copies a file with its permissions. A file copied onto itself ends up empty. -/
def copyFile (source target : Path) : Except Cause FileTree := do
  let (sourcePlace, permissions, contents) ← t.openFile directory source .notRegular
  let (place, _) ← t.openOutput directory target
  return t.set place (.file permissions (if place = sourcePlace then .empty else contents))

/-- Makes one directory, whose parent must be there. -/
def makeDirectory (path : Path) : Except Cause FileTree := do
  match ← t.locate directory path with
  | .present _ _ => throw .alreadyExists
  | .vacant place =>
    if t.isChangeable place then return t.set place empty else throw .permissionDenied

/-- The names and kinds of what a directory holds. -/
def list (path : Path) : Except Cause (List (String × NodeKind)) := do
  let (_, found) ← t.find directory .target path
  if !found.isDirectory then throw .notDirectory
  if !found.permissions.readable then throw .permissionDenied
  return found.children.map fun (name, child) => (name, child.kind)

/-- Removes a file or a link. -/
def removeFile (path : Path) : Except Cause FileTree := do
  match ← t.locate directory path, lastStep path with
  | .vacant _, _ => throw .noEntry
  | .present place found, .name slashed =>
    if slashed ∧ !found.isDirectory then throw .notDirectory
    if !slashed ∧ !t.isChangeable place then throw .permissionDenied
    if found.isDirectory then throw .isDirectory
    return t.remove place
  | _, _ => throw .isDirectory

/-- Removes an empty directory. -/
def removeDirectory (path : Path) : Except Cause FileTree := do
  match ← t.locate directory path, lastStep path with
  | _, .root => throw .busy
  | _, .current => throw .invalidArgument
  | _, .up => throw .notEmpty
  | .vacant _, _ => throw .noEntry
  | .present place found, _ =>
    if !t.isChangeable place then throw .permissionDenied
    if !found.isDirectory then throw .notDirectory
    if found.children ≠ [] then throw .notEmpty
    return t.remove place

mutual

/-- A tree without everything below its root, as far as that can be removed. -/
def emptied : FileTree → FileTree × Except Cause Unit
  | .directory permissions children =>
    if !permissions.readable then (.directory permissions children, .error .permissionDenied)
    else
      let (children, result) := dropped permissions children
      (.directory permissions children, result)
  | other => (other, .ok ())

/-- What is left of the children of a directory when they are removed one after the other, up to the
first that cannot be. -/
def dropped (permissions : Permissions) :
    List (String × FileTree) → List (String × FileTree) × Except Cause Unit
  | [] => ([], .ok ())
  | (name, child) :: rest =>
    if !permissions.executable then ((name, child) :: rest, .error .permissionDenied)
    else
      match emptied child with
      | (child, .error cause) => ((name, child) :: rest, .error cause)
      | (child, .ok ()) =>
        if permissions.writable then dropped permissions rest
        else ((name, child) :: rest, .error .permissionDenied)

end

/-- Removes a directory with everything below it. It does not matter if its path leads nowhere any
more once it is empty. -/
def removeTree (path : Path) : FileTree × Except Cause Unit :=
  match t.find directory .entry path with
  | .error cause => (t, .error cause)
  | .ok (place, found) =>
    if !found.isDirectory then (t, .error .notDirectory)
    else
      let (rest, result) := emptied found
      let cleared := t.alter place (Option.map fun _ => rest)
      match result with
      | .error cause => (cleared, .error cause)
      | .ok () =>
        match cleared.removeDirectory directory path with
        | .ok removed => (removed, .ok ())
        | .error .noEntry => (cleared, .ok ())
        | .error cause => (cleared, .error cause)

/-- Moves a file to a path, over a file or a link that is there. The path must end in a name. -/
def moveFile (source target : Path) : Except Cause FileTree := do
  match ← t.locate directory source with
  | .vacant _ => throw .noEntry
  | .present sourcePlace found =>
    let spot ← t.locate directory target
    if found.isDirectory then throw .unsupported
    match lastStep target with
    | .name false => pure ()
    | .name true => throw .notDirectory
    | _ => throw .busy
    if !t.isChangeable sourcePlace then throw .permissionDenied
    match spot with
    | .present place old =>
      if place = sourcePlace then return t
      if !t.isChangeable place then throw .permissionDenied
      if old.isDirectory then throw .isDirectory
      return (t.remove sourcePlace).set place found
    | .vacant place =>
      if !t.isChangeable place then throw .permissionDenied
      return (t.remove sourcePlace).set place found

/-- The absolute path without links that leads to the same place. No limit is set to the length of
the path. -/
def canonical (path : Path) : Except Cause Path := do
  if path.text.toList.contains '\x00' then throw .zeroInPath
  if path.text = "" then throw .noEntry
  if !path.isAbsolute ∧ !t.isDirectoryAt directory then throw .noEntry
  match ← t.follow directory .target path with
  | .present place _ => return pathOf place
  | .vacant _ => throw .noEntry

end BridgingHeader.FileTree
