import BridgingHeader.Host

/-!
# The local system

The system on which the program itself runs is a host. It has files, a terminal, arbitrary numbers
and a clock, but it starts no programs, and every file on it counts as one that may be executed.
-/

namespace BridgingHeader.LocalSystem

/-- The cause behind an error of the system. -/
def causeOf : IO.Error → Cause
  | .noFileOrDirectory _ _ _ => .noEntry
  | .permissionDenied _ _ _ => .permissionDenied
  | .alreadyExists _ 39 _ => .notEmpty
  | .alreadyExists _ _ _ => .alreadyExists
  | .inappropriateType _ 21 _ => .isDirectory
  | .inappropriateType _ _ _ => .notDirectory
  | .invalidArgument _ 36 _ => .nameTooLong
  | .invalidArgument _ 40 _ => .tooManyLinks
  | .invalidArgument _ _ _ => .invalidArgument
  | .resourceBusy _ _ => .busy
  | .unsatisfiedConstraints _ _ => .notEmpty
  | e => .other e.toString

/-- What an action gives, or the cause for which it fails. -/
def attempt {α : Type} (action : IO α) : IO (Except Cause α) := do
  match ← action.toBaseIO with
  | .ok value => return .ok value
  | .error e => return .error (causeOf e)

/-- What an action on a path gives, if the path is one that can lead somewhere. -/
def attemptAt {α : Type} (path : Path) (action : IO.FS.DirEntry → IO α) : IO (Except Cause α) := do
  if path.text = "" then return .error .noEntry
  if path.text.toList.contains '\x00' then return .error .zeroInPath
  attempt (action ⟨".", path.text⟩)

/-- The kind of a file type. What is neither a directory nor a link counts as a file. -/
def kindOf : IO.FS.FileType → NodeKind
  | .dir => .directory
  | .symlink => .link
  | _ => .file

/-- The kind of what a path leads to when links are followed. -/
def kind (path : Path) : IO (Except Cause NodeKind) :=
  attemptAt path fun entry => return kindOf (← entry.path.metadata).type

/-- The kind of what a path leads to when a link at its end is not followed. -/
def linkKind (path : Path) : IO (Except Cause NodeKind) :=
  attemptAt path fun entry => return kindOf (← entry.path.symlinkMetadata).type

/-- Copies a file. -/
def copyFile (source target : Path) : IO (Except Cause Unit) := do
  match ← kind source with
  | .ok .file =>
    match ← attemptAt source fun entry => IO.FS.readBinFile entry.path with
    | .ok contents => attemptAt target fun entry => IO.FS.writeBinFile entry.path contents
    | .error cause => return .error cause
  | .ok _ => return .error .notRegular
  | .error cause => return .error cause

/-- The names and kinds of what a directory holds. -/
def list (path : Path) : IO (Except Cause (List (String × NodeKind))) :=
  attemptAt path fun entry => do
    (← entry.path.readDir).toList.mapM fun item =>
      return (item.fileName, kindOf (← item.path.symlinkMetadata).type)

/-- The directory from which relative paths are followed. -/
def workingDirectory : IO (Except Cause Path) :=
  return (← attempt IO.currentDir).map fun path => ⟨path.toString⟩

/-- Writes a new file under an arbitrary name into a directory. -/
def writeTemporary (directory : Path) (contents : ByteArray) : IO (Except Cause Path) := do
  match ← workingDirectory with
  | .error cause => return .error cause
  | .ok current =>
    let path := (current.join directory).join ⟨s!".tmp{← IO.rand 100000 999999}"⟩
    return (← attemptAt path fun entry => IO.FS.writeBinFile entry.path contents).map fun _ => path

instance : Host IO where
  workingDirectory := workingDirectory
  environment name := IO.getEnv name
  kind := kind
  linkKind := linkKind
  isExecutable path := return match ← kind path with
    | .ok .file => true
    | _ => false
  canonical path := attemptAt path fun entry => return ⟨(← IO.FS.realPath entry.path).toString⟩
  readFile path := attemptAt path fun entry => IO.FS.readBinFile entry.path
  writeFile path contents := attemptAt path fun entry => IO.FS.writeBinFile entry.path contents
  makeDirectory path := attemptAt path fun entry => IO.FS.createDir entry.path
  copyFile := copyFile
  removeFile path := attemptAt path fun entry => IO.FS.removeFile entry.path
  removeTree path := attemptAt path fun entry => IO.FS.removeDirAll entry.path
  moveFile source target := attemptAt source fun entry => IO.FS.rename entry.path target.text
  list := list
  writeTemporary := writeTemporary
  run _ := return .error .unsupported
  printOut text := do
    let out ← IO.getStdout
    out.putStr text
    out.flush
  printError := IO.eprint
  errorIsTerminal := do return ← (← IO.getStderr).isTty
  random bound := IO.rand 0 (bound - 1)
  clock := IO.monoMsNow

end BridgingHeader.LocalSystem
