import BridgingHeader.Failure
import BridgingHeader.FileTree.Basic

/-!
# Resolving paths

A path leads through directories, starting at the root or at a working directory. Links on the way
are followed, and what happens at the end of the path depends on what it is for. A path may end at a
name that is not there yet, as long as its directory is.

A working directory that has been removed stands at a place to which no path leads. Nothing is in it
any more, but its parent can still be reached from it.
-/

namespace BridgingHeader.FileTree

/-- What a path is for. -/
inductive Aim where
  /-- What is there. A link is meant itself, unless a slash comes after it. -/
  | entry
  /-- What is there when links are followed. -/
  | target
  /-- A file that is to be written, so that no slash may come after its name. -/
  | output
  deriving DecidableEq, Repr

/-- Where a path ends. -/
inductive Spot where
  | present (place : Place) (subtree : FileTree)
  /-- Nothing is there, but its directory is. -/
  | vacant (place : Place)

/-- Names are at most this many bytes long. -/
def nameLimit : Nat := 255

/-- Paths are shorter than this many bytes. -/
def pathLimit : Nat := 4096

/-- No more links than this are followed on one path. -/
def linkLimit : Nat := 40

/-- The segments of a path text. -/
def segments (text : String) : List String := (Text.pieces '/' text.toList).map String.ofList

/-- The place of a directory that stood somewhere before it was removed. -/
def removedPlace (place : Place) : Place := place.dropLast ++ [""]

/-- Entries may be added to and removed from the directory of a place. -/
def isChangeable (t : FileTree) (place : Place) : Bool :=
  (t.get? place.dropLast).all fun directory => directory.permissions.writable

/-- A directory on the way of a path. -/
structure Stand where
  /-- The names that lead to the directory, the last one first. -/
  trail : List String
  /-- The directory, unless it has been removed. -/
  here : Option FileTree

namespace Stand

/-- Where a walk stands at a place. -/
def ofPlace (t : FileTree) (place : Place) : Stand :=
  ⟨place.reverse, (t.get? place).filter isDirectory⟩

/-- The parent of a directory; the root is its own parent. -/
def parent (t : FileTree) (stand : Stand) : Stand := ofPlace t stand.trail.tail.reverse

/-- A directory in this one. -/
def child (stand : Stand) (name : String) (directory : FileTree) : Stand :=
  ⟨name :: stand.trail, some directory⟩

/-- The place of the directory. -/
def place (stand : Stand) : Place := stand.trail.reverse

/-- The directory may be passed through. -/
def isPassable (stand : Stand) : Bool :=
  stand.here.all fun directory => directory.permissions.executable

end Stand

/-- Where the segments lead from a directory, when `visit` finishes the walk through a link. -/
def walkSegments (t : FileTree) (aim : Aim) (visit : Stand → List String → Except Cause Spot) :
    Stand → List String → Except Cause Spot
  | stand, [] => .ok (.present stand.place (stand.here.getD empty))
  | stand, segment :: rest =>
    if segment = "" then walkSegments t aim visit stand rest
    else if !stand.isPassable then .error .permissionDenied
    else if segment = "." then walkSegments t aim visit stand rest
    else if segment = ".." then walkSegments t aim visit (stand.parent t) rest
    else if aim = .output ∧ rest ≠ [] ∧ rest.all (· = "") then .error .isDirectory
    else
      match stand.here with
      | none => .error .noEntry
      | some here =>
        if segment.utf8ByteSize > nameLimit then .error .nameTooLong
        else
          match here.children.lookup segment with
          | some (.directory permissions children) =>
            walkSegments t aim visit (stand.child segment (.directory permissions children)) rest
          | some (.link target) =>
            if rest = [] ∧ aim = .entry then
              .ok (.present (stand.place ++ [segment]) (.link target))
            else
              visit (if target.isAbsolute then ⟨[], some t⟩ else stand)
                (segments target.text ++ rest)
          | some (.file permissions contents) =>
            if rest = [] then .ok (.present (stand.place ++ [segment]) (.file permissions contents))
            else .error .notDirectory
          | none =>
            if rest = [] then .ok (.vacant (stand.place ++ [segment])) else .error .noEntry

/-- Where the segments lead from a directory when at most `links` links may be followed. -/
def walkLinks (t : FileTree) (aim : Aim) : (links : Nat) → Stand → List String → Except Cause Spot
  | 0 => walkSegments t aim fun _ _ => .error .tooManyLinks
  | links + 1 => walkSegments t aim (walkLinks t aim links)

/-- Where the text of a path leads from a working directory, however long it is. -/
def follow (t : FileTree) (directory : Place) (aim : Aim) (path : Path) : Except Cause Spot :=
  walkLinks t aim linkLimit (.ofPlace t (if path.isAbsolute then [] else directory))
    (segments path.text)

/-- Why a path is refused before it is followed. -/
def refusal? (path : Path) : Option Cause :=
  if path.text.toList.contains '\x00' then some .zeroInPath
  else if path.text = "" then some .noEntry
  else if path.text.utf8ByteSize ≥ pathLimit then some .nameTooLong
  else none

/-- Where a path leads from a working directory. -/
def resolve (t : FileTree) (directory : Place) (aim : Aim) (path : Path) : Except Cause Spot :=
  match refusal? path with
  | some cause => .error cause
  | none => t.follow directory aim path

/-- The place and the subtree to which a path leads, which must be there. -/
def find (t : FileTree) (directory : Place) (aim : Aim) (path : Path) :
    Except Cause (Place × FileTree) := do
  match ← t.resolve directory aim path with
  | .present place subtree => return (place, subtree)
  | .vacant _ => throw .noEntry

/-- What the name at the end of a path stands for. -/
inductive LastStep where
  | root
  /-- The segment `.`. -/
  | current
  /-- The segment `..`. -/
  | up
  /-- A name, perhaps with slashes after it. -/
  | name (slashed : Bool)
  deriving DecidableEq, Repr

/-- A path text without slashes at its end, except for the root. -/
def withoutEndSlashes (path : Path) : Path :=
  let kept := (path.text.toList.reverse.dropWhile (· = '/')).reverse
  if kept = [] ∧ path.text ≠ "" then ⟨"/"⟩ else ⟨String.ofList kept⟩

/-- The last step of a path. -/
def lastStep (path : Path) : LastStep :=
  let bare := withoutEndSlashes path
  match (segments bare.text).getLast? with
  | some "" => .root
  | some "." => .current
  | some ".." => .up
  | _ => .name (path ≠ bare)

/-- Where the name at the end of a path stands, whatever slashes come after it. A link with that
name is not followed. -/
def locate (t : FileTree) (directory : Place) (path : Path) : Except Cause Spot :=
  match refusal? path with
  | some cause => .error cause
  | none => t.follow directory .entry (withoutEndSlashes path)

end BridgingHeader.FileTree
