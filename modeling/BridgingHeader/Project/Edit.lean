import BridgingHeader.Digest
import BridgingHeader.Project.Basic
import BridgingHeader.Project.FileReference

/-!
# Editing projects

An edit changes a project and may fail. What it changed before the failure stays changed. New
objects get identifiers cut from a digest of what they are for and of the number of objects, salted
until the identifier is free.
-/

namespace BridgingHeader

namespace Project

/-- A computation that changes a project and may fail without undoing its changes. -/
abbrev Edit (α : Type) := ExceptT Failure (StateM Project) α

/-! ### Identifiers -/

/-- The identifier for a purpose, a number of objects and a salt: the first twelve bytes of a digest
as 24 hexadecimal digits. -/
def idFor (digest : Digest) (purpose : String) (count salt : Nat) : String :=
  let bytes := purpose.toUTF8.data.toList ++ Digest.littleEndian count.toUInt64
    ++ Digest.littleEndian salt.toUInt64
  String.ofList (Digest.upperHex ((digest bytes).toList.take 12))

/-- The first candidate that is not taken, among `count` candidates from a salt on. -/
def firstFree? (candidate : Nat → String) (taken : String → Bool) :
    (count salt : Nat) → Option String
  | 0, _ => none
  | count + 1, salt =>
    if taken (candidate salt) then firstFree? candidate taken count (salt + 1)
    else some (candidate salt)

/-- The number of salts. -/
def saltCount : Nat := Nat.pow 2 64

/-- An identifier that no object of the project has; the empty one if all salts are used up. -/
def freshId (digest : Digest) (p : Project) (purpose : String) : String :=
  let objects := p.objects?.getD .empty
  (firstFree? (idFor digest purpose objects.size) objects.contains saltCount 0).getD ""

/-! ### Objects -/

/-- The project with an object under an identifier; without objects nothing changes. -/
def setObject (p : Project) (id : String) (object : Dictionary PropertyList) : Project :=
  match p.objects? with
  | some objects =>
    ⟨p.root.insert "objects" (.dictionary (objects.insert id (.dictionary object)))⟩
  | none => p

/-- Adds an object under a fresh identifier. -/
def addObject (digest : Digest) (purpose : String) (object : Dictionary PropertyList) :
    Edit String := do
  let id := freshId digest (← get) purpose
  modify (·.setObject id object)
  return id

/-- Inserts an identifier into a list of an object. A missing list counts as empty, and an index
beyond the end means the end. -/
def insertId (owner key id : String) (index : Nat) : Edit Unit := do
  let some object := (← get).object? owner
    | throw (.invalidFileReference (.noObject owner))
  let list ← match object.get? key with
    | none => pure []
    | some (.array items) => pure items
    | some _ => throw (.invalidFileReference (.notList key owner))
  let list := list.insertIdx (min index list.length) (.string id)
  modify (·.setObject owner (object.insert key (.array list)))

/-- Adds the object of a file reference. -/
def createFileReference (digest : Digest) (file : FileReference) : Edit String := do
  MonadExcept.ofExcept file.validate
  addObject digest s!"PBXFileReference:{file.name}:{file.path}" <| .ofList
    [("isa", .string "PBXFileReference"), ("lastKnownFileType", .string file.fileType),
     ("name", .string file.name), ("path", .string file.path),
     ("sourceTree", .string FileReference.sourceTree)]

/-- Adds an object that lets a build phase use a file reference. -/
def createBuildFile (digest : Digest) (fileReference : String) : Edit String := do
  if ((← get).object? fileReference).isNone then
    throw (.invalidFileReference (.noObject fileReference))
  addObject digest s!"PBXBuildFile:{fileReference}" <| .ofList
    [("isa", .string "PBXBuildFile"), ("fileRef", .string fileReference)]

/-- Inserts a child into a group. -/
def insertGroupChild (group child : String) (index : Nat) : Edit Unit :=
  insertId group "children" child index

/-- Inserts a build file into a build phase. -/
def insertPhaseFile (phase buildFile : String) (index : Nat) : Edit Unit :=
  insertId phase "files" buildFile index

/-- The objects that stand for a source of a target. -/
structure AddedSource where
  fileReference : String
  buildFile : String
  deriving DecidableEq, Repr

/-- Makes a file the first child of the main group and the first source of a target. -/
def addSource (digest : Digest) (target : String) (file : FileReference) : Edit AddedSource := do
  let some targetId := (← get).findTarget? target | throw (.targetNotFound target)
  let some mainGroup := (← get).mainGroup? | throw .mainGroupNotFound
  MonadExcept.ofExcept file.validate
  let some phase := (← get).sourcesPhase? targetId | throw (.sourcesPhaseNotFound target)
  let fileReference ← createFileReference digest file
  insertGroupChild mainGroup fileReference 0
  let buildFile ← createBuildFile digest fileReference
  insertPhaseFile phase buildFile 0
  return { fileReference, buildFile }

end Project

end BridgingHeader
