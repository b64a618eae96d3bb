import BridgingHeader.Text.Lines

/-!
# Paths

A path keeps its text as written. What it means lies in its components: repeated and trailing
slashes and the segment `.` disappear from them, except for a `.` at the start of a relative path.
Taking the parent or the file name looks at the last component, and the parent keeps the text before
it as written.
-/

namespace BridgingHeader

/-- A path as it was written. -/
structure Path where
  text : String
  deriving DecidableEq, Repr, Inhabited

namespace Path

/-- One step of a path. -/
inductive Component where
  | root
  /-- The `.` at the start of a relative path. -/
  | current
  /-- A segment `..`. -/
  | up
  | name (text : String)
  deriving DecidableEq, Repr

/-- The text of a component. -/
def Component.text : Component → String
  | .root => "/"
  | .current => "."
  | .up => ".."
  | .name text => text

/-- Where a path starts: at the root, at an explicit `.`, or at a segment like any other. -/
inductive Start where
  | root
  | current
  | bare
  deriving DecidableEq, Repr

/-- The text of a start. -/
def Start.text : Start → List Char
  | .root => ['/']
  | .current => ['.']
  | .bare => []

/-- The components of a start. -/
def Start.components : Start → List Component
  | .root => [.root]
  | .current => [.current]
  | .bare => []

/-- The start of a path and the text after it. -/
def splitStart : List Char → Start × List Char
  | '/' :: body => (.root, body)
  | ['.'] => (.current, [])
  | '.' :: '/' :: rest => (.current, '/' :: rest)
  | body => (.bare, body)

/-- A segment that names nothing. -/
def isVoid (segment : List Char) : Bool := segment = [] || segment = ['.']

/-- The component of a segment that is not void. -/
def Component.ofSegment (segment : List Char) : Component :=
  if segment = ['.', '.'] then .up else .name (String.ofList segment)

/-- The components of a path. -/
def components (p : Path) : List Component :=
  let (start, body) := splitStart p.text.toList
  start.components ++
    ((Text.pieces '/' body).filter fun s => !isVoid s).map Component.ofSegment

/-- A path is absolute if it starts at the root. -/
def isAbsolute (p : Path) : Bool := p.text.toList.head? = some '/'

/-- The segments of a path from the last one that is not void, in reverse. -/
def reversedSegments (body : List Char) : List (List Char) :=
  (Text.pieces '/' body).reverse.dropWhile isVoid

/-- The path without its last component; a path without components, or with the root alone, has no
parent. -/
def parent? (p : Path) : Option Path :=
  let (start, body) := splitStart p.text.toList
  match reversedSegments body with
  | _ :: before =>
    let kept := (before.dropWhile isVoid).reverse
    some ⟨String.ofList (start.text ++ ['/'].intercalate kept)⟩
  | [] => if start = .current then some ⟨""⟩ else none

/-- The last component, if it is a name. -/
def fileName? (p : Path) : Option String :=
  match p.components.getLast? with
  | some (.name text) => some text
  | _ => none

/-- A file name cut at its last dot, unless the name starts there. -/
def splitExtension (name : String) : String × Option String :=
  match Text.splitAtFirst '.' name.toList.reverse with
  | some (after, before) =>
    if before = [] then (name, none)
    else (String.ofList before.reverse, some (String.ofList after.reverse))
  | none => (name, none)

/-- The file name up to its last dot. -/
def stem? (p : Path) : Option String := p.fileName?.map fun name => (splitExtension name).1

/-- The part of the file name after its last dot. -/
def extension? (p : Path) : Option String := p.fileName?.bind fun name => (splitExtension name).2

/-- A path followed from another one: an absolute path stays, and a slash is put between the two
unless the first is empty or ends in one. -/
def join (base p : Path) : Path :=
  if p.isAbsolute || base.text.toList = [] then p
  else if base.text.toList.getLast? = some '/' then ⟨base.text ++ p.text⟩
  else ⟨base.text ++ "/" ++ p.text⟩

/-- The path that joins texts one after the other. -/
def ofSegments (segments : List String) : Path :=
  segments.foldl (fun p segment => p.join ⟨segment⟩) ⟨""⟩

/-- Two paths mean the same if their components are the same. -/
def equivalent (p q : Path) : Bool := p.components = q.components

end Path

end BridgingHeader
