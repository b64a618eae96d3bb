import BridgingHeader.Failure
import BridgingHeader.PropertyList.Printer

/-!
# Projects

A project descriptor is a dictionary. Its `objects` are dictionaries under identifiers, and its
`rootObject` names the one that lists the targets and the main group. A target lists its build
phases, and the sources phase is the first of them that compiles sources.
-/

namespace BridgingHeader

/-- A project descriptor. -/
structure Project where
  root : Dictionary PropertyList
  deriving DecidableEq

namespace Project

/-- The name of the descriptor inside a project bundle. -/
def descriptorName : Path := ⟨"project.pbxproj"⟩

/-- The objects of a project by identifier. -/
def objects? (p : Project) : Option (Dictionary PropertyList) := p.root.getDictionary? "objects"

/-- The object with an identifier. -/
def object? (p : Project) (id : String) : Option (Dictionary PropertyList) := do
  (← p.objects?).getDictionary? id

/-- The object that the descriptor names as its root. -/
def rootObject? (p : Project) : Option (Dictionary PropertyList) := do
  p.object? (← p.root.getString? "rootObject")

/-- The identifiers in the list of targets. -/
def targetIds (p : Project) : List String :=
  (((p.rootObject?).bind (·.getArray? "targets")).getD []).filterMap PropertyList.asString?

/-- The name of an object. -/
def nameOf? (p : Project) (id : String) : Option String := do (← p.object? id).getString? "name"

/-- The names of all targets in order. -/
def targetNames (p : Project) : List String := p.targetIds.filterMap p.nameOf?

/-- The identifier of the first target with a name. -/
def findTarget? (p : Project) (name : String) : Option String :=
  p.targetIds.find? fun id => p.nameOf? id = some name

/-- The identifier of the main group, if it names an object. -/
def mainGroup? (p : Project) : Option String := do
  let id ← (← p.rootObject?).getString? "mainGroup"
  let _ ← p.object? id
  return id

/-- An object is a sources phase if its class says so. -/
def isSourcesPhase (p : Project) (id : String) : Bool :=
  ((p.object? id).bind (·.getString? "isa")) = some "PBXSourcesBuildPhase"

/-- The identifier of the first sources phase of a target. -/
def sourcesPhase? (p : Project) (target : String) : Option String := do
  let phases ← (← p.object? target).getArray? "buildPhases"
  (phases.filterMap PropertyList.asString?).find? p.isSourcesPhase

/-- A property list is a project if it is a dictionary with objects and its root object is one of
them. -/
def ofPropertyList : PropertyList → Except ProjectDefect Project
  | .dictionary root =>
    let project : Project := ⟨root⟩
    if project.objects?.isNone then throw .noObjects
    else if project.rootObject?.isNone then throw .noRootObject
    else return project
  | _ => throw .rootNotDictionary

/-- Reads the text of a descriptor. -/
def parse (text : String) : Except ProjectDefect Project :=
  match PropertyList.read text with
  | .ok value => ofPropertyList value
  | .error e => throw (.unreadable e)

/-- The text of a descriptor. -/
def print (p : Project) : String := PropertyList.print (.dictionary p.root)

end Project

end BridgingHeader
