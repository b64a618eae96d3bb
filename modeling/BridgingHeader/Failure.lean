import BridgingHeader.Path.Basic
import BridgingHeader.PropertyList.Reader

/-!
# Failures

A `Cause` is a reason for which the system refuses an operation. A `Failure` is a way in which the
work on a project ends early, and its `Kind` is the class it belongs to. A `Report` is what finally
reaches the user: what was being attempted, from the outside in, and what put an end to it.
-/

namespace BridgingHeader

/-- A reason for which the system refuses an operation. -/
inductive Cause where
  | noEntry
  | permissionDenied
  | alreadyExists
  | notDirectory
  | isDirectory
  | notEmpty
  | nameTooLong
  | tooManyLinks
  | invalidArgument
  | busy
  | badExecutable
  /-- A path holds a character that no name can hold. -/
  | zeroInPath
  /-- A command holds a character that no argument can hold. -/
  | zeroInCommand
  /-- A file that is read as text is not valid UTF-8. -/
  | invalidText
  /-- Something that is to be copied is neither a file nor a link to one. -/
  | notRegular
  | unsupported
  /-- The walk through a tree met a cause at a path. -/
  | walking (path : Path) (cause : Cause)
  | other (text : String)
  deriving DecidableEq, Repr

/-- The wording of a cause. -/
def Cause.text : Cause → String
  | .noEntry => "No such file or directory (os error 2)"
  | .permissionDenied => "Permission denied (os error 13)"
  | .alreadyExists => "File exists (os error 17)"
  | .notDirectory => "Not a directory (os error 20)"
  | .isDirectory => "Is a directory (os error 21)"
  | .notEmpty => "Directory not empty (os error 39)"
  | .nameTooLong => "File name too long (os error 36)"
  | .tooManyLinks => "Too many levels of symbolic links (os error 40)"
  | .invalidArgument => "Invalid argument (os error 22)"
  | .busy => "Device or resource busy (os error 16)"
  | .badExecutable => "Exec format error (os error 8)"
  | .zeroInPath => "file name contained an unexpected NUL byte"
  | .zeroInCommand => "nul byte found in provided data"
  | .invalidText => "stream did not contain valid UTF-8"
  | .notRegular => "the source path is neither a regular file nor a symlink to a regular file"
  | .unsupported => "operation not supported on this platform"
  | .walking path cause => s!"IO error for operation on {path.text}: {cause.text}"
  | .other text => text

/-- The wordings of a cause and of the causes behind it. -/
def Cause.texts : Cause → List String
  | .walking path cause => (Cause.walking path cause).text :: cause.texts
  | cause => [cause.text]

/-- The class of a failure. -/
inductive Kind where
  | notFound
  | externalToolFailure
  | io
  | emptyResult
  | invalidProject
  deriving DecidableEq, Repr

/-- What is wrong with a project descriptor. -/
inductive ProjectDefect where
  | unreadable (e : PropertyList.ReadError)
  | rootNotDictionary
  | noObjects
  | noRootObject
  | described (text : String)
  deriving DecidableEq, Repr

/-- The wording of a project defect. -/
def ProjectDefect.message : ProjectDefect → String
  | .unreadable e => PropertyList.readErrorMessage e
  | .rootNotDictionary => "root value is not a dictionary"
  | .noObjects => "missing `objects` dictionary"
  | .noRootObject => "`rootObject` does not name a project object"
  | .described text => text

/-- What is wrong with a file reference or with the place where it should go. -/
inductive ReferenceDefect where
  | noFileName (path : String)
  | noPath (name : String)
  | noObject (id : String)
  | notList (key owner : String)
  | described (text : String)
  deriving DecidableEq, Repr

/-- The wording of a reference defect. -/
def ReferenceDefect.message : ReferenceDefect → String
  | .noFileName path => s!"no file name in `{path}`"
  | .noPath name => s!"empty path for `{name}`"
  | .noObject id => s!"no object with id {id}"
  | .notList key owner => s!"`{key}` of {owner} is not a list"
  | .described text => text

/-- A way in which the work on a project ends early. -/
inductive Failure where
  | settingNotFound (key : String)
  | targetNotFound (target : String)
  | mainGroupNotFound
  | sourcesPhaseNotFound (target : String)
  | compileLineNotFound (unit : Path)
  | toolNotFound (tool : String)
  /-- A tool ended with an exit code other than zero, or without one because it was killed. -/
  | toolFailed (command : String) (code : Option Int) (stderr : String)
  | io (path : Path) (cause : Cause)
  | emptyInterface (file : Path)
  | invalidProject (path : Path) (defect : ProjectDefect)
  | invalidFileReference (defect : ReferenceDefect)
  deriving DecidableEq, Repr

namespace Failure

/-- The class of a failure. -/
def kind : Failure → Kind
  | .settingNotFound _ | .targetNotFound _ | .mainGroupNotFound | .sourcesPhaseNotFound _
  | .compileLineNotFound _ | .toolNotFound _ => .notFound
  | .toolFailed .. => .externalToolFailure
  | .io .. => .io
  | .emptyInterface _ => .emptyResult
  | .invalidProject .. | .invalidFileReference _ => .invalidProject

/-- How an exit code is written; a killed tool has none. -/
def exitCodeText : Option Int → String
  | some code => s!"Some({code})"
  | none => "None"

/-- The wording of a failure. -/
def message : Failure → String
  | .settingNotFound key => s!"build setting `{key}` not found"
  | .targetNotFound target => s!"cannot find target `{target}`"
  | .mainGroupNotFound => "project has no main group"
  | .sourcesPhaseNotFound target =>
    s!"compile sources build phase not found in target `{target}`"
  | .compileLineNotFound unit => s!"no compiler invocation found for `{unit.text}`"
  | .toolNotFound tool => s!"tool `{tool}` not found"
  | .toolFailed command code stderr =>
    s!"`{command}` failed with exit code {exitCodeText code}\n{stderr}"
  | .io path cause => s!"{path.text}: {cause.text}"
  | .emptyInterface file => s!"generated interface for `{file.text}` is empty"
  | .invalidProject path defect => s!"invalid project at {path.text}: {defect.message}"
  | .invalidFileReference defect => s!"cannot create file reference: {defect.message}"

/-- The wordings of a failure and of the causes behind it. -/
def texts : Failure → List String
  | .io path cause => message (.io path cause) :: cause.texts
  | failure => [failure.message]

end Failure

/-- What put an end to the work. -/
inductive Origin where
  | failed (failure : Failure)
  | system (cause : Cause)
  | remark (text : String)
  /-- A text is not in its format; the detail is the format reader's own wording. -/
  | malformed (detail : String)
  deriving DecidableEq, Repr

/-- The wordings of an origin and of the causes behind it. -/
def Origin.texts : Origin → List String
  | .failed failure => failure.texts
  | .system cause => cause.texts
  | .remark text => [text]
  | .malformed detail => [detail]

/-- What was being attempted, from the outermost attempt on, and what ended it. -/
structure Report where
  contexts : List String := []
  origin : Origin
  deriving DecidableEq, Repr

namespace Report

/-- The report of a bare failure. -/
def ofFailure (failure : Failure) : Report := { origin := .failed failure }

/-- The report of a bare remark. -/
def ofRemark (text : String) : Report := { origin := .remark text }

/-- The report with one more attempt around it. -/
def within (report : Report) (context : String) : Report :=
  { report with contexts := context :: report.contexts }

/-- The failure at the origin of a report. -/
def failure? (report : Report) : Option Failure :=
  match report.origin with
  | .failed failure => some failure
  | _ => none

/-- The class of the failure at the origin of a report. -/
def kind? (report : Report) : Option Kind := report.failure?.map Failure.kind

/-- The whole report on one line, from the outermost attempt to the innermost cause. -/
def message (report : Report) : String :=
  ": ".intercalate (report.contexts ++ report.origin.texts)

end Report

end BridgingHeader
