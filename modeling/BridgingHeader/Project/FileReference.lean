import BridgingHeader.Failure
import BridgingHeader.Path.Relative

/-!
# File references

A file reference tells a project the name, path and type of a file. Its path is read relative to the
group that holds the reference.
-/

namespace BridgingHeader

/-- A file as a project refers to it. -/
structure FileReference where
  name : String
  path : String
  fileType : String
  deriving DecidableEq, Repr

namespace FileReference

/-- The tree against which the path of a reference is read. -/
def sourceTree : String := "<group>"

/-- The type of a file, told by the extension of its path. -/
def typeOf (path : Path) : String :=
  match path.extension? with
  | some "m" => "sourcecode.c.objc"
  | some "mm" => "sourcecode.cpp.objcpp"
  | some "c" => "sourcecode.c.c"
  | some "cpp" | some "cc" | some "cxx" => "sourcecode.cpp.cpp"
  | some "swift" => "sourcecode.swift"
  | some "h" => "sourcecode.c.h"
  | _ => "text"

/-- The reference for a path; a path without a file name gives a reference without a name. -/
def ofPath (path : Path) : FileReference :=
  ⟨path.fileName?.getD "", path.text, typeOf path⟩

/-- The reference for a source of a project, both at absolute paths. Its path leads from the
directory of the project, where the main group looks for its files. -/
def forSource (project source : Path) : FileReference :=
  ofPath (match project.parent? with
    | some directory => source.relativeTo directory
    | none => source)

/-- A reference needs a name and a path. -/
def validate (file : FileReference) : Except Failure Unit :=
  if file.name = "" then throw (.invalidFileReference (.noFileName file.path))
  else if file.path = "" then throw (.invalidFileReference (.noPath file.name))
  else return ()

end FileReference

end BridgingHeader
