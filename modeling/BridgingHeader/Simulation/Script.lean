import BridgingHeader.Simulation.Machine

/-!
# Scripted programs

A scripted program replays the first of its cases that fits the first argument it is given. A case
tells what is printed, which file is written, and how the program ends.
-/

namespace BridgingHeader.Script

/-- What a scripted program does in one case. -/
structure Case where
  /-- The first argument that the case is for, or any. -/
  first : Option String := none
  /-- What is printed, with `$N` for the number in the name of the project. -/
  stdout : ByteArray := .empty
  stderr : ByteArray := .empty
  /-- The descriptor of the project is shown on the error stream. -/
  showsProject : Bool := false
  /-- What is written to the output file. -/
  written : Option ByteArray := none
  /-- The input file is copied to the output file. -/
  copies : Bool := false
  killed : Bool := false
  code : Int := 0

/-- The argument after the last occurrence of an option. -/
def argumentAfter (option : String) : List String → Option String
  | name :: value :: rest =>
    (argumentAfter option (value :: rest)).or (if name = option then some value else none)
  | _ => none

/-- What follows the last occurrence of a character, or the whole text. -/
def afterLast (c : Char) (text : List Char) : List Char :=
  (text.reverse.takeWhile (· ≠ c)).reverse

/-- What precedes the last occurrence of a character, or the whole text. -/
def beforeLast (c : Char) (text : List Char) : List Char :=
  match text.reverse.dropWhile (· ≠ c) with
  | [] => text
  | _ :: before => before.reverse

/-- The number in the name of a project: what follows the last dash of its file name without its
extension. -/
def projectNumber (arguments : List String) : List Char :=
  let project := (argumentAfter "-project" arguments).getD ""
  afterLast '-' (beforeLast '.' (afterLast '/' project.toList))

/-- Bytes with each `$N` replaced. -/
def fillIn (number : List UInt8) : List UInt8 → List UInt8
  | 0x24 :: 0x4E :: rest => number ++ fillIn number rest
  | byte :: rest => byte :: fillIn number rest
  | [] => []

/-- What a case prints. -/
def Case.output (case : Case) (arguments : List String) : ByteArray :=
  let number := (String.ofList (projectNumber arguments)).toUTF8.data.toList
  ⟨(fillIn number case.stdout.data.toList).toArray⟩

/-- The contents of a file, as seen by an invocation, or nothing. -/
def contentsOf (tree : FileTree) (invocation : Invocation) (path : Path) : ByteArray :=
  (tree.read invocation.directory path).toOption.getD .empty

/-- Writes a file, as seen by an invocation, if that is possible. -/
def writeTo (tree : FileTree) (invocation : Invocation) (path : Path) (contents : ByteArray) :
    FileTree :=
  (tree.write invocation.directory path contents).toOption.getD tree

/-- The effect of a case. -/
def Case.run (case : Case) (invocation : Invocation) (tree : FileTree) : FileTree × Outcome :=
  let argument (option : String) := (argumentAfter option invocation.arguments).map Path.mk
  let shown := match case.showsProject, argument "-project" with
    | true, some project => contentsOf tree invocation (project.join ⟨"project.pbxproj"⟩)
    | _, _ => .empty
  let tree := match case.written, argument "-o" with
    | some contents, some path => writeTo tree invocation path contents
    | _, _ => tree
  let tree := match case.copies, argument "-E", argument "-o" with
    | true, some input, some output =>
      writeTo tree invocation output (contentsOf tree invocation input)
    | _, _, _ => tree
  (tree,
    { code := if case.killed then none else some (case.code % 256)
      stdout := case.output invocation.arguments
      stderr := case.stderr ++ shown })

/-- The effect of a program that no case fits. -/
def unfit (tree : FileTree) : FileTree × Outcome := (tree, ⟨some 64, .empty, .empty⟩)

/-- The program that replays some cases. -/
def program (name : String) (cases : List Case) : Program where
  name := name
  run invocation tree :=
    match cases.find? fun case => case.first.isNone || case.first = invocation.arguments.head? with
    | some case => case.run invocation tree
    | none => unfit tree

end BridgingHeader.Script
