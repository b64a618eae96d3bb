import BridgingHeader.Files
import BridgingHeader.Interface
import BridgingHeader.Simulation.Interpreter

/-!
# Simulated machines

A machine is a host without effects: its file tree, its programs and everything it prints are parts
of one value. Programs are arbitrary functions on the file tree. The machine keeps a log of the
programs that were run and the interface requests that were answered.
-/

namespace BridgingHeader

/-- How a program is started. -/
structure Invocation where
  arguments : List String
  directory : Place
  deriving DecidableEq, Repr

/-- A program and the name under which its runs are logged. -/
structure Program where
  name : String
  run : Invocation → FileTree → FileTree × Outcome

/-- What the log of a machine tells. -/
inductive Event where
  | ran (program : String) (invocation : Invocation)
  /-- An interface request, and the text of the header at that moment. -/
  | requested (request : InterfaceRequest) (header : Option String)
  deriving DecidableEq, Repr

/-- A simulated system. -/
structure Machine where
  tree : FileTree := .empty
  directory : Place := []
  environment : List (String × String) := []
  /-- The program that a file with some contents is. -/
  programs : ByteArray → Option Program := fun _ => none
  /-- Entries that cannot be removed. -/
  held : Place → Bool := fun _ => false
  /-- A sequence of arbitrary numbers, and how many of them have been used. -/
  numbers : Nat → Nat := id
  used : Nat := 0
  time : Nat := 0
  stdout : String := ""
  stderr : String := ""
  log : List Event := []
  deriving Inhabited

/-- A computation on a simulated system. -/
abbrev Simulation := StateM Machine

namespace Machine

/-- What a path leads to. -/
def find (machine : Machine) (aim : FileTree.Aim) (path : Path) : Except Cause (Place × FileTree) :=
  machine.tree.find machine.directory aim path

/-- The machine with another file tree. If the working directory is gone, nothing leads there any
more, even if a directory is made in its place later on. -/
def withTree (machine : Machine) (tree : FileTree) : Machine :=
  let directory := if tree.isDirectoryAt machine.directory then machine.directory
    else FileTree.removedPlace machine.directory
  { machine with tree, directory }

/-- The directory in which a command runs. -/
def directoryOf (machine : Machine) : Option Path → Except Cause Place
  | none => .ok machine.directory
  | some path => do
    let (place, found) ← machine.find .target path
    if !found.isDirectory then throw .notDirectory
    if !found.permissions.executable then throw .permissionDenied
    return place

/-- A program that is about to be started. -/
structure Start where
  program : Program
  arguments : List String

/-- The program behind a path, as seen from a directory. Interpreters are put in front of scripts. No
more than `files` files are loaded, and a program itself takes two. -/
def programAt (machine : Machine) (directory : Place) (arguments : List String) :
    (files : Nat) → Path → Except Cause Start
  | 0, _ => .error .tooManyLinks
  | files + 1, path => do
    match ← machine.tree.find directory .target path with
    | (_, .file permissions contents) =>
      if !permissions.executable then throw .permissionDenied
      match machine.programs contents, Interpreter.ofContents contents with
      | some program, _ => if files = 0 then throw .tooManyLinks else return ⟨program, arguments⟩
      | none, none => throw .badExecutable
      | none, some interpreter =>
        if interpreter.path.text = "" then throw .permissionDenied
        programAt machine directory (interpreter.argument.toList ++ path.text :: arguments) files
          interpreter.path
    | _ => throw .permissionDenied

/-- Starting a program loads at most this many files. -/
def loadLimit : Nat := 6

/-- The first program among some paths. A path at which running is not permitted is remembered, in
case no other path has a program. -/
def firstProgram (machine : Machine) (directory : Place) (arguments : List String) :
    (permitted : Bool) → List Path → Except Cause Start
  | permitted, [] => .error (if permitted then .noEntry else .permissionDenied)
  | permitted, path :: rest =>
    match machine.programAt directory arguments loadLimit path with
    | .ok start => .ok start
    | .error .permissionDenied => firstProgram machine directory arguments false rest
    | .error .noEntry | .error .notDirectory =>
      firstProgram machine directory arguments permitted rest
    | .error cause => .error cause

/-- The directories in which programs are looked up by name. -/
def searchPath (machine : Machine) : List Path :=
  let text := (machine.environment.lookup "PATH").getD "/bin:/usr/bin"
  (Text.pieces ':' text.toList).map fun piece => ⟨String.ofList piece⟩

/-- The program that a command names: a path with a slash leads to it, and a bare name is looked up.
-/
def programFor (machine : Machine) (directory : Place) (command : Command) : Except Cause Start :=
  let path := command.program
  if path.text = "" then .error .noEntry
  else if path.text.toList.contains '/' then
    machine.programAt directory command.arguments loadLimit path
  else
    machine.firstProgram directory command.arguments true
      (machine.searchPath.map fun d => d.join path)

/-- A command holds a character that no argument can hold. -/
def holdsZero (command : Command) : Bool :=
  (command.program.text :: command.arguments
    ++ (command.directory.map Path.text).toList).any fun text => text.toList.contains '\x00'

/-- Runs a command and logs it, unless it cannot be started. -/
def run (machine : Machine) (command : Command) : Except Cause Outcome × Machine :=
  if holdsZero command then (.error .zeroInCommand, machine)
  else
    let start := do
      let directory ← machine.directoryOf command.directory
      return (directory, ← machine.programFor directory command)
    match start with
    | .error cause => (.error cause, machine)
    | .ok (directory, start) =>
      let invocation : Invocation := ⟨start.arguments, directory⟩
      let (tree, outcome) := start.program.run invocation machine.tree
      (.ok outcome,
        { machine.withTree tree with log := machine.log ++ [.ran start.program.name invocation] })

/-- The name of a temporary file: six digits after a fixed start. -/
def temporaryName (number : Nat) : String :=
  let digits := Nat.toDigits 10 number
  ".tmp" ++ String.ofList (List.replicate (6 - digits.length) '0' ++ digits)

/-- A name for a temporary file that is not taken yet. -/
def freshName (taken : List String) : String :=
  (((List.range (taken.length + 1)).map temporaryName).find? fun name => name ∉ taken).getD ""

/-- Writes a new file into a directory. -/
def writeTemporary (machine : Machine) (directory : Path) (contents : ByteArray) :
    Except Cause (Path × FileTree) := do
  if !directory.isAbsolute ∧ !machine.tree.isDirectoryAt machine.directory then throw .noEntry
  let absolute := (FileTree.pathOf machine.directory).join directory
  let (_, found) ← machine.find .target absolute
  let path := absolute.join ⟨freshName (found.children.map Prod.fst)⟩
  return (path, ← machine.tree.write machine.directory path contents)

/-- A change of the tree that may be refused. -/
def change (operation : FileTree → Place → Except Cause FileTree) :
    Simulation (Except Cause Unit) :=
  fun machine =>
    match operation machine.tree machine.directory with
    | .ok tree => (.ok (), machine.withTree tree)
    | .error cause => (.error cause, machine)

/-- An entry that is held cannot be removed by a path. -/
def holds (machine : Machine) (path : Path) : Bool :=
  match machine.find .entry path with
  | .ok (place, _) => machine.held place
  | .error _ => false

instance : Host Simulation where
  workingDirectory := fun machine =>
    (if machine.tree.isDirectoryAt machine.directory then
      .ok (FileTree.pathOf machine.directory) else .error .noEntry, machine)
  environment name := fun machine => (machine.environment.lookup name, machine)
  kind path := fun machine => ((machine.find .target path).map fun found => found.2.kind, machine)
  linkKind path := fun machine => ((machine.find .entry path).map fun found => found.2.kind, machine)
  isExecutable path := fun machine =>
    (match machine.find .target path with
      | .ok (_, .file permissions _) => permissions.executable
      | _ => false, machine)
  canonical path := fun machine => (machine.tree.canonical machine.directory path, machine)
  readFile path := fun machine => (machine.tree.read machine.directory path, machine)
  writeFile path contents := change fun tree directory => tree.write directory path contents
  makeDirectory path := change fun tree directory => tree.makeDirectory directory path
  copyFile source target := change fun tree directory => tree.copyFile directory source target
  removeFile path := fun machine =>
    if machine.holds path then (.error .permissionDenied, machine)
    else change (fun tree directory => tree.removeFile directory path) machine
  removeTree path := fun machine =>
    if machine.holds path then (.error .permissionDenied, machine)
    else
      let (tree, result) := machine.tree.removeTree machine.directory path
      (result, machine.withTree tree)
  moveFile source target := change fun tree directory => tree.moveFile directory source target
  list path := fun machine => (machine.tree.list machine.directory path, machine)
  writeTemporary directory contents := fun machine =>
    match machine.writeTemporary directory contents with
    | .ok (path, tree) => (.ok path, machine.withTree tree)
    | .error cause => (.error cause, machine)
  run command := fun machine => machine.run command
  printOut text := fun machine => ((), { machine with stdout := machine.stdout ++ text })
  printError text := fun machine => ((), { machine with stderr := machine.stderr ++ text })
  errorIsTerminal := pure false
  random bound := fun machine =>
    (machine.numbers machine.used % bound, { machine with used := machine.used + 1 })
  clock := fun machine => (machine.time, machine)

/-- An interface service that answers each request from the machine's file tree and logs it. -/
def answering (answer : InterfaceRequest → FileTree → Except Report Response)
    (request : InterfaceRequest) : Work Simulation Response := fun machine =>
  let header := (machine.tree.read machine.directory request.file).toOption.bind String.fromUTF8?
  (answer request machine.tree,
    { machine with log := machine.log ++ [.requested request header] })

end Machine

end BridgingHeader
