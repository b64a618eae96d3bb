import BridgingHeader.Files

/-!
# Running commands

A command that cannot be started because nothing is there to run fails with the tool's name, and a
command that does not succeed fails with what it printed.
-/

namespace BridgingHeader

variable {m : Type → Type} [Monad m] [Host m]

namespace Command

/-- Runs a command to its end, however that is. -/
def execute (c : Command) : Task m Outcome := do
  match ← (Host.run c : m _) with
  | .ok outcome => return outcome
  | .error .noEntry => throw (.toolNotFound c.program.text)
  | .error cause => throw (.io c.program cause)

/-- The failure of a command. -/
def failureOf (c : Command) (outcome : Outcome) : Failure :=
  .toolFailed c.display outcome.code
    (String.ofList (Text.trimEnd (Text.Utf8.decodeLossy outcome.stderr).toList))

/-- Runs a command, which must succeed. -/
def executeChecked (c : Command) : Task m Outcome := do
  let outcome ← c.execute
  if outcome.succeeded then return outcome else throw (c.failureOf outcome)

/-- Runs a command, which must succeed, and gives what it printed. -/
def output (c : Command) : Task m String := do
  return Text.Utf8.decodeLossy (← c.executeChecked).stdout

end Command

namespace Files

/-- A relative path, followed from a directory by its components. -/
def fromDirectory (directory path : Path) : Path :=
  if path.isAbsolute then path
  else (path.components.filter (· ≠ .current)).foldl (fun p c => p.join ⟨c.text⟩) directory

/-- A directory of the search path. A `~` at its start stands for the home directory. -/
def searchDirectory (home : Option Path) (directory : Path) : Path :=
  match home, directory.components with
  | some home, .name "~" :: rest => rest.foldl (fun p c => p.join ⟨c.text⟩) home
  | _, _ => directory

/-- The paths at which a program may be found: a name of several components leads to one, and a bare
name is looked up in the directories of the search path. Both are followed from the working
directory, if there is one. -/
def programCandidates (name : Path) : m (List Path) := do
  let directory := (← Host.workingDirectory).toOption
  let followed (path : Path) : Path := (directory.map fun d => fromDirectory d path).getD path
  if directory.isSome ∧ name.components.length > 1 then return [followed name]
  match ← Host.environment "PATH" with
  | some text =>
    let home ← homeDirectory
    return (Text.pieces ':' text.toList).map fun piece =>
      (followed (searchDirectory home ⟨String.ofList piece⟩)).join name
  | none => return []

/-- The first of some paths that leads to a file that may be executed. -/
def firstExecutable? : List Path → m (Option Path)
  | [] => return none
  | path :: rest => do
    if ← Host.isExecutable path then return some path else firstExecutable? rest

/-- The program with a name. -/
def findExecutable (name : Path) : m (Option Path) := do
  firstExecutable? (← programCandidates name)

/-- The path of a tool that was named: as it is if it leads to something, otherwise where a bare
name is found. -/
def resolveTool (tool : Path) : m Path := do
  if ← exist tool then return tool
  if tool.components.length = 1 then return (← findExecutable tool).getD tool
  return tool

end Files

end BridgingHeader
