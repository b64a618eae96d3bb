import BridgingHeader.BuildTool
import BridgingHeader.CompilerFlags
import BridgingHeader.Interface
import BridgingHeader.Patch
import BridgingHeader.Preprocessor
import BridgingHeader.Status
import BridgingHeader.Workspace

/-!
# Generating interfaces

The interface of a bridging header is generated from a throwaway clone of the project. A unit that
imports the header is made part of the clone, and a dry run tells the flags with which it would be
compiled. The unit is preprocessed with these flags, and the interface service is asked for the
interface of the result. All temporaries are gone before anything is emitted.
-/

namespace BridgingHeader

/-- What to generate. -/
structure GenerateOptions where
  project : Path
  target : String
  /-- Put the preprocessed header between the marks that make declarations nonnull. -/
  assumeNonnull : Bool := false
  umbrella : String := ImportUnit.defaultUmbrella
  dryRun : BuildTool.DryRunOptions := {}
  /-- Where to write the interface, if not to the terminal. -/
  output : Option Path := none
  /-- The number in the names of temporaries, if it is not to be arbitrary. -/
  seed : Option Nat := none
  deriving DecidableEq, Repr

/-- The tools and services that generating takes. -/
structure Pipeline (m : Type → Type) where
  shell : Shell
  buildTool : Path
  preprocessor : Path
  service : InterfaceService m

namespace Pipeline

open Temporaries (Tracking)
open Temporaries.Tracking (track ofWork)

variable {m : Type → Type} [Monad m] [Host m]

/-- The flags with which a log compiles a file, under the path without links. -/
def flagsOf (log : String) (unit : Path) : Task m (List String) := do
  MonadExcept.ofExcept (CompilerFlags.extract log (← (Files.normalize unit : m Path)))

/-- Clones the project. -/
def cloneProject (p : Pipeline m) (options : GenerateOptions) (workspace : Workspace) :
    Tracking m Unit := do
  ofWork (p.shell.tell .cloning s!"{options.project.text} to {workspace.clone.text}" : m Unit)
  track workspace.clone
  ofWork (Project.clone options.project workspace.clone)

/-- Reads the path of the bridging header. -/
def readHeaderPath (p : Pipeline m) (target : String) (workspace : Workspace) :
    Tracking m String := do
  ofWork (p.shell.tell .reading s!"bridging header of `{target}`" : m Unit)
  ofWork ((BuildTool.readSetting p.buildTool workspace.clone target
    BuildSettings.bridgingHeaderKey).toWork.within
    s!"cannot read {BuildSettings.bridgingHeaderKey} of target `{target}`")

/-- Writes a unit that imports a header, and makes it part of the clone. -/
def addUnit (p : Pipeline m) (digest : Digest) (target header : String) (workspace : Workspace) :
    Tracking m Unit := do
  track workspace.unit
  ofWork ((Files.writeText workspace.unit (ImportUnit.importing header)).toWork.within
    "cannot write translation unit")
  ofWork (p.shell.tell .patching s!"{workspace.clone.text} into `{target}`" : m Unit)
  let name := (workspace.unit.fileName?.map Path.mk).getD workspace.unit
  let _ ← ofWork
    (Project.registerSource digest workspace.clone target (.ofPath name) workspace.clone)

/-- Makes a dry run and picks the flags of the unit out of its log. -/
def findFlags (p : Pipeline m) (options : GenerateOptions) (workspace : Workspace) :
    Tracking m (List String) := do
  let started ← ofWork do
    ExceptT.lift (p.shell.tell .building s!"`{options.target}` (dry run)" : m Unit)
    ExceptT.lift (Host.clock : m Nat)
  let log ← ofWork ((BuildTool.dryRunLog p.buildTool workspace.clone options.target
    options.dryRun).toWork.within s!"dry-run build of target `{options.target}` failed")
  ofWork (p.shell.tellDuration .building started : m Unit)
  ofWork ((flagsOf log workspace.unit).toWork.within
    s!"cannot determine compiler flags of {workspace.unit.text}")

/-- Preprocesses the unit. -/
def preprocess (p : Pipeline m) (options : GenerateOptions) (workspace : Workspace)
    (flags : List String) : Tracking m Unit := do
  ofWork (p.shell.tell .preprocessing workspace.unit.text : m Unit)
  track workspace.header
  ofWork ((Preprocessor.run p.preprocessor workspace.unit workspace.header flags).toWork.within
    "preprocessing failed")
  if options.assumeNonnull then
    ofWork ((Preprocessor.assumeNonnull workspace.header options.umbrella).toWork.within
      "cannot rewrite preprocessed header")

/-- Asks for the interface of the header, which must not be blank. -/
def requestInterface (p : Pipeline m) (workspace : Workspace) (flags : List String) :
    Tracking m String := do
  ofWork (p.shell.tell .generating "interface" : m Unit)
  let request ← ofWork (Interface.request workspace.header flags : m InterfaceRequest)
  let response ← ofWork ((p.service request).within "interface synthesis failed")
  match response.sourceText? with
  | some text => return text
  | none => throw (.ofFailure (.emptyInterface workspace.header))

/-- All steps, which leave their temporaries behind. -/
def steps (p : Pipeline m) (digest : Digest) (options : GenerateOptions) (workspace : Workspace) :
    Tracking m String := do
  p.cloneProject options workspace
  let header ← p.readHeaderPath options.target workspace
  p.addUnit digest options.target header workspace
  let flags ← p.findFlags options workspace
  p.preprocess options workspace flags
  p.requestInterface workspace flags

/-- Generates an interface. All temporaries are gone afterwards. -/
def run (p : Pipeline m) (digest : Digest) (options : GenerateOptions) : Work m String := do
  let seed ← match options.seed with
    | some seed => pure seed
    | none => (Host.random Workspace.seedRange : m Nat)
  let workspace ← MonadExcept.ofExcept
    (Workspace.ofProject (← (Files.absolute options.project : m Path)) seed)
  Temporaries.cleaningUp (p.steps digest options workspace)

/-- Generates an interface and emits it. -/
def generate (p : Pipeline m) (digest : Digest) (options : GenerateOptions) : Work m Unit := do
  Interface.emit (← p.run digest options) options.output
  match options.output with
  | some path => ExceptT.lift (p.shell.tell .finished s!"wrote {path.text}" : m Unit)
  | none => return ()

end Pipeline

end BridgingHeader
