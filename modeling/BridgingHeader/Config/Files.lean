import BridgingHeader.Config.Reader
import BridgingHeader.Files

/-!
# Configuration files

The configuration in effect is the one of the home directory under the one of the project directory.
A file that cannot be read as a configuration sets nothing.
-/

namespace BridgingHeader.Config

variable {m : Type → Type} [Monad m] [Host m]

/-- The text of a file, or the cause for which there is none. -/
def readContents (path : Path) : m (Except Cause String) := do
  match ← Host.readFile path with
  | .ok contents =>
    match String.fromUTF8? contents with
    | some text => return .ok text
    | none => return .error .invalidText
  | .error cause => return .error cause

/-- Reads a configuration file. -/
def load (path : Path) : Work m Config := do
  match ← (readContents path : m _) with
  | .error cause =>
    throw { contexts := [s!"failed to read config file: {path.text}"], origin := .system cause }
  | .ok text =>
    match parse text with
    | .ok config => return config
    | .error detail =>
      throw
        { contexts := [s!"failed to parse config file: {path.text}"], origin := .malformed detail }

/-- Reads a configuration file; one that is not there or is not a configuration sets nothing. -/
def loadOrEmpty (path : Path) : m Config := do
  if ← Files.exist path then
    match ← (load path).run with
    | .ok config => return config
    | .error _ => return empty
  else return empty

/-- The configuration of a general file, if there is one, under the one of a specific file. -/
def loadLayers (general : Option Path) (specific : Path) : m Config := do
  let base ← match general with
    | some path => loadOrEmpty path
    | none => pure empty
  return (empty.merge base).merge (← loadOrEmpty specific)

/-- The directory of the general configuration, unless there is no home directory. -/
def generalDirectory : m (Option Path) := do return (← Files.homeDirectory).map directoryIn

/-- The configuration in effect. -/
def loadDefault : m Config := do
  let directory ← match ← Host.workingDirectory with
    | .ok directory => pure directory
    | .error _ => pure ⟨""⟩
  let general := (← generalDirectory).map fun d => d.join ⟨"config.toml"⟩
  loadLayers general (fileIn directory)

end BridgingHeader.Config
