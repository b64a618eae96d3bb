import BridgingHeader.Execution
import BridgingHeader.Json.Printer
import BridgingHeader.Json.Reader

/-!
# Interface requests

The interface service turns a header into declarations. A request names the header and the compiler
flags, and the response is a JSON object that holds the text of the interface. The text that is
finally emitted starts with a banner.
-/

namespace BridgingHeader

/-- A request for the interface of one header. -/
structure InterfaceRequest where
  file : Path
  uuid : String
  arguments : List String
  deriving DecidableEq, Repr

/-- The members of a response. -/
abbrev Response := List (String × Json)

namespace InterfaceRequest

/-- The kind of request that asks for the interface of a header. -/
def kind : String := "source.request.editor.open.interface.header"

/-- The compiler arguments: the language, which applies to what follows it, then the header, then
the flags. -/
def compilerArguments (request : InterfaceRequest) : List String :=
  ["-x", "objective-c", request.file.text] ++ request.arguments

/-- The body of a request. -/
def toJson (request : InterfaceRequest) : Json :=
  .object
    [("key.request", .string kind), ("key.name", .string request.uuid),
     ("key.filepath", .string request.file.text),
     ("key.compilerargs", .array (request.compilerArguments.map .string))]

/-- The command that puts a request to the service. -/
def command (service : Path) (request : InterfaceRequest) : Command where
  program := service
  arguments := ["request", "--yaml", request.toJson.print]

/-- An opaque identifier made of a number below 2 ^ 128, as 32 hexadecimal digits in groups. -/
def uuidOf (number : Nat) : String :=
  let digits := ((Nat.toDigits 16 number).map Char.toUpper)
  let digits := List.replicate (32 - digits.length) '0' ++ digits
  let group (start count : Nat) := String.ofList ((digits.drop start).take count)
  "-".intercalate [group 0 8, group 8 4, group 12 4, group 16 4, group 20 12]

end InterfaceRequest

namespace Response

/-- Reads a response, which must be an object. -/
def parse (text : String) : Except Report Response :=
  match Json.read text with
  | .ok (.object members) => return members
  | .ok value => throw (.ofRemark s!"interface response is not an object: {value.print}")
  | .error e => throw
      { contexts := ["failed to decode interface response"],
        origin := .malformed (Json.readErrorMessage e) }

/-- The text of the interface, unless it is missing or blank. -/
def sourceText? (response : Response) : Option String := do
  let text ← (← response.lookup "key.sourcetext").asString?
  if text.toList.all Text.isBlank then none else some text

end Response

/-- A service that answers interface requests. -/
abbrev InterfaceService (m : Type → Type) := InterfaceRequest → Work m Response

variable {m : Type → Type} [Monad m] [Host m]

/-- The service that a program offers. -/
def InterfaceService.ofTool (tool : Path) : InterfaceService m := fun request => do
  let text ← (request.command tool).output.toWork
  MonadExcept.ofExcept (Response.parse text)

namespace Interface

/-- The lines above every emitted interface. -/
def banner : String :=
  "// Generated using bridgecraft 0.1.0 - https://github.com/lvsti/Bridgecraft\n// DO NOT EDIT\n\n"

/-- The text that is emitted for an interface. -/
def render (interface : String) : String := banner ++ interface

/-- A request for the interface of a header, under a fresh identifier. -/
def request (header : Path) (flags : List String) : m InterfaceRequest := do
  return ⟨header, InterfaceRequest.uuidOf (← Host.random (Nat.pow 2 128)), flags⟩

/-- A text with a line feed at its end. -/
def endLine (text : String) : String :=
  if text.toList.getLast? = some '\n' then text else text ++ "\n"

/-- Writes an interface to a file, or prints it. -/
def emit (interface : String) (output : Option Path) : Work m Unit :=
  match output with
  | some path =>
    (Files.writeTextAtomically path (render interface)).toWork.within
      s!"cannot write interface to {path.text}"
  | none => ExceptT.lift (Host.printOut (endLine (render interface)))

end Interface

end BridgingHeader
