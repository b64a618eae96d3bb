import BridgingHeader.Failure
import BridgingHeader.Text.Blank

/-!
# Build settings

A dump of build settings has one setting on a line, as a key and a value on the two sides of ` = `.
-/

namespace BridgingHeader.BuildSettings

/-- The setting that names the bridging header of a target. -/
def bridgingHeaderKey : String := "SWIFT_OBJC_BRIDGING_HEADER"

/-- A trimmed line sets a key if the key, a space, `=` and another space start it. -/
def sets (key line : List Char) : Bool := (key ++ [' ', '=', ' ']).isPrefixOf line

/-- The value of a key: what follows the first `=` of the first line that sets it, trimmed. -/
def find? (dump key : List Char) : Option (List Char) := do
  let line ← ((Text.lines dump).map Text.trim).find? (sets key)
  let (_, value) ← Text.splitAtFirst '=' line
  return Text.trim value

/-- The value of a key in a dump. -/
def find (dump key : String) : Except Failure String :=
  match find? dump.toList key.toList with
  | some value => return String.ofList value
  | none => throw (.settingNotFound key)

end BridgingHeader.BuildSettings
