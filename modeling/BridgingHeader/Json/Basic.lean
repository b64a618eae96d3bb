/-!
# JSON values

An object lists its members. Reading sorts them by key, whereas a request lists them in an order of
its own.
-/

namespace BridgingHeader

/-- A JSON value. Integers are those that fit into 64 bits, with or without a sign; all other
numbers are binary64. -/
inductive Json where
  | null
  | bool (value : Bool)
  | integer (value : Int)
  | float (value : Float)
  | string (text : String)
  | array (items : List Json)
  | object (members : List (String × Json))
  deriving Inhabited

namespace Json

/-- The text of a string value. -/
def asString? : Json → Option String
  | .string text => some text
  | _ => none

/-- Members after one has been set, in the order of their keys if they were. -/
def insertMember (key : String) (value : Json) : List (String × Json) → List (String × Json)
  | [] => [(key, value)]
  | member :: rest =>
    if key < member.1 then (key, value) :: member :: rest
    else if key = member.1 then (key, value) :: rest
    else member :: insertMember key value rest

end Json

end BridgingHeader
