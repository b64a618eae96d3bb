import BridgingHeader.Decimal.Shortest
import BridgingHeader.Json.Basic

/-!
# Printing JSON

Values are printed without white space. Strings escape quotes, backslashes and control characters,
and show all other characters as they are.
-/

namespace BridgingHeader.Json

/-- The lower-case hexadecimal digit of a number below sixteen. -/
def hexDigit (n : Nat) : Char :=
  if n < 10 then Char.ofNat ('0'.toNat + n) else Char.ofNat ('a'.toNat + (n - 10))

/-- The written form of a character of a string. -/
def escape (c : Char) : List Char :=
  if c = '"' then ['\\', '"']
  else if c = '\\' then ['\\', '\\']
  else if c = '\x08' then ['\\', 'b']
  else if c = '\t' then ['\\', 't']
  else if c = '\n' then ['\\', 'n']
  else if c = '\x0c' then ['\\', 'f']
  else if c = '\r' then ['\\', 'r']
  else if c < ' ' then ['\\', 'u', '0', '0', hexDigit (c.toNat / 16), hexDigit (c.toNat % 16)]
  else [c]

/-- A string in quotes. -/
def printString (text : List Char) : List Char := '"' :: text.flatMap escape ++ ['"']

/-- Where a decimal point stands decides how a number is laid out: beyond `integerDigits` places
before the first digit, or `leadingZeros` after it, an exponent is written. -/
structure NumberLayout where
  integerDigits : Int
  leadingZeros : Int

/-- Numbers below ten to the sixteenth and from ten to the minus fifth on have no exponent. -/
def numberLayout : NumberLayout := ⟨16, 4⟩

/-- A decimal in a layout. A number without an exponent always has a point, and an exponent always
has a sign. -/
def NumberLayout.print (layout : NumberLayout) (d : Decimal.Scientific) : List Char :=
  let digits := Nat.toDigits 10 d.digits
  let point : Int := digits.length + d.exponent
  if 0 ≤ d.exponent ∧ point ≤ layout.integerDigits then
    digits ++ List.replicate d.exponent.toNat '0' ++ ['.', '0']
  else if 0 < point ∧ point ≤ layout.integerDigits then
    digits.take point.toNat ++ '.' :: digits.drop point.toNat
  else if -layout.leadingZeros ≤ point ∧ point ≤ 0 then
    ['0', '.'] ++ List.replicate (-point).toNat '0' ++ digits
  else
    let exponent := (if point > 0 then ['+'] else []) ++ (toString (point - 1)).toList
    match digits with
    | [digit] => digit :: 'e' :: exponent
    | digits => digits.take 1 ++ '.' :: digits.drop 1 ++ 'e' :: exponent

/-- A finite binary64 number. -/
def printFloat (x : Float) : List Char :=
  let sign := if x.toBits >>> 63 = 1 then ['-'] else []
  let magnitude := Decimal.Binary.ofBits x.toBits
  sign ++
    if magnitude.significand = 0 then ['0', '.', '0'] else numberLayout.print magnitude.shortest

mutual

/-- A value without white space. -/
def printValue : Json → List Char
  | .null => ['n', 'u', 'l', 'l']
  | .bool true => ['t', 'r', 'u', 'e']
  | .bool false => ['f', 'a', 'l', 's', 'e']
  | .integer value => (toString value).toList
  | .float value => printFloat value
  | .string text => printString text.toList
  | .array items => '[' :: printItems items ++ [']']
  | .object members => '\x7b' :: printMembers members ++ ['\x7d']

/-- Items with commas between them. -/
def printItems : List Json → List Char
  | [] => []
  | [item] => printValue item
  | item :: rest => printValue item ++ ',' :: printItems rest

/-- Members with commas between them. -/
def printMembers : List (String × Json) → List Char
  | [] => []
  | [(key, value)] => printString key.toList ++ ':' :: printValue value
  | (key, value) :: rest =>
    printString key.toList ++ ':' :: printValue value ++ ',' :: printMembers rest

end

/-- Prints a value. -/
def print (value : Json) : String := String.ofList (printValue value)

end BridgingHeader.Json
