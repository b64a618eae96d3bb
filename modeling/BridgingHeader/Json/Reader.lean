import BridgingHeader.Json.Basic
import BridgingHeader.Text.Position

/-!
# Reading JSON

A text is one value with white space around it. Objects keep the last member of each key, in the
order of the keys. Strings hold no raw control characters, and escapes of surrogates must come in
pairs. Arrays and objects may be nested less than 128 deep. A number beyond the range of binary64 is
refused.
-/

namespace BridgingHeader.Json

/-- Why a text is not a JSON value. -/
inductive Fault where
  | unexpectedEnd
  | expectedValue
  | expectedKey
  | expectedColon
  | expectedSeparator
  | trailingComma
  | trailingContent
  | controlCharacter
  | invalidEscape
  | loneSurrogate
  | invalidNumber
  | numberOutOfRange
  | nestedTooDeep
  deriving DecidableEq, Repr

/-- The wording of a fault. -/
def Fault.message : Fault → String
  | .unexpectedEnd => "unexpected end of text"
  | .expectedValue => "expected a value"
  | .expectedKey => "expected a key in quotes"
  | .expectedColon => "expected a colon"
  | .expectedSeparator => "expected a comma or the end"
  | .trailingComma => "trailing comma"
  | .trailingContent => "trailing characters"
  | .controlCharacter => "control character in a string"
  | .invalidEscape => "invalid escape"
  | .loneSurrogate => "lone surrogate"
  | .invalidNumber => "invalid number"
  | .numberOutOfRange => "number out of range"
  | .nestedTooDeep => "nested too deep"

/-- A fault and the text that was left when it was found. -/
abbrev Stop := Text.Stop Fault

/-- White space between tokens. -/
def isSpace (c : Char) : Bool := c = ' ' || c = '\n' || c = '\t' || c = '\r'

/-- The text from its first character that is no white space. -/
def skipSpace (text : List Char) : List Char := text.dropWhile isSpace

/-! ### Strings -/

/-- The value of a hexadecimal digit in either case. -/
def hexValue? (c : Char) : Option Nat :=
  if '0' ≤ c ∧ c ≤ '9' then some (c.toNat - '0'.toNat)
  else if 'a' ≤ c ∧ c ≤ 'f' then some (c.toNat - 'a'.toNat + 10)
  else if 'A' ≤ c ∧ c ≤ 'F' then some (c.toNat - 'A'.toNat + 10)
  else none

/-- The number that four hexadecimal digits write. -/
def codeUnit? (a b c d : Char) : Option Nat := do
  return (((← hexValue? a) * 16 + (← hexValue? b)) * 16 + (← hexValue? c)) * 16 + (← hexValue? d)

/-- What a backslash and a character other than `u` stand for. -/
def unescape? : Char → Option Char
  | '"' => some '"'
  | '\\' => some '\\'
  | '/' => some '/'
  | 'b' => some '\x08'
  | 'f' => some '\x0c'
  | 'n' => some '\n'
  | 'r' => some '\r'
  | 't' => some '\t'
  | _ => none

/-- The first half of a pair of surrogates. -/
def isHighSurrogate (unit : Nat) : Bool := 0xD800 ≤ unit && unit < 0xDC00

/-- The second half of a pair of surrogates. -/
def isLowSurrogate (unit : Nat) : Bool := 0xDC00 ≤ unit && unit < 0xE000

/-- The contents of a string after its opening quote, and what follows the closing one. -/
def readStringTail : List Char → Except Stop (List Char × List Char)
  | [] => .error ⟨.unexpectedEnd, []⟩
  | '"' :: rest => .ok ([], rest)
  | '\\' :: 'u' :: a :: b :: c :: d :: rest =>
    match codeUnit? a b c d with
    | none => .error ⟨.invalidEscape, rest⟩
    | some unit =>
      if isHighSurrogate unit then
        match rest with
        | '\\' :: 'u' :: e :: f :: g :: h :: rest =>
          match codeUnit? e f g h with
          | none => .error ⟨.invalidEscape, rest⟩
          | some low =>
            if isLowSurrogate low then
              (readStringTail rest).map fun (contents, left) =>
                (Char.ofNat (0x10000 + (unit - 0xD800) * 0x400 + (low - 0xDC00)) :: contents, left)
            else .error ⟨.loneSurrogate, rest⟩
        | rest => .error ⟨.loneSurrogate, rest⟩
      else if isLowSurrogate unit then .error ⟨.loneSurrogate, rest⟩
      else
        (readStringTail rest).map fun (contents, left) => (Char.ofNat unit :: contents, left)
  | '\\' :: c :: rest =>
    match unescape? c with
    | some c => (readStringTail rest).map fun (contents, left) => (c :: contents, left)
    | none => .error ⟨.invalidEscape, rest⟩
  | c :: rest =>
    if c < ' ' then .error ⟨.controlCharacter, c :: rest⟩
    else if c = '\\' then .error ⟨.unexpectedEnd, []⟩
    else (readStringTail rest).map fun (contents, left) => (c :: contents, left)

/-! ### Numbers -/

/-- The value of a decimal digit. -/
def digitValue (c : Char) : Nat := c.toNat - '0'.toNat

/-- Appends digits to a significand as long as it fits into 64 bits, and counts them. -/
def accumulate (significand count : Nat) : List Char → Nat × Nat × List Char
  | [] => (significand, count, [])
  | c :: rest =>
    let longer := significand * 10 + digitValue c
    if c.isDigit ∧ longer < Nat.pow 2 64 then accumulate longer (count + 1) rest
    else (significand, count, c :: rest)

/-- A digit is next. -/
def startsWithDigit (text : List Char) : Bool := (text.head?.map Char.isDigit).getD false

/-- A power of ten, rounded. -/
def powerOfTen (exponent : Nat) : Float := Float.ofScientific 1 false exponent

/-- A number divided by a power of ten, in steps that are no larger than the range allows. -/
def divideByPower (x : Float) (exponent : Nat) : Float :=
  if exponent ≤ 308 then x / powerOfTen exponent
  else if x == 0 then x
  else divideByPower (x / powerOfTen 308) (exponent - 308)
termination_by exponent

/-- The rounded significand, scaled by a rounded power of ten; nothing beyond the range. -/
def scale? (significand : Nat) (exponent : Int) : Option Float :=
  let x := significand.toUInt64.toFloat
  if exponent < 0 then some (divideByPower x (-exponent).toNat)
  else if significand = 0 then some x
  else if exponent ≤ 308 then
    let scaled := x * powerOfTen exponent.toNat
    if scaled.isInf then none else some scaled
  else none

/-- A number with a sign. -/
def floatNumber (negative : Bool) (significand : Nat) (exponent : Int) (rest : List Char) :
    Except Stop (Json × List Char) :=
  match scale? significand exponent with
  | some x => .ok (.float (if negative then -x else x), rest)
  | none => .error ⟨.numberOutOfRange, rest⟩

/-- A number whose exponent is next, if it has one. -/
def readExponent (negative : Bool) (significand : Nat) (exponent : Int) (text : List Char) :
    Except Stop (Json × List Char) :=
  match text with
  | c :: rest =>
    if c = 'e' ∨ c = 'E' then
      let (down, rest) := match rest with
        | '+' :: rest => (false, rest)
        | '-' :: rest => (true, rest)
        | rest => (false, rest)
      if startsWithDigit rest then
        let digits := rest.takeWhile Char.isDigit
        let value : Nat := digits.foldl (fun n c => n * 10 + digitValue c) 0
        let rest := rest.dropWhile Char.isDigit
        floatNumber negative significand (if down then exponent - value else exponent + value) rest
      else .error ⟨.invalidNumber, rest⟩
    else floatNumber negative significand exponent text
  | [] => floatNumber negative significand exponent text

/-- A number whose fraction is next, after its point. Digits that the significand cannot take are
dropped. -/
def readFraction (negative : Bool) (significand : Nat) (exponent : Int) (text : List Char) :
    Except Stop (Json × List Char) :=
  let (significand, count, rest) := accumulate significand 0 text
  if count = 0 ∧ !startsWithDigit rest then .error ⟨.invalidNumber, rest⟩
  else readExponent negative significand (exponent - count) (rest.dropWhile Char.isDigit)

/-- An integer of 64 bits, or a float if the number is larger, or zero with a sign. -/
def wholeNumber (negative : Bool) (significand : Nat) : Json :=
  if negative then
    if significand = 0 ∨ significand > Nat.pow 2 63 then .float (-significand.toUInt64.toFloat)
    else .integer (-significand)
  else .integer significand

/-- A number after its sign. -/
def readNumber (negative : Bool) : List Char → Except Stop (Json × List Char)
  | [] => .error ⟨.unexpectedEnd, []⟩
  | first :: rest =>
    if first.isDigit then
      let (significand, _, rest) :=
        if first = '0' then (0, 0, rest) else accumulate (digitValue first) 1 rest
      let dropped := rest.takeWhile Char.isDigit
      let after := rest.dropWhile Char.isDigit
      if first = '0' ∧ dropped ≠ [] then .error ⟨.invalidNumber, rest⟩
      else match after with
        | '.' :: after => readFraction negative significand dropped.length after
        | after =>
          if dropped = [] ∧ after.head? ≠ some 'e' ∧ after.head? ≠ some 'E' then
            .ok (wholeNumber negative significand, after)
          else readExponent negative significand dropped.length after
    else .error ⟨.invalidNumber, first :: rest⟩

/-! ### Values -/

mutual

/-- A value after white space, in at most `depth` arrays and objects. Each step from a value to its
contents, from the contents to an inner value or to the next item or member takes one unit of fuel,
and reading a text never takes more than two units for each character and one more. -/
def readValue (depth : Nat) : Nat → List Char → Except Stop (Json × List Char)
  | 0, text => .error ⟨.unexpectedEnd, text⟩
  | fuel + 1, text =>
    match skipSpace text with
    | [] => .error ⟨.unexpectedEnd, []⟩
    | 'n' :: 'u' :: 'l' :: 'l' :: rest => .ok (.null, rest)
    | 't' :: 'r' :: 'u' :: 'e' :: rest => .ok (.bool true, rest)
    | 'f' :: 'a' :: 'l' :: 's' :: 'e' :: rest => .ok (.bool false, rest)
    | '"' :: rest => do
      let (contents, rest) ← readStringTail rest
      return (.string (String.ofList contents), rest)
    | '[' :: rest => do
      if depth ≤ 1 then throw ⟨.nestedTooDeep, rest⟩
      match skipSpace rest with
      | ']' :: rest => return (.array [], rest)
      | rest =>
        let (items, rest) ← readItems (depth - 1) fuel rest
        return (.array items, rest)
    | '\x7b' :: rest => do
      if depth ≤ 1 then throw ⟨.nestedTooDeep, rest⟩
      match skipSpace rest with
      | '\x7d' :: rest => return (.object [], rest)
      | rest =>
        let (members, rest) ← readMembers (depth - 1) fuel [] rest
        return (.object members, rest)
    | '-' :: rest => readNumber true rest
    | c :: rest =>
      if c.isDigit then readNumber false (c :: rest) else .error ⟨.expectedValue, c :: rest⟩

/-- At least one item, and the end of the array. -/
def readItems (depth : Nat) : Nat → List Char → Except Stop (List Json × List Char)
  | 0, text => .error ⟨.unexpectedEnd, text⟩
  | fuel + 1, text => do
    let (item, rest) ← readValue depth fuel text
    match skipSpace rest with
    | ',' :: rest =>
      let (items, rest) ← readItems depth fuel rest
      return (item :: items, rest)
    | ']' :: rest => return ([item], rest)
    | rest => throw ⟨.expectedSeparator, rest⟩

/-- At least one member, and the end of the object, added to earlier members. -/
def readMembers (depth : Nat) : Nat → List (String × Json) → List Char →
    Except Stop (List (String × Json) × List Char)
  | 0, _, text => .error ⟨.unexpectedEnd, text⟩
  | fuel + 1, members, text => do
    match skipSpace text with
    | '"' :: rest =>
      let (key, rest) ← readStringTail rest
      match skipSpace rest with
      | ':' :: rest =>
        let (value, rest) ← readValue depth fuel rest
        let members := insertMember (String.ofList key) value members
        match skipSpace rest with
        | ',' :: rest => readMembers depth fuel members rest
        | '\x7d' :: rest => return (members, rest)
        | rest => throw ⟨.expectedSeparator, rest⟩
      | rest => throw ⟨.expectedColon, rest⟩
    | rest => throw ⟨.expectedKey, rest⟩

end

/-- Values may stand in fewer arrays and objects than this. -/
def nestingLimit : Nat := 128

/-- The value of a text. -/
def readDocument (text : List Char) : Except Stop Json := do
  let (value, rest) ← readValue nestingLimit (2 * text.length + 1) text
  match skipSpace rest with
  | [] => return value
  | rest => throw ⟨.trailingContent, rest⟩

/-- Reads a text; an error tells the position of its fault. -/
def read (text : String) : Except (Text.Located Fault) Json :=
  (readDocument text.toList).mapError (·.locate text.toList)

/-- The wording of a read error. -/
def readErrorMessage (e : Text.Located Fault) : String :=
  s!"{e.fault.message} at line {e.position.line} column {e.position.column}"

end BridgingHeader.Json
