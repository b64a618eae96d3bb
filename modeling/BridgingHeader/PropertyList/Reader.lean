import BridgingHeader.PropertyList.Basic
import BridgingHeader.Text.Blank
import BridgingHeader.Text.Position

/-!
# Reading property lists

A document is one value surrounded by trivia. Trivia are blank characters, comments between `/*`
and the next `*/`, and comments from `//` to the end of the line. A value is a dictionary
`{ key = value; … }`, an array `( item, … )` whose last comma is optional, or a string, quoted or
bare.

Reading functions take the text that is left and give back what remains after them. When they stop,
they say why and where: the fault comes with the text that was left at that point.
-/

namespace BridgingHeader.PropertyList

open Text (isBlank)

/-- Why a text is not a document. -/
inductive Fault where
  | unterminatedComment
  /-- A punctuation mark is missing; `found` is the next character, if there is one. -/
  | expected (mark : Char) (found : Option Char)
  | unexpectedEnd
  | unexpectedCharacter (found : Char)
  /-- An array item is followed by neither a comma nor the closing parenthesis. -/
  | unseparatedItem (found : Char)
  | unterminatedArray
  | unterminatedString
  | unterminatedEscape
  /-- `\U` is not followed by four hexadecimal digits of a character. -/
  | invalidCodePoint
  | trailingContent
  deriving DecidableEq, Repr

/-- The wording of a fault. -/
def Fault.message : Fault → String
  | .unterminatedComment => "unterminated comment"
  | .expected mark (some found) => s!"expected `{mark}`, found `{found}`"
  | .expected mark none => s!"expected `{mark}`, found end of input"
  | .unexpectedEnd => "unexpected end of input"
  | .unexpectedCharacter found => s!"unexpected character `{found}`"
  | .unseparatedItem found => s!"expected `,` or `)`, found `{found}`"
  | .unterminatedArray => "unterminated array"
  | .unterminatedString => "unterminated string"
  | .unterminatedEscape => "unterminated escape sequence"
  | .invalidCodePoint => "invalid \\U escape"
  | .trailingContent => "unexpected content after the root value"

/-- A fault and the text that was left when it was found. -/
abbrev Stop := Text.Stop Fault

/-- A fault and its position in the document. -/
abbrev ReadError := Text.Located Fault

/-- The wording of a read error: its position and its fault. -/
def readErrorMessage (e : ReadError) : String :=
  s!"line {e.position.line}, column {e.position.column}: {e.fault.message}"

/-- The characters of which bare strings consist when they are read. -/
def isBare (c : Char) : Bool :=
  c.isAlphanum || c = '_' || c = '$' || c = '/' || c = ':' || c = '.' || c = '-' || c = '+'

/-! ### Trivia -/

/-- Whether a point of a text lies inside a comment. -/
inductive Surrounding where
  | outside
  | blockComment
  | lineComment
  deriving DecidableEq, Repr

/-- What is left after the trivia at the front of a text. -/
def skipTrivia : Surrounding → List Char → Except Stop (List Char)
  | .outside, '/' :: '*' :: rest => skipTrivia .blockComment rest
  | .outside, '/' :: '/' :: rest => skipTrivia .lineComment rest
  | .outside, c :: rest => if isBlank c then skipTrivia .outside rest else .ok (c :: rest)
  | .outside, [] => .ok []
  | .blockComment, '*' :: '/' :: rest => skipTrivia .outside rest
  | .blockComment, _ :: rest => skipTrivia .blockComment rest
  | .blockComment, [] => .error ⟨.unterminatedComment, []⟩
  | .lineComment, '\n' :: rest => skipTrivia .outside rest
  | .lineComment, _ :: rest => skipTrivia .lineComment rest
  | .lineComment, [] => .ok []

/-- What is left after trivia and a punctuation mark. -/
def expectMark (mark : Char) (text : List Char) : Except Stop (List Char) := do
  match ← skipTrivia .outside text with
  | [] => throw ⟨.expected mark none, []⟩
  | c :: rest => if c = mark then return rest else throw ⟨.expected mark (some c), c :: rest⟩

/-! ### Strings -/

/-- The value of a hexadecimal digit in either case. -/
def hexDigit? (c : Char) : Option Nat :=
  if '0' ≤ c ∧ c ≤ '9' then some (c.toNat - '0'.toNat)
  else if 'a' ≤ c ∧ c ≤ 'f' then some (c.toNat - 'a'.toNat + 10)
  else if 'A' ≤ c ∧ c ≤ 'F' then some (c.toNat - 'A'.toNat + 10)
  else none

/-- The character with a code point, unless the number is none. -/
def character? (code : Nat) : Option Char :=
  if h : code.isValidChar then some (Char.ofNatAux code h) else none

/-- The character that four hexadecimal digits name. -/
def codePoint? (a b c d : Char) : Option Char := do
  let a ← hexDigit? a
  let b ← hexDigit? b
  let c ← hexDigit? c
  let d ← hexDigit? d
  character? (((a * 16 + b) * 16 + c) * 16 + d)

/-- Where a code point of at most `count` digits turns out to be invalid: after the first character
that is no digit, or after the digits. -/
def afterCodePoint : Nat → List Char → List Char
  | 0, text => text
  | _ + 1, [] => []
  | count + 1, c :: rest => if (hexDigit? c).isSome then afterCodePoint count rest else rest

/-- What a backslash and a character other than `U` stand for in a quoted string. -/
def unescape : Char → Char
  | 'n' => '\n'
  | 't' => '\t'
  | 'r' => '\r'
  | 'a' => '\x07'
  | 'b' => '\x08'
  | 'f' => '\x0c'
  | 'v' => '\x0b'
  | c => c

/-- The contents of a quoted string after its opening quote, and what follows the closing one. -/
def readQuoted (quote : Char) : List Char → Except Stop (List Char × List Char)
  | [] => .error ⟨.unterminatedString, []⟩
  | c :: rest =>
    if c = quote then .ok ([], rest)
    else if c = '\\' then
      match rest with
      | [] => .error ⟨.unterminatedEscape, []⟩
      | 'U' :: i :: j :: k :: l :: after =>
        match codePoint? i j k l with
        | some c => (readQuoted quote after).map fun (contents, left) => (c :: contents, left)
        | none => .error ⟨.invalidCodePoint, afterCodePoint 4 (i :: j :: k :: l :: after)⟩
      | 'U' :: digits => .error ⟨.invalidCodePoint, afterCodePoint 4 digits⟩
      | escaped :: after =>
        (readQuoted quote after).map fun (contents, left) => (unescape escaped :: contents, left)
    else (readQuoted quote rest).map fun (contents, left) => (c :: contents, left)

/-- A quoted or bare string at the front of a text. -/
def readString : List Char → Except Stop (String × List Char)
  | [] => .error ⟨.unexpectedEnd, []⟩
  | c :: rest =>
    if c = '"' ∨ c = '\'' then
      (readQuoted c rest).map fun (contents, left) => (String.ofList contents, left)
    else if isBare c then
      .ok (String.ofList ((c :: rest).takeWhile isBare), (c :: rest).dropWhile isBare)
    else .error ⟨.unexpectedCharacter c, c :: rest⟩

/-! ### Values -/

mutual

/-- A value after trivia. Each step from a value to its contents, from the contents to an inner
value or to the next entry or item takes one unit of fuel, and reading a text never takes more than
two units for each character and one more. -/
def readValue : Nat → List Char → Except Stop (PropertyList × List Char)
  | 0, text => throw ⟨.unexpectedEnd, text⟩
  | fuel + 1, text => do
    match ← skipTrivia .outside text with
    | '{' :: rest =>
      let (contents, left) ← readEntries fuel .empty rest
      return (.dictionary contents, left)
    | '(' :: rest =>
      let (items, left) ← readItems fuel rest
      return (.array items, left)
    | rest =>
      let (contents, left) ← readString rest
      return (.string contents, left)

/-- The entries up to the closing brace, inserted into a dictionary. -/
def readEntries : Nat → Dictionary PropertyList → List Char →
    Except Stop (Dictionary PropertyList × List Char)
  | 0, _, text => throw ⟨.unexpectedEnd, text⟩
  | fuel + 1, contents, text => do
    match ← skipTrivia .outside text with
    | '}' :: rest => return (contents, rest)
    | rest =>
      let (key, rest) ← readString rest
      let rest ← expectMark '=' rest
      let (value, rest) ← readValue fuel rest
      let rest ← expectMark ';' rest
      readEntries fuel (contents.insert key value) rest

/-- The items up to the closing parenthesis. -/
def readItems : Nat → List Char → Except Stop (List PropertyList × List Char)
  | 0, text => throw ⟨.unexpectedEnd, text⟩
  | fuel + 1, text => do
    match ← skipTrivia .outside text with
    | ')' :: rest => return ([], rest)
    | rest =>
      let (item, rest) ← readValue fuel rest
      match ← skipTrivia .outside rest with
      | ',' :: rest =>
        let (items, left) ← readItems fuel rest
        return (item :: items, left)
      | ')' :: rest => return ([item], rest)
      | c :: rest => throw ⟨.unseparatedItem c, c :: rest⟩
      | [] => throw ⟨.unterminatedArray, []⟩

end

/-- The value of a document. -/
def readDocument (text : List Char) : Except Stop PropertyList := do
  let (value, rest) ← readValue (2 * text.length + 1) text
  match ← skipTrivia .outside rest with
  | [] => return value
  | rest => throw ⟨.trailingContent, rest⟩

/-- Reads a document; an error tells the position of its fault. -/
def read (text : String) : Except ReadError PropertyList :=
  (readDocument text.toList).mapError (·.locate text.toList)

end BridgingHeader.PropertyList
