import BridgingHeader.Text.Position
import BridgingHeader.Toml.Scalar

/-!
# Reading TOML

A document is a sequence of lines. Each is empty, or opens a table, or sets a key of the table that
was opened last. Values in brackets may span lines, values in braces may not.
-/

namespace BridgingHeader.Toml

/-- A fault and the text that was left when it was found. -/
abbrev Stop := Text.Stop Fault

/-! ### Blanks and comments -/

/-- Blanks within a line. -/
def isBlank (c : Char) : Bool := c = ' ' || c = '\t'

/-- The text from its first character that is no blank. -/
def skipBlanks (text : List Char) : List Char := text.dropWhile isBlank

/-- Characters other than tabs that have no written form. -/
def isControl (c : Char) : Bool := (c < ' ' && c ≠ '\t') || c = '\x7f'

/-- The text without a comment at its front. -/
def skipComment : List Char → List Char
  | '#' :: rest => rest.dropWhile fun c => !isControl c
  | text => text

/-- What follows a line ending; the end of the text also ends a line. -/
def lineEnd? : List Char → Option (List Char)
  | [] => some []
  | '\n' :: rest => some rest
  | '\r' :: '\n' :: rest => some rest
  | _ => none

/-- What follows the line, which may still have blanks and a comment. -/
def finishLine (text : List Char) : Except Stop (List Char) :=
  let text := skipComment (skipBlanks text)
  match lineEnd? text with
  | some rest => .ok rest
  | none => .error ⟨.expectedLineEnd, text⟩

/-- The text after blanks, line endings and comments. -/
def skipFiller (inComment : Bool) : List Char → Except Stop (List Char)
  | [] => .ok []
  | '\n' :: rest => skipFiller false rest
  | '\r' :: '\n' :: rest => skipFiller false rest
  | c :: rest =>
    if inComment then
      if isControl c then .error ⟨.invalidCharacter, c :: rest⟩ else skipFiller true rest
    else if isBlank c then skipFiller false rest
    else if c = '#' then skipFiller true rest
    else .ok (c :: rest)

/-! ### Strings -/

/-- Puts characters in front of the contents that were read. -/
def prepend (front : List Char) (read : Except Stop (List Char × List Char)) :
    Except Stop (List Char × List Char) :=
  read.map fun (contents, rest) => (front ++ contents, rest)

/-- The character with a code point in hexadecimal digits. -/
def codePoint? (digits : List Char) : Option Char := do
  let code ← number? 16 digits
  if h : code.isValidChar then some (Char.ofNatAux code h) else none

/-- What a backslash and one character stand for. -/
def unescape? : Char → Option Char
  | 'b' => some '\x08'
  | 't' => some '\t'
  | 'n' => some '\n'
  | 'f' => some '\x0c'
  | 'r' => some '\r'
  | '"' => some '"'
  | '\\' => some '\\'
  | _ => none

/-- The contents of a string in double quotes after the opening quote, and what follows the closing
one. -/
def readBasic : List Char → Except Stop (List Char × List Char)
  | [] => .error ⟨.unterminatedString, []⟩
  | '"' :: rest => .ok ([], rest)
  | '\\' :: 'u' :: a :: b :: c :: d :: rest =>
    match codePoint? [a, b, c, d] with
    | some c => prepend [c] (readBasic rest)
    | none => .error ⟨.invalidEscape, rest⟩
  | '\\' :: 'U' :: a :: b :: c :: d :: e :: f :: g :: h :: rest =>
    match codePoint? [a, b, c, d, e, f, g, h] with
    | some c => prepend [c] (readBasic rest)
    | none => .error ⟨.invalidEscape, rest⟩
  | '\\' :: c :: rest =>
    match unescape? c with
    | some c => prepend [c] (readBasic rest)
    | none => .error ⟨.invalidEscape, rest⟩
  | c :: rest =>
    if isControl c then .error ⟨.invalidCharacter, c :: rest⟩ else prepend [c] (readBasic rest)

/-- The contents of a string in single quotes after the opening quote, and what follows the closing
one. -/
def readLiteral : List Char → Except Stop (List Char × List Char)
  | [] => .error ⟨.unterminatedString, []⟩
  | '\'' :: rest => .ok ([], rest)
  | c :: rest =>
    if isControl c then .error ⟨.invalidCharacter, c :: rest⟩ else prepend [c] (readLiteral rest)

/-- A line ends here but for blanks. -/
def endsLine (text : List Char) : Bool :=
  match skipBlanks text with
  | '\n' :: _ | '\r' :: '\n' :: _ => true
  | _ => false

/-- The quotes that belong to the contents when three or more stand together: the last three close
the string, and at most two can stand before them. -/
def closing (quote : Char) : List Char → List Char × List Char
  | c :: d :: rest =>
    if c = quote ∧ d = quote then ([c, d], rest)
    else if c = quote then ([c], d :: rest)
    else ([], c :: d :: rest)
  | [c] => if c = quote then ([c], []) else ([], [c])
  | [] => ([], [])

/-- The contents of a string between triple double quotes, and what follows. While it is trimming,
after a backslash at the end of a line, blanks and line endings are skipped. -/
def readBasicLines (trimming : Bool) : List Char → Except Stop (List Char × List Char)
  | [] => .error ⟨.unterminatedString, []⟩
  | '\n' :: rest =>
    if trimming then readBasicLines true rest else prepend ['\n'] (readBasicLines false rest)
  | '\r' :: '\n' :: rest =>
    if trimming then readBasicLines true rest else prepend ['\n'] (readBasicLines false rest)
  | '"' :: '"' :: '"' :: rest => .ok (closing '"' rest)
  | '\\' :: 'u' :: a :: b :: c :: d :: rest =>
    match codePoint? [a, b, c, d] with
    | some c => prepend [c] (readBasicLines false rest)
    | none => .error ⟨.invalidEscape, rest⟩
  | '\\' :: 'U' :: a :: b :: c :: d :: e :: f :: g :: h :: rest =>
    match codePoint? [a, b, c, d, e, f, g, h] with
    | some c => prepend [c] (readBasicLines false rest)
    | none => .error ⟨.invalidEscape, rest⟩
  | '\\' :: c :: rest =>
    if endsLine (c :: rest) then readBasicLines true (c :: rest)
    else match unescape? c with
      | some c => prepend [c] (readBasicLines false rest)
      | none => .error ⟨.invalidEscape, rest⟩
  | c :: rest =>
    if trimming ∧ isBlank c then readBasicLines true rest
    else if isControl c then .error ⟨.invalidCharacter, c :: rest⟩
    else prepend [c] (readBasicLines false rest)

/-- The contents of a string between triple single quotes, and what follows. -/
def readLiteralLines : List Char → Except Stop (List Char × List Char)
  | [] => .error ⟨.unterminatedString, []⟩
  | '\n' :: rest => prepend ['\n'] (readLiteralLines rest)
  | '\r' :: '\n' :: rest => prepend ['\n'] (readLiteralLines rest)
  | '\'' :: '\'' :: '\'' :: rest => .ok (closing '\'' rest)
  | c :: rest =>
    if isControl c then .error ⟨.invalidCharacter, c :: rest⟩
    else prepend [c] (readLiteralLines rest)

/-- A line ending right after an opening triple quote does not belong to the contents. -/
def skipFirstLineEnd : List Char → List Char
  | '\n' :: rest => rest
  | '\r' :: '\n' :: rest => rest
  | text => text

/-- The string at the front of a text, if it starts with a quote. -/
def readString? : List Char → Option (Except Stop (List Char × List Char))
  | '"' :: '"' :: '"' :: rest => some (readBasicLines false (skipFirstLineEnd rest))
  | '\'' :: '\'' :: '\'' :: rest => some (readLiteralLines (skipFirstLineEnd rest))
  | '"' :: rest => some (readBasic rest)
  | '\'' :: rest => some (readLiteral rest)
  | _ => none

/-! ### Keys -/

/-- Characters of a key that is not quoted. -/
def isBareKey (c : Char) : Bool := c.isAlphanum || c = '_' || c = '-'

/-- One part of a key. -/
def readKeyPart : List Char → Except Stop (String × List Char)
  | '"' :: rest => (readBasic rest).map fun (contents, rest) => (String.ofList contents, rest)
  | '\'' :: rest => (readLiteral rest).map fun (contents, rest) => (String.ofList contents, rest)
  | text =>
    let part := text.takeWhile isBareKey
    if part = [] then .error ⟨.expectedKey, text⟩
    else .ok (String.ofList part, text.dropWhile isBareKey)

/-- Keys have fewer parts, and values are nested less deep, than this. -/
def nestingLimit : Nat := 80

/-- The parts of a key with dots between them, and what follows the blanks after it. -/
def readKey : Nat → List Char → Except Stop (List String × List Char)
  | 0, text => .error ⟨.nestedTooDeep, text⟩
  | limit + 1, text => do
    let (part, rest) ← readKeyPart (skipBlanks text)
    match skipBlanks rest with
    | '.' :: rest =>
      let (parts, rest) ← readKey limit rest
      return (part :: parts, rest)
    | rest => return ([part], rest)

/-- A key with at least one part, as the path to its table and its last part. -/
def splitKey (parts : List String) : List String × String :=
  (parts.dropLast, parts.getLast?.getD "")

/-! ### Values -/

/-- Characters of scalars that are not strings. -/
def isScalar (c : Char) : Bool :=
  c.isAlphanum || c = '_' || c = '+' || c = '-' || c = '.' || c = ':'

/-- The text of the scalar at the front of a text. A date may be followed by a blank and a time. -/
def scalarText (text : List Char) : List Char × List Char :=
  let token := text.takeWhile isScalar
  let rest := text.dropWhile isScalar
  match afterDate? token, rest with
  | some [], ' ' :: next :: more =>
    if next.isDigit then
      let time := (next :: more).takeWhile isScalar
      (token ++ ' ' :: time, (next :: more).dropWhile isScalar)
    else (token, rest)
  | _, _ => (token, rest)

/-- A fault in front of a text. -/
def stopAt (text : List Char) (result : Except Fault α) : Except Stop α :=
  result.mapError fun fault => ⟨fault, text⟩

mutual

/-- A value, in less than `depth` brackets and braces. Each step into a value or to a next item or
key takes one unit of fuel, and reading a text never takes more than two units for each character
and one more. -/
def readValue (depth : Nat) : Nat → List Char → Except Stop (Toml × List Char)
  | 0, text => .error ⟨.unexpectedEnd, text⟩
  | fuel + 1, text =>
    match text with
    | '[' :: rest => do
      if depth ≤ 1 then throw ⟨.nestedTooDeep, rest⟩
      let (items, rest) ← readItems (depth - 1) fuel rest
      return (.array items, rest)
    | '\x7b' :: rest => do
      if depth ≤ 1 then throw ⟨.nestedTooDeep, rest⟩
      match skipBlanks rest with
      | '\x7d' :: rest => return (.table .inline [], rest)
      | rest =>
        let (entries, rest) ← readPairs (depth - 1) fuel [] rest
        return (.table .inline entries, rest)
    | text =>
      match readString? text with
      | some read => read.map fun (contents, rest) => (.string (String.ofList contents), rest)
      | none =>
        let (token, rest) := scalarText text
        (stopAt text (scalar token)).map fun value => (value, rest)

/-- The items up to the closing bracket. -/
def readItems (depth : Nat) : Nat → List Char → Except Stop (List Toml × List Char)
  | 0, text => .error ⟨.unexpectedEnd, text⟩
  | fuel + 1, text => do
    match ← skipFiller false text with
    | ']' :: rest => return ([], rest)
    | rest =>
      let (item, rest) ← readValue depth fuel rest
      match ← skipFiller false rest with
      | ',' :: rest =>
        let (items, rest) ← readItems depth fuel rest
        return (item :: items, rest)
      | ']' :: rest => return ([item], rest)
      | rest => throw ⟨.expectedMark ']', rest⟩

/-- At least one pair, and the closing brace. -/
def readPairs (depth : Nat) : Nat → Entries → List Char → Except Stop (Entries × List Char)
  | 0, _, text => .error ⟨.unexpectedEnd, text⟩
  | fuel + 1, entries, text => do
    let (parts, rest) ← readKey (nestingLimit - 1) text
    match rest with
    | '=' :: rest =>
      let (value, rest) ← readValue depth fuel (skipBlanks rest)
      let (path, key) := splitKey parts
      let entries ← stopAt rest (addEntry path key value .inline entries)
      match skipBlanks rest with
      | ',' :: rest => readPairs depth fuel entries rest
      | '\x7d' :: rest => return (entries, rest)
      | rest => throw ⟨.expectedMark '\x7d', rest⟩
    | rest => throw ⟨.expectedMark '=', rest⟩

end

/-! ### Documents -/

/-- The table of the document so far, and the path of the header that was read last. -/
structure Document where
  entries : Entries := []
  opened : List String := []

/-- Opens the table of a header. -/
def Document.open (d : Document) (several : Bool) (parts : List String) :
    Except Fault Document := do
  let (path, key) := splitKey parts
  let entries ← changeAt false (fun _ entries =>
    if several then openNextTable key entries else openTable key entries) path .header d.entries
  return ⟨entries, parts⟩

/-- Sets a key of the table that was opened last. -/
def Document.set (d : Document) (parts : List String) (value : Toml) : Except Fault Document := do
  let (path, key) := splitKey parts
  let entries ← changeAt false (addEntry path key value) d.opened .header d.entries
  return { d with entries }

/-- What a line does to a document that is not yet finished, and what follows the line. -/
def readLine (d : Document) (text : List Char) : Except Stop (Document × List Char) := do
  match text with
  | '[' :: '[' :: rest =>
    let (parts, rest) ← readKey (nestingLimit - 1) rest
    match rest with
    | ']' :: ']' :: rest =>
      let rest ← finishLine rest
      return (← stopAt text (d.open true parts), rest)
    | rest => throw ⟨.expectedMark ']', rest⟩
  | '[' :: rest =>
    let (parts, rest) ← readKey (nestingLimit - 1) rest
    match rest with
    | ']' :: rest =>
      let rest ← finishLine rest
      return (← stopAt text (d.open false parts), rest)
    | rest => throw ⟨.expectedMark ']', rest⟩
  | text =>
    let (parts, rest) ← readKey (nestingLimit - 1) text
    match rest with
    | '=' :: rest =>
      let (value, rest) ← readValue nestingLimit (2 * rest.length + 1) (skipBlanks rest)
      let rest ← finishLine rest
      return (← stopAt text (d.set parts value), rest)
    | rest => throw ⟨.expectedMark '=', rest⟩

/-- The entries of a document after the lines of a text. Every line takes one unit of fuel, and a
text never has more lines than characters. -/
def readLines : Nat → Document → List Char → Except Stop Entries
  | 0, _, text => .error ⟨.unexpectedEnd, text⟩
  | fuel + 1, d, text => do
    match ← skipFiller false text with
    | [] => return d.entries
    | rest =>
      let (d, rest) ← readLine d rest
      readLines fuel d rest

/-- The entries of a document, which may start with a byte order mark. -/
def readDocument (text : List Char) : Except Stop Entries :=
  match text with
  | '\uFEFF' :: rest => readLines (rest.length + 1) {} rest
  | text => readLines (text.length + 1) {} text

/-- Reads a document; an error tells the position of its fault. -/
def read (text : String) : Except (Text.Located Fault) Entries :=
  (readDocument text.toList).mapError (·.locate text.toList)

/-- The wording of a read error. -/
def readErrorMessage (e : Text.Located Fault) : String :=
  s!"{e.fault.message} at line {e.position.line} column {e.position.column}"

end BridgingHeader.Toml
