import BridgingHeader.PropertyList.Basic
import BridgingHeader.Text.Lines

/-!
# Printing property lists

A printed document starts with a line that marks its encoding. Entries and items stand on lines of
their own, indented by one tab for each dictionary or array around them. A string is quoted unless
all its characters are harmless and no comment opener occurs in it.
-/

namespace BridgingHeader.PropertyList

/-- The line at the head of every document. -/
def heading : List Char := "// !$*UTF8*$!".toList

/-- The characters that may stand in a string that is written bare. -/
def isHarmless (c : Char) : Bool :=
  c.isAlphanum || c = '_' || c = '$' || c = '/' || c = ':' || c = '.'

/-- A string is quoted if it is empty, if a comment opener occurs in it, or if not all its
characters are harmless. -/
def needsQuotes (contents : List Char) : Bool :=
  contents.isEmpty || Text.occursIn ['/', '/'] contents || Text.occursIn ['/', '*'] contents
    || !contents.all isHarmless

/-- The written form of a character of a quoted string. -/
def escape : Char → List Char
  | '"' => ['\\', '"']
  | '\\' => ['\\', '\\']
  | '\n' => ['\\', 'n']
  | '\t' => ['\\', 't']
  | '\r' => ['\\', 'r']
  | c => [c]

/-- A string as it is written. -/
def printString (contents : List Char) : List Char :=
  if needsQuotes contents then '"' :: contents.flatMap escape ++ ['"'] else contents

/-- As many tabs as a value lies deep. -/
def indent (depth : Nat) : List Char := List.replicate depth '\t'

mutual

/-- A value at a depth, from its first character on, in front of what follows it. -/
def printValue (depth : Nat) : PropertyList → List Char → List Char
  | .string contents, rest => printString contents.toList ++ rest
  | .array items, rest =>
    '(' :: '\n' :: printItems (depth + 1) items (indent depth ++ ')' :: rest)
  | .dictionary ⟨entries⟩, rest =>
    '{' :: '\n' :: printEntries (depth + 1) entries (indent depth ++ '}' :: rest)

/-- Array items, one on a line, in front of what follows them. -/
def printItems (depth : Nat) : List PropertyList → List Char → List Char
  | [], rest => rest
  | item :: items, rest =>
    indent depth ++ printValue depth item (',' :: '\n' :: printItems depth items rest)

/-- Dictionary entries, one on a line, in front of what follows them. -/
def printEntries (depth : Nat) : List (String × PropertyList) → List Char → List Char
  | [], rest => rest
  | (key, value) :: entries, rest =>
    indent depth ++ printString key.toList ++ ' ' :: '=' :: ' ' ::
      printValue depth value (';' :: '\n' :: printEntries depth entries rest)

end

/-- The document of a value. -/
def printDocument (value : PropertyList) : List Char :=
  heading ++ '\n' :: printValue 0 value ['\n']

/-- Prints a value as a document. -/
def print (value : PropertyList) : String := String.ofList (printDocument value)

end BridgingHeader.PropertyList
