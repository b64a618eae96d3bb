import BridgingHeader.Failure

/-!
# Compiler flags in a build log

A dry run prints the compiler invocations it would make, one on a line. Spaces separate the tokens
of a line, and a backslash before a space keeps the space in its token. Of the tokens of an
invocation only those flags are picked that another run on the same file needs.
-/

namespace BridgingHeader.CompilerFlags

/-- How a flag takes its value. -/
inductive FlagKind where
  /-- The value follows in the same token. -/
  | glued
  /-- The value is the next token. -/
  | split
  deriving DecidableEq, Repr

/-- The beginnings of the flags that are picked. -/
def flagPrefixes : List (List Char × FlagKind) :=
  [("-I".toList, .glued), ("-D".toList, .glued), ("-F".toList, .glued),
   ("-mmacosx-version-min".toList, .glued), ("-iquote".toList, .split), ("-arch".toList, .split),
   ("-isysroot".toList, .split)]

/-- The kind of a token, told by the first prefix that fits. -/
def classify (token : List Char) : Option FlagKind :=
  (flagPrefixes.find? fun entry => entry.1.isPrefixOf token).map Prod.snd

/-- Stands for an escaped space while a line is cut into tokens. -/
def keptSpace : Char := '\x00'

/-- A line with each backslash and following space replaced by the mark of a kept space. -/
def markKeptSpaces : List Char → List Char
  | '\\' :: ' ' :: rest => keptSpace :: markKeptSpaces rest
  | c :: rest => c :: markKeptSpaces rest
  | [] => []

/-- A token with its marks turned into spaces. -/
def restoreSpaces (token : List Char) : List Char :=
  token.map fun c => if c = keptSpace then ' ' else c

/-- The tokens of a line. -/
def tokenize (line : List Char) : List (List Char) :=
  ((Text.pieces ' ' (markKeptSpaces line)).filter (· ≠ [])).map restoreSpaces

/-- The flags among a list of tokens. Every token but the last is looked at, also one that has just
been picked as the value of the token before it. -/
def pick : List (List Char) → List (List Char)
  | token :: next :: rest =>
    (match classify token with
      | some .glued => [token]
      | some .split => [token, next]
      | none => []) ++ pick (next :: rest)
  | _ => []

/-- The flags on a line. -/
def ofLine (line : List Char) : List (List Char) := pick (tokenize line)

/-- What the line of the invocation for a file contains. -/
def invocationMark (unit : Path) : List Char := ['-', 'c', ' '] ++ unit.text.toList

/-- The first line of a log that shows the invocation for a file. -/
def invocation? (log : List Char) (unit : Path) : Option (List Char) :=
  (Text.lines log).find? (Text.occursIn (invocationMark unit))

/-- The flags with which a log compiles a file. -/
def extract (log : String) (unit : Path) : Except Failure (List String) :=
  match invocation? log.toList unit with
  | some line => return (ofLine line).map String.ofList
  | none => throw (.compileLineNotFound unit)

end BridgingHeader.CompilerFlags
