/-!
# TOML tables

A document builds one table out of headers and key-value pairs. How a table came into being decides
whether a later header or dotted key may extend it.
-/

namespace BridgingHeader

namespace Toml

/-- How a table came into being. -/
inductive TableOrigin where
  /-- By a header of its own, or as the table of the whole document. -/
  | header
  /-- By a header of a table inside it. -/
  | implied
  /-- By a dotted key. -/
  | dotted
  /-- By braces in a value. -/
  | inline
  deriving DecidableEq, Repr

end Toml

/-- A TOML value. Numbers and dates keep the text that writes them. -/
inductive Toml where
  | string (text : String)
  | boolean (value : Bool)
  | number (text : String)
  | date (text : String)
  | array (items : List Toml)
  | table (origin : Toml.TableOrigin) (entries : List (String × Toml))
  /-- The tables under headers in double brackets. -/
  | tables (items : List (List (String × Toml)))
  deriving Inhabited

namespace Toml

/-- The entries of a table. -/
abbrev Entries := List (String × Toml)

/-- Why a text is not a document. -/
inductive Fault where
  | unexpectedEnd
  | expectedKey
  | expectedMark (mark : Char)
  | expectedLineEnd
  | invalidValue
  | invalidEscape
  | invalidCharacter
  | unterminatedString
  | numberOutOfRange
  | nestedTooDeep
  /-- A key is set twice, or a table is opened twice. -/
  | duplicateKey (key : String)
  /-- A key that is to lead to a table leads to another value. -/
  | notTable (key : String)
  deriving DecidableEq, Repr

/-- The wording of a fault. -/
def Fault.message : Fault → String
  | .unexpectedEnd => "unexpected end of text"
  | .expectedKey => "expected a key"
  | .expectedMark mark => s!"expected `{mark}`"
  | .expectedLineEnd => "expected the end of the line"
  | .invalidValue => "invalid value"
  | .invalidEscape => "invalid escape sequence"
  | .invalidCharacter => "invalid character"
  | .unterminatedString => "unterminated string"
  | .numberOutOfRange => "number out of range"
  | .nestedTooDeep => "nested too deep"
  | .duplicateKey key => s!"duplicate key `{key}`"
  | .notTable key => s!"`{key}` is not a table"

/-- Entries with the value of a key set, in place if the key is present. -/
def setEntry (key : String) (value : Toml) : Entries → Entries
  | [] => [(key, value)]
  | entry :: rest =>
    if entry.1 = key then (key, value) :: rest else entry :: setEntry key value rest

/-- Changes the table at the end of a path of keys, creating the tables on the way that are missing.
A dotted path may only pass tables that have no header and no braces of their own, and no path may
pass braces. A path through several tables under one key passes the last of them. -/
def changeAt (dotted : Bool) (change : TableOrigin → Entries → Except Fault Entries) :
    List String → TableOrigin → Entries → Except Fault Entries
  | [], origin, entries => change origin entries
  | key :: path, _, entries =>
    match entries.lookup key with
    | none => do
      let origin := if dotted then .dotted else .implied
      let inner ← changeAt dotted change path origin []
      return setEntry key (.table origin inner) entries
    | some (.table origin inner) => do
      if origin = .inline ∨ (dotted ∧ origin = .header) then throw (.duplicateKey key)
      let inner ← changeAt dotted change path origin inner
      return setEntry key (.table origin inner) entries
    | some (.tables items) => do
      let inner ← changeAt dotted change path .header (items.getLast?.getD [])
      return setEntry key (.tables (items.dropLast ++ [inner])) entries
    | some _ => throw (.notTable key)

/-- Sets a key, which must be new, in a table that was created as the path to it demands. -/
def addEntry (path : List String) (key : String) (value : Toml) (origin : TableOrigin)
    (entries : Entries) : Except Fault Entries :=
  changeAt true (fun origin entries =>
    if origin = .dotted ↔ path = [] then throw (.duplicateKey key)
    else if (entries.lookup key).isSome then throw (.duplicateKey key)
    else return entries ++ [(key, value)]) path origin entries

/-- Opens the table of a header. A table that other headers implied may be opened, once. -/
def openTable (key : String) (entries : Entries) : Except Fault Entries :=
  match entries.lookup key with
  | none => return entries ++ [(key, .table .header [])]
  | some (.table .implied inner) => return setEntry key (.table .header inner) entries
  | some _ => throw (.duplicateKey key)

/-- Opens one more table under a header in double brackets. -/
def openNextTable (key : String) (entries : Entries) : Except Fault Entries :=
  match entries.lookup key with
  | none => return entries ++ [(key, .tables [[]])]
  | some (.tables items) => return setEntry key (.tables (items ++ [[]])) entries
  | some _ => throw (.duplicateKey key)

end Toml

end BridgingHeader
