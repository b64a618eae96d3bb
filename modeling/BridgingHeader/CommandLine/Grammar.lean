/-!
# Command line grammar

Arguments are options, values of options, and words. An option is written with two dashes and its
name, or with one dash and its letter, and letters may share a dash. A value follows as the next
argument or is attached. After two dashes alone all arguments are words.
-/

namespace BridgingHeader.CommandLine

/-- An option of a command. -/
structure OptionSpec where
  name : String
  letter : Option Char := none
  takesValue : Bool := false
  /-- The values that are accepted. -/
  accepts : String → Bool := fun _ => true

/-- What may stand in a command line. -/
structure Grammar where
  options : List OptionSpec
  /-- The words that must be given, by the values that are accepted for them. -/
  words : List (String → Bool) := []
  /-- Words after two dashes are kept apart from the others. -/
  keepsRest : Bool := false
  /-- Words at which the command line of another command starts. -/
  commands : List String := []
  /-- The version can be asked for. -/
  hasVersion : Bool := false

/-- Why a command line is not carried out. -/
inductive Refusal where
  | help
  | version
  | invalid
  deriving DecidableEq, Repr

/-- An option and the value that was read for it from an argument of its own. -/
structure ValueRead where
  option : String
  value : String
  /-- The option accepts the value. -/
  accepted : Bool
  deriving DecidableEq, Repr

/-- What was found in a command line. -/
structure Matches where
  /-- Options with their values, in the order in which they were given. -/
  given : List (String × Option String) := []
  words : List String := []
  rest : List String := []
  /-- The last option with a value of its own. It counts as given once the next option or word is
  read, or the command line ends. -/
  pending : Option ValueRead := none
  deriving DecidableEq, Repr

namespace Matches

/-- An option was given. -/
def has (m : Matches) (name : String) : Bool := m.given.any (·.1 = name)

/-- The value that was given for an option. -/
def value? (m : Matches) (name : String) : Option String := (m.given.lookup name).join

/-- Adds an option, which must not have been given before. -/
def give (m : Matches) (name : String) (value : Option String) : Except Refusal Matches :=
  if m.has name then throw .invalid else return { m with given := m.given ++ [(name, value)] }

/-- Counts the pending option as given. -/
def settle (m : Matches) : Except Refusal Matches :=
  match m.pending with
  | none => return m
  | some read =>
    if read.accepted then { m with pending := none }.give read.option (some read.value)
    else throw .invalid

/-- Adds an option without a value. Asking for help or the version ends the reading. -/
def addFlag (m : Matches) (name : String) : Except Refusal Matches := do
  let m ← (← m.settle).give name none
  if name = "help" then throw .help
  else if name = "version" then throw .version
  else return m

/-- Adds an option to which its value is attached. -/
def addAttached (m : Matches) (option : OptionSpec) (value : List Char) :
    Except Refusal Matches := do
  let value := String.ofList value
  let m ← m.settle
  if option.accepts value then m.give option.name (some value) else throw .invalid

/-- Adds an option whose value is an argument of its own. -/
def addPending (m : Matches) (option : OptionSpec) (value : String) : Matches :=
  { m with pending := some ⟨option.name, value, option.accepts value⟩ }

/-- Adds a word, for which there must be a place. -/
def addWord (m : Matches) (g : Grammar) (word : String) : Except Refusal Matches := do
  let m ← m.settle
  match g.words[m.words.length]? with
  | some accepts =>
    if accepts word then return { m with words := m.words ++ [word] } else throw .invalid
  | none => throw .invalid

/-- Adds a word after two dashes. -/
def addRest (m : Matches) (g : Grammar) (word : String) : Except Refusal Matches :=
  if g.keepsRest then do
    let m ← m.settle
    return { m with rest := m.rest ++ [word] }
  else m.addWord g word

end Matches

/-- The option that asks for help. -/
def helpOption : OptionSpec := { name := "help", letter := some 'h' }

/-- The option that asks for the version. -/
def versionOption : OptionSpec := { name := "version", letter := some 'V' }

/-- All options of a grammar. -/
def Grammar.allOptions (g : Grammar) : List OptionSpec :=
  g.options ++ [helpOption] ++ if g.hasVersion then [versionOption] else []

/-- Reads the letters after one dash. The option that still needs its value comes with the result.
-/
def readLetters (g : Grammar) (m : Matches) :
    List Char → Except Refusal (Matches × Option OptionSpec)
  | [] => return (m, none)
  | letter :: rest =>
    match g.allOptions.find? fun option => option.letter = some letter with
    | none => throw .invalid
    | some option =>
      if option.takesValue then
        match rest with
        | [] => return (← m.settle, some option)
        | '=' :: value => return (← m.addAttached option value, none)
        | value => return (← m.addAttached option value, none)
      else do readLetters g (← m.addFlag option.name) rest

/-- Reads what follows two dashes. The option that still needs its value comes with the result. -/
def readName (g : Grammar) (m : Matches) (text : List Char) :
    Except Refusal (Matches × Option OptionSpec) :=
  let name := String.ofList (text.takeWhile (· ≠ '='))
  match g.allOptions.find? fun option => option.name = name, text.dropWhile (· ≠ '=') with
  | none, _ => throw .invalid
  | some option, [] =>
    if option.takesValue then return (← m.settle, some option)
    else return (← m.addFlag option.name, none)
  | some option, _ :: value =>
    if option.takesValue then return (← m.addAttached option value, none) else throw .invalid

/-- Reads a command line up to its end or to a command. While an option needs its value, only a word
may follow. -/
def scan (g : Grammar) : (needy : Option OptionSpec) → Matches → List String →
    Except Refusal (Matches × Option (String × List String))
  | some _, _, [] => throw .invalid
  | none, m, [] => return (m, none)
  | some option, m, argument :: rest =>
    match argument.toList with
    | '-' :: _ :: _ => throw .invalid
    | _ => scan g none (m.addPending option argument) rest
  | none, m, argument :: rest =>
    if argument ∈ g.commands then return (m, some (argument, rest))
    else if argument = "--" then do return (← rest.foldlM (fun m word => m.addRest g word) m, none)
    else match argument.toList with
      | '-' :: '-' :: text => do
        let (m, needy) ← readName g m text
        scan g needy m rest
      | '-' :: letter :: letters => do
        let (m, needy) ← readLetters g m (letter :: letters)
        scan g needy m rest
      | _ => do scan g none (← m.addWord g argument) rest

/-- Reads the whole command line of a command, all of whose words must be given. -/
def read (g : Grammar) (arguments : List String) : Except Refusal Matches := do
  let (m, _) ← scan g none {} arguments
  let m ← m.settle
  if m.words.length < g.words.length then throw .invalid else return m

end BridgingHeader.CommandLine
