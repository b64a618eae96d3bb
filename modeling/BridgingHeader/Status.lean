import BridgingHeader.Host

/-!
# Status lines

While a command runs, it tells on the error stream what it does. A status line starts with one word,
right-aligned and possibly coloured.
-/

namespace BridgingHeader

/-- How much is told. -/
inductive Verbosity where
  | quiet
  | normal
  | verbose
  deriving DecidableEq, Repr

/-- Quiet wins over verbose. -/
def Verbosity.ofFlags (quiet verbose : Bool) : Verbosity :=
  if quiet then .quiet else if verbose then .verbose else .normal

/-- Whether status words are coloured. -/
inductive ColorChoice where
  /-- Colours are used on a terminal. -/
  | auto
  | always
  | never
  deriving DecidableEq, Repr

namespace ColorChoice

/-- The choice that a word names, in any case. -/
def parse (text : String) : Except String ColorChoice :=
  match String.ofList (text.toList.map Char.toLower) with
  | "auto" => return .auto
  | "always" => return .always
  | "never" => return .never
  | _ => throw s!"invalid color choice '{text}'; expected 'auto', 'always', or 'never'"

end ColorChoice

/-- The words of status lines. -/
inductive Status where
  | added
  | finished
  | cloning
  | reading
  | patching
  | building
  | preprocessing
  | generating
  deriving DecidableEq, Repr

namespace Status

/-- The word of a status. -/
def word : Status → String
  | .added => "Added"
  | .finished => "Finished"
  | .cloning => "Cloning"
  | .reading => "Reading"
  | .patching => "Patching"
  | .building => "Building"
  | .preprocessing => "Preprocessing"
  | .generating => "Generating"

/-- What is done is bold green, and what is being done is bold cyan. -/
def color : Status → String
  | .added | .finished => "\x1b[1;32m"
  | _ => "\x1b[1;36m"

/-- The width to which the word is filled up. -/
def width : Nat := 13

/-- The word of a status line. -/
def label (status : Status) (colored : Bool) : String :=
  let padded := String.ofList (List.replicate (width - status.word.length) ' ') ++ status.word
  if colored then status.color ++ padded ++ "\x1b[0m" else padded

end Status

/-- How status lines are written. -/
structure Shell where
  verbosity : Verbosity := .normal
  colored : Bool := false
  deriving DecidableEq, Repr

namespace Shell

/-- A shell that tells nothing. -/
def quiet : Shell := { verbosity := .quiet }

/-- A shell that is coloured on demand, and on a terminal if it may choose. -/
def ofChoices (verbosity : Verbosity) (color : ColorChoice) (terminal : Bool) : Shell :=
  { verbosity, colored := color = .always || (color = .auto && terminal) }

/-- The text of a status line, unless the shell is quiet. -/
def line? (shell : Shell) (status : Status) (text : String) : Option String :=
  if shell.verbosity = .quiet then none
  else some (status.label shell.colored ++ " " ++ text ++ "\n")

variable {m : Type → Type} [Monad m] [Host m]

/-- Tells what is being done. -/
def tell (shell : Shell) (status : Status) (text : String) : m Unit :=
  match shell.line? status text with
  | some line => Host.printError line
  | none => return ()

/-- Two digits of a number. -/
def twoDigits (n : Nat) : String := toString (n / 10 % 10) ++ toString (n % 10)

/-- A duration in milliseconds: in hundredths of a second, or from a minute on in tenths of a
minute. -/
def durationText (milliseconds : Nat) : String :=
  if milliseconds < 60000 then
    let hundredths := (milliseconds + 5) / 10
    s!"{hundredths / 100}.{twoDigits hundredths}s"
  else
    let tenths := (milliseconds + 3000) / 6000
    s!"{tenths / 10}.{tenths % 10}m"

/-- Tells how long something took that has been done, if the shell is verbose. -/
def tellDuration (shell : Shell) (status : Status) (started : Nat) : m Unit := do
  let finished ← Host.clock
  if shell.verbosity = .verbose then
    let word := String.ofList (status.word.toList.map Char.toLower)
    shell.tell .finished s!"{word} in {durationText (finished - started)}"

end Shell

end BridgingHeader
