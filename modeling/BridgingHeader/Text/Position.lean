/-!
# Positions in a text

A position counts lines and columns from one. Only a line feed starts a new line, and every other
character is one column wide. A reader that stops on a fault gives it with the text that was left,
which tells its position.
-/

namespace BridgingHeader.Text

/-- A line and a column. -/
structure Position where
  line : Nat := 1
  column : Nat := 1
  deriving DecidableEq, Repr

namespace Position

/-- The position after one more character. -/
def advance (position : Position) (c : Char) : Position :=
  if c = '\n' then ⟨position.line + 1, 1⟩ else ⟨position.line, position.column + 1⟩

/-- The position at the end of a text. -/
def after (text : List Char) : Position := text.foldl advance {}

/-- The position at which a suffix of a text starts. -/
def ofSuffix (text suffix : List Char) : Position :=
  after (text.take (text.length - suffix.length))

@[simp] theorem after_nil : after [] = {} := rfl

/-- One more character advances the position. -/
theorem after_concat (text : List Char) (c : Char) :
    after (text ++ [c]) = (after text).advance c := by
  simp [after]

/-- The line number is one more than the number of line feeds. -/
theorem line_after (text : List Char) : (after text).line = text.count '\n' + 1 := by
  suffices h : ∀ start : Position, (text.foldl advance start).line = start.line + text.count '\n' by
    rw [after, h, Nat.add_comm]
  induction text with
  | nil => simp
  | cons c rest ih =>
    intro start
    rw [List.foldl_cons, ih, advance]
    by_cases h : c = '\n'
    · simp [h]; omega
    · simp [h]

/-- The column is one more than the number of characters behind the last line feed. -/
theorem column_after (text : List Char) :
    (after text).column = (text.reverse.takeWhile (· ≠ '\n')).length + 1 := by
  suffices h : ∀ reversed : List Char,
      (after reversed.reverse).column = (reversed.takeWhile (· ≠ '\n')).length + 1 by
    rw [← h, List.reverse_reverse]
  intro reversed
  induction reversed with
  | nil => rfl
  | cons c rest ih =>
    rw [List.reverse_cons, after_concat, advance]
    by_cases h : c = '\n'
    · simp [h]
    · simp [h, ih]

/-- The position where a suffix starts is the one after what stands before the suffix. -/
theorem ofSuffix_append (before suffix : List Char) :
    ofSuffix (before ++ suffix) suffix = after before := by
  simp [ofSuffix]

end Position

/-- A fault and the text that was left when it was found. -/
structure Stop (Fault : Type) where
  fault : Fault
  rest : List Char
  deriving DecidableEq, Repr

/-- A fault and its position. -/
structure Located (Fault : Type) where
  fault : Fault
  position : Position
  deriving DecidableEq, Repr

/-- The position of a stop in the whole text. -/
def Stop.locate {Fault : Type} (stop : Stop Fault) (text : List Char) : Located Fault :=
  ⟨stop.fault, .ofSuffix text stop.rest⟩

end BridgingHeader.Text
