import BridgingHeader.PropertyList.Basic
import BridgingHeader.Proofs.Dictionary
import BridgingHeader.Text.Blank

/-!
# The grammar of property lists

The text format as productions. A production relates a text, what its front stands for and the rest
of the text. Only two productions look at the rest: a bare string takes every bare character there
is, and a comment from `//` ends at a line feed or where the text ends.

The relations are stated without the reader. That the reader accepts exactly what they derive is
shown elsewhere.
-/

namespace BridgingHeader.PropertyList

open Text (isBlank)

/-- Trivia are blank characters and comments in any number and order. A comment from `/*` ends at
the first `*/` behind it, so its body is free of that. -/
inductive Trivia : List Char → List Char → Prop
  | done {rest} : Trivia rest rest
  | blank {c text rest} (hc : isBlank c = true) (more : Trivia text rest) :
      Trivia (c :: text) rest
  | blockComment {body text rest} (first : ¬ ['*', '/'] <:+: body)
      (more : Trivia text rest) :
      Trivia ('/' :: '*' :: body ++ '*' :: '/' :: text) rest
  | lineComment {body text rest} (inside : '\n' ∉ body) (ended : ∀ c ∈ text.head?, c = '\n')
      (more : Trivia text rest) :
      Trivia ('/' :: '/' :: body ++ text) rest

/-! ### Strings -/

/-- The letters that stand for another character behind a backslash. -/
def letterEscapes : List (Char × Char) :=
  [('n', '\n'), ('t', '\t'), ('r', '\r'), ('a', '\x07'), ('b', '\x08'), ('f', '\x0c'),
   ('v', '\x0b')]

/-- The value of a hexadecimal digit. -/
inductive HexDigit : Char → Nat → Prop
  | decimal {c n} (hn : n < 10) (hc : c.toNat = '0'.toNat + n) : HexDigit c n
  | lower {c n} (hn : n < 6) (hc : c.toNat = 'a'.toNat + n) : HexDigit c (10 + n)
  | upper {c n} (hn : n < 6) (hc : c.toNat = 'A'.toNat + n) : HexDigit c (10 + n)

/-- The written forms of one character between quotes. A code point has four digits, and it is one
of a character. -/
inductive QuotedCharacter (quote : Char) : List Char → Char → Prop
  | plain {c} (hquote : c ≠ quote) (hbackslash : c ≠ '\\') : QuotedCharacter quote [c] c
  | letter {l c} (hl : (l, c) ∈ letterEscapes) : QuotedCharacter quote ['\\', l] c
  | itself {c} (hU : c ≠ 'U') (hc : c ∉ letterEscapes.map Prod.fst) :
      QuotedCharacter quote ['\\', c] c
  | codePoint {i j k l c} {m n o p : Nat} (hi : HexDigit i m) (hj : HexDigit j n)
      (hk : HexDigit k o) (hl : HexDigit l p)
      (hc : c.toNat = m * 0x1000 + n * 0x100 + o * 0x10 + p) :
      QuotedCharacter quote ['\\', 'U', i, j, k, l] c

/-- The contents of a quoted string and its closing quote. -/
inductive QuotedText (quote : Char) : List Char → List Char → List Char → Prop
  | close {rest} : QuotedText quote (quote :: rest) [] rest
  | character {form c text contents rest} (head : QuotedCharacter quote form c)
      (tail : QuotedText quote text contents rest) :
      QuotedText quote (form ++ text) (c :: contents) rest

/-- The characters of bare strings. -/
def BareCharacter (c : Char) : Prop :=
  ('A' ≤ c ∧ c ≤ 'Z') ∨ ('a' ≤ c ∧ c ≤ 'z') ∨ ('0' ≤ c ∧ c ≤ '9') ∨
    c ∈ ['_', '$', '/', ':', '.', '-', '+']

/-- A string is quoted, or it is a maximal run of bare characters that does not start where a
comment starts. -/
inductive StringText : List Char → String → List Char → Prop
  | quoted {quote text contents rest} (hquote : quote = '"' ∨ quote = '\'')
      (body : QuotedText quote text contents rest) :
      StringText (quote :: text) (String.ofList contents) rest
  | bare {run rest} (hne : run ≠ []) (hrun : ∀ c ∈ run, BareCharacter c)
      (maximal : ∀ c ∈ rest.head?, ¬ BareCharacter c)
      (line : ¬ ['/', '/'] <+: run ++ rest) (block : ¬ ['/', '*'] <+: run ++ rest) :
      StringText (run ++ rest) (String.ofList run) rest

/-! ### Values -/

mutual

/-- A value is a string, an array or a dictionary. A dictionary collects its entries: a repeated key
replaces the earlier value where that stands. -/
inductive ValueText : List Char → PropertyList → List Char → Prop
  | string {text contents rest} (body : StringText text contents rest) :
      ValueText text (.string contents) rest
  | array {text items rest} (body : ItemsText text items rest) :
      ValueText ('(' :: text) (.array items) rest
  | dictionary {text entries contents rest} (body : EntriesText text entries rest)
      (collected : Dictionary.Collects entries contents) :
      ValueText ('{' :: text) (.dictionary contents) rest

/-- Array items up to the closing parenthesis, each but the last followed by a comma, which the last
may have too. -/
inductive ItemsText : List Char → List PropertyList → List Char → Prop
  | close {text rest} (before : Trivia text (')' :: rest)) : ItemsText text [] rest
  | last {text start item after rest} (before : Trivia text start)
      (head : ValueText start item after) (close : Trivia after (')' :: rest)) :
      ItemsText text [item] rest
  | item {text start item after next items rest} (before : Trivia text start)
      (head : ValueText start item after) (comma : Trivia after (',' :: next))
      (tail : ItemsText next items rest) :
      ItemsText text (item :: items) rest

/-- Dictionary entries up to the closing brace, as they are written. -/
inductive EntriesText : List Char → List (String × PropertyList) → List Char → Prop
  | close {text rest} (before : Trivia text ('}' :: rest)) : EntriesText text [] rest
  | entry {text start key afterKey beforeValue valueStart value after next entries rest}
      (before : Trivia text start) (name : StringText start key afterKey)
      (equals : Trivia afterKey ('=' :: beforeValue)) (between : Trivia beforeValue valueStart)
      (head : ValueText valueStart value after) (semicolon : Trivia after (';' :: next))
      (tail : EntriesText next entries rest) :
      EntriesText text ((key, value) :: entries) rest

end

/-- A document is a value with trivia around it and nothing else. -/
def DocumentText (text : List Char) (value : PropertyList) : Prop :=
  ∃ start after, Trivia text start ∧ ValueText start value after ∧ Trivia after []

/-! ### Trivia in a row -/

theorem Trivia.trans {text middle rest : List Char} (h : Trivia text middle)
    (h' : Trivia middle rest) : Trivia text rest := by
  induction h with
  | done => exact h'
  | blank hc _ ih => exact .blank hc (ih h')
  | blockComment first _ ih => exact .blockComment first (ih h')
  | lineComment inside ended _ ih => exact .lineComment inside ended (ih h')

/-- Trivia may stand in front of array items. -/
theorem ItemsText.skip {text middle rest : List Char} {items : List PropertyList}
    (h : Trivia text middle) (body : ItemsText middle items rest) : ItemsText text items rest := by
  cases body with
  | close before => exact .close (h.trans before)
  | last before head close => exact .last (h.trans before) head close
  | item before head comma tail => exact .item (h.trans before) head comma tail

/-- Trivia may stand in front of dictionary entries. -/
theorem EntriesText.skip {text middle rest : List Char} {entries : List (String × PropertyList)}
    (h : Trivia text middle) (body : EntriesText middle entries rest) :
    EntriesText text entries rest := by
  cases body with
  | close before => exact .close (h.trans before)
  | entry before name equals between head semicolon tail =>
      exact .entry (h.trans before) name equals between head semicolon tail

/-! ### What is left is shorter -/

theorem Trivia.length_le {text rest : List Char} (h : Trivia text rest) :
    rest.length ≤ text.length := by
  induction h with
  | done => exact Nat.le_refl _
  | blank _ _ ih => simp only [List.length_cons]; omega
  | blockComment _ _ ih => simp only [List.length_append, List.length_cons]; omega
  | lineComment _ _ _ ih => simp only [List.length_append, List.length_cons]; omega

theorem QuotedText.length_lt {quote : Char} {text contents rest : List Char}
    (h : QuotedText quote text contents rest) : rest.length < text.length := by
  induction h with
  | close => simp
  | character _ _ ih => rw [List.length_append]; omega

theorem StringText.length_lt {text rest : List Char} {contents : String}
    (h : StringText text contents rest) : rest.length < text.length := by
  cases h with
  | quoted _ body =>
      have := body.length_lt
      simp only [List.length_cons]
      omega
  | bare hne _ _ _ _ =>
      have := List.length_pos_iff.mpr hne
      rw [List.length_append]
      omega

mutual

theorem ValueText.length_lt {text rest : List Char} {value : PropertyList} :
    ValueText text value rest → rest.length < text.length
  | .string body => body.length_lt
  | .array body => Nat.lt_succ_of_lt body.length_lt
  | .dictionary body _ => Nat.lt_succ_of_lt body.length_lt

theorem ItemsText.length_lt {text rest : List Char} {items : List PropertyList} :
    ItemsText text items rest → rest.length < text.length
  | .close before => before.length_le
  | .last before head close => by
      have h₁ := before.length_le
      have h₂ := head.length_lt
      have h₃ := close.length_le
      rw [List.length_cons] at h₃
      omega
  | .item before head comma tail => by
      have h₁ := before.length_le
      have h₂ := head.length_lt
      have h₃ := comma.length_le
      have h₄ := tail.length_lt
      rw [List.length_cons] at h₃
      omega

theorem EntriesText.length_lt {text rest : List Char} {entries : List (String × PropertyList)} :
    EntriesText text entries rest → rest.length < text.length
  | .close before => before.length_le
  | .entry before name equals between head semicolon tail => by
      have h₁ := before.length_le
      have h₂ := name.length_lt
      have h₃ := equals.length_le
      have h₄ := between.length_le
      have h₅ := head.length_lt
      have h₆ := semicolon.length_le
      have h₇ := tail.length_lt
      rw [List.length_cons] at h₃ h₆
      omega

end

end BridgingHeader.PropertyList
