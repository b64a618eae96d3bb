import Mathlib.Data.List.Chain
import BridgingHeader.CompilerFlags
import BridgingHeader.Proofs.Path.Segments

/-!
# Tokens on a line

A line is written from tokens by putting a backslash before every space inside them and spaces
between them. Reading gives the same tokens back, whatever the number of spaces, provided that no
token ends in a backslash, which would keep the space behind it.
-/

namespace BridgingHeader.CompilerFlags

/-- A token that can be written on a line. -/
structure Token where
  text : List Char
  ne_nil : text ≠ []
  no_mark : keptSpace ∉ text
  no_backslash : text.getLast? ≠ some '\\'

/-- A token as it is written, with its spaces escaped. -/
def escape (text : List Char) : List Char := text.flatMap fun c => if c = ' ' then ['\\', ' '] else [c]

theorem escape_cons (c : Char) (text : List Char) :
    escape (c :: text) = (if c = ' ' then ['\\', ' '] else [c]) ++ escape text :=
  List.flatMap_cons

/-- No written token starts with a space. -/
theorem head?_escape_append {text : List Char} (h : text ≠ []) (rest : List Char) :
    (escape text ++ rest).head? ≠ some ' ' := by
  cases text with
  | nil => exact absurd rfl h
  | cons c text =>
      rw [escape_cons]
      by_cases hspace : c = ' '
      · simp [hspace]
      · simp [hspace]

/-- Written tokens, each with a number of spaces behind it. -/
def written (words : List (Token × Nat)) : List Char :=
  words.flatMap fun (token, gap) => escape token.text ++ List.replicate gap ' '

theorem written_cons (token : Token) (gap : Nat) (words : List (Token × Nat)) :
    written ((token, gap) :: words) =
      escape token.text ++ (List.replicate gap ' ' ++ written words) := by
  rw [written, List.flatMap_cons, List.append_assoc]
  rfl

/-- A line of tokens with spaces around them. -/
structure SpacedLine where
  /-- The number of spaces at the beginning. -/
  lead : Nat
  /-- The tokens, each with the number of spaces behind it. -/
  words : List (Token × Nat)
  /-- There is a space between two tokens. -/
  apart : words.IsChain fun word _ => 0 < word.2

namespace SpacedLine

/-- The line as it is written. -/
def text (line : SpacedLine) : List Char := List.replicate line.lead ' ' ++ written line.words

/-- The texts of the tokens. -/
def tokens (line : SpacedLine) : List (List Char) := line.words.map fun word => word.1.text

end SpacedLine

/-- A word without a space behind it is the last one. -/
theorem eq_nil_of_apart {word : Token × Nat} {words : List (Token × Nat)}
    (h : (word :: words).IsChain fun word _ => 0 < word.2) (hgap : word.2 = 0) : words = [] := by
  cases words with
  | nil => rfl
  | cons next words =>
      rw [List.isChain_cons_cons, hgap] at h
      exact absurd h.1 (Nat.lt_irrefl 0)

/-! ### Reading what is written -/

/-- A token while the line is cut, with marks in place of its spaces. -/
def marked (text : List Char) : List Char := text.map fun c => if c = ' ' then keptSpace else c

theorem marked_cons (c : Char) (text : List Char) :
    marked (c :: text) = (if c = ' ' then keptSpace else c) :: marked text :=
  List.map_cons

theorem restoreSpaces_marked {text : List Char} (h : keptSpace ∉ text) :
    restoreSpaces (marked text) = text := by
  induction text with
  | nil => rfl
  | cons c text ih =>
      rw [List.mem_cons, not_or] at h
      have hc : (if (if c = ' ' then keptSpace else c) = keptSpace then ' '
          else (if c = ' ' then keptSpace else c)) = c := by
        by_cases hspace : c = ' '
        · rw [if_pos hspace, if_pos rfl, hspace]
        · rw [if_neg hspace, if_neg (Ne.symm h.1)]
      exact congrArg₂ List.cons hc (ih h.2)

theorem space_not_mem_marked (text : List Char) : ' ' ∉ marked text := by
  rw [marked, List.mem_map]
  rintro ⟨c, -, hc⟩
  split at hc
  · revert hc
    decide
  · exact absurd hc ‹_›

theorem markKeptSpaces_cons {c : Char} {rest : List Char}
    (h : c = '\\' → rest.head? ≠ some ' ') :
    markKeptSpaces (c :: rest) = c :: markKeptSpaces rest := by
  refine markKeptSpaces.eq_2 c rest fun tail hc hrest => h hc ?_
  rw [hrest]
  rfl

/-- Escaped spaces are marked, and the backslashes of a token stay, since none is at its end. -/
theorem markKeptSpaces_escape {text : List Char} (h : text.getLast? ≠ some '\\')
    (rest : List Char) :
    markKeptSpaces (escape text ++ rest) = marked text ++ markKeptSpaces rest := by
  induction text with
  | nil => rfl
  | cons c text ih =>
      have htext : text.getLast? ≠ some '\\' := by
        cases text with
        | nil => simp
        | cons d text => rwa [List.getLast?_cons_cons] at h
      rw [escape_cons]
      by_cases hspace : c = ' '
      · rw [if_pos hspace, marked_cons, if_pos hspace, List.append_assoc]
        exact congrArg (List.cons keptSpace) (ih htext)
      · have hnext : c = '\\' → (escape text ++ rest).head? ≠ some ' ' := by
          rintro rfl
          refine head?_escape_append (fun htext => ?_) rest
          exact h (by rw [htext]; rfl)
        rw [if_neg hspace, List.append_assoc, List.singleton_append, markKeptSpaces_cons hnext,
          ih htext, marked_cons, if_neg hspace, List.cons_append]

theorem markKeptSpaces_replicate (gap : Nat) (rest : List Char) :
    markKeptSpaces (List.replicate gap ' ' ++ rest) =
      List.replicate gap ' ' ++ markKeptSpaces rest := by
  induction gap with
  | zero => rfl
  | succ gap ih =>
      rw [List.replicate_succ, List.cons_append, List.cons_append,
        markKeptSpaces_cons fun e => absurd e (by decide), ih]

theorem markKeptSpaces_written (words : List (Token × Nat)) :
    markKeptSpaces (written words) =
      words.flatMap fun (token, gap) => marked token.text ++ List.replicate gap ' ' := by
  induction words with
  | nil => rfl
  | cons word words ih =>
      obtain ⟨token, gap⟩ := word
      rw [written_cons, markKeptSpaces_escape token.no_backslash, markKeptSpaces_replicate, ih,
        List.flatMap_cons, List.append_assoc]

/-- The pieces of a line that are tokens. -/
def cut (text : List Char) : List (List Char) := (Text.pieces ' ' text).filter (· ≠ [])

/-- A piece that has come to its end; without characters it is no token. -/
def ended (piece : List Char) : List (List Char) := if piece = [] then [] else [piece]

theorem cut_of_not_mem {piece : List Char} (h : ' ' ∉ piece) : cut piece = ended piece := by
  rw [cut, Text.pieces_of_not_mem h, List.filter_singleton, ended]
  by_cases hpiece : piece = []
  · simp [hpiece]
  · simp [hpiece]

/-- A space ends the piece before it. -/
theorem cut_append_space {piece : List Char} (h : ' ' ∉ piece) (rest : List Char) :
    cut (piece ++ ' ' :: rest) = ended piece ++ cut rest := by
  rw [cut, Text.pieces_append_cons, List.filter_append, ← cut_of_not_mem h]
  rfl

theorem cut_replicate (gap : Nat) (rest : List Char) :
    cut (List.replicate gap ' ' ++ rest) = cut rest := by
  induction gap with
  | zero => rfl
  | succ gap ih => exact (cut_append_space List.not_mem_nil _).trans ih

/-- A piece in front of a space, or of nothing, is cut off as a token. -/
theorem cut_append {piece : List Char} (hne : piece ≠ []) (hpiece : ' ' ∉ piece) {gap : Nat}
    {rest : List Char} (hend : gap = 0 → rest = []) :
    cut (piece ++ (List.replicate gap ' ' ++ rest)) = piece :: cut rest := by
  cases gap with
  | zero =>
      rw [hend rfl, List.replicate_zero, List.append_nil, List.append_nil, cut_of_not_mem hpiece,
        ended, if_neg hne]
      rfl
  | succ gap =>
      rw [List.replicate_succ, List.cons_append, cut_append_space hpiece, cut_replicate, ended,
        if_neg hne]
      rfl

theorem cut_marked {words : List (Token × Nat)} (h : words.IsChain fun word _ => 0 < word.2) :
    cut (words.flatMap fun (token, gap) => marked token.text ++ List.replicate gap ' ') =
      words.map fun word => marked word.1.text := by
  induction words with
  | nil => rfl
  | cons word words ih =>
      have hend : word.2 = 0 →
          (words.flatMap fun (token, gap) => marked token.text ++ List.replicate gap ' ') = [] := by
        intro hgap
        rw [eq_nil_of_apart h hgap]
        rfl
      have hne : marked word.1.text ≠ [] := by
        rw [marked, Ne, List.map_eq_nil_iff]
        exact word.1.ne_nil
      rw [List.flatMap_cons, List.append_assoc, cut_append hne (space_not_mem_marked _) hend,
        ih h.tail, List.map_cons]

/-- Reading a line gives the tokens from which it is written. -/
theorem tokenize_text (line : SpacedLine) : tokenize line.text = line.tokens := by
  have hcut : cut (markKeptSpaces line.text) = line.words.map fun word => marked word.1.text := by
    rw [SpacedLine.text, markKeptSpaces_replicate, markKeptSpaces_written, cut_replicate,
      cut_marked line.apart]
  have hread : tokenize line.text = (cut (markKeptSpaces line.text)).map restoreSpaces := rfl
  rw [hread, hcut, SpacedLine.tokens, List.map_map]
  exact List.map_congr_left fun word _ => restoreSpaces_marked word.1.no_mark

/-- The tokens are read back whatever spaces stand around them, and so the flags on a line depend on
its tokens alone. -/
theorem tokens_readBack (line : SpacedLine) :
    tokenize line.text = line.tokens ∧
      ∀ other : SpacedLine, other.tokens = line.tokens → ofLine other.text = ofLine line.text := by
  constructor
  · exact tokenize_text line
  · intro other hother
    rw [ofLine, ofLine, tokenize_text, tokenize_text, hother]

/-- Tokens with spaces at their ends, behind a backslash and on their own, and the spaces around
them. -/
def keptSpacesLine (lead gap trail : Nat) (hgap : 0 < gap) : SpacedLine where
  lead := lead
  words := [
    (⟨"-Ia\\ b".toList, by decide, by decide, by decide⟩, gap),
    (⟨" ".toList, by decide, by decide, by decide⟩, gap),
    (⟨"-arch".toList, by decide, by decide, by decide⟩, gap),
    (⟨" arm64 ".toList, by decide, by decide, by decide⟩, trail)]
  apart := by simp [hgap]

theorem tokens_readBack_of_keptSpacesLine :
    (keptSpacesLine 2 3 1 (by decide)).text =
      "  -Ia\\\\ b   \\    -arch   \\ arm64\\  ".toList ∧
    tokenize (keptSpacesLine 2 3 1 (by decide)).text =
      ["-Ia\\ b".toList, " ".toList, "-arch".toList, " arm64 ".toList] ∧
    ofLine (keptSpacesLine 0 1 0 (by decide)).text =
      ofLine (keptSpacesLine 2 3 1 (by decide)).text := by
  have hread := tokens_readBack (keptSpacesLine 2 3 1 (by decide))
  exact ⟨by decide, hread.1, hread.2 _ rfl⟩

end BridgingHeader.CompilerFlags
