import BridgingHeader.Proofs.CompilerFlags.Tokens

/-!
# Reading a line in one pass

Marking the kept spaces of a line, cutting it at the other spaces and turning the marks back gives
the tokens that a reader finds who goes over the line once and takes each character as it comes.
Such a reader needs no mark: a line that holds the mark already, a run of backslashes or a token
made of kept spaces alone is read in the same way.
-/

namespace BridgingHeader.CompilerFlags

/-- The tokens found when a token has been read so far and a line is left. A backslash with a space
behind it and the character U+0000 each put a space into the token, and any other space ends it. -/
def scan : (token line : List Char) → List (List Char)
  | token, '\\' :: ' ' :: rest => scan (token ++ [' ']) rest
  | token, c :: rest =>
    if c = '\x00' then scan (token ++ [' ']) rest
    else if c = ' ' then ended token ++ scan [] rest
    else scan (token ++ [c]) rest
  | token, [] => ended token

theorem scan_cons {c : Char} {rest : List Char} (h : c = '\\' → rest.head? ≠ some ' ')
    (token : List Char) :
    scan token (c :: rest) =
      if c = '\x00' then scan (token ++ [' ']) rest
      else if c = ' ' then ended token ++ scan [] rest
      else scan (token ++ [c]) rest := by
  refine scan.eq_2 token c rest fun tail hc hrest => h hc ?_
  rw [hrest]
  rfl

/-! ### Pieces and tokens -/

theorem map_ended (piece : List Char) :
    (ended piece).map restoreSpaces = ended (restoreSpaces piece) := by
  cases piece with
  | nil => rfl
  | cons c rest => rfl

theorem restoreSpaces_concat (piece : List Char) (c : Char) :
    restoreSpaces (piece ++ [c]) = restoreSpaces piece ++ [if c = keptSpace then ' ' else c] := by
  simp [restoreSpaces]

/-- The scanner finds what the pieces give, where a piece that has been read so far is a token with
its spaces marked. -/
theorem map_cut_markKeptSpaces (line : List Char) {piece : List Char} (h : ' ' ∉ piece) :
    (cut (piece ++ markKeptSpaces line)).map restoreSpaces = scan (restoreSpaces piece) line := by
  induction line using markKeptSpaces.induct generalizing piece with
  | case1 rest ih =>
      -- An escaped space: its mark joins the piece.
      have hpiece : ' ' ∉ piece ++ [keptSpace] := by simp [h, keptSpace]
      calc (cut (piece ++ markKeptSpaces ('\\' :: ' ' :: rest))).map restoreSpaces
          = (cut ((piece ++ [keptSpace]) ++ markKeptSpaces rest)).map restoreSpaces := by
            rw [markKeptSpaces, List.append_assoc, List.singleton_append]
        _ = scan (restoreSpaces (piece ++ [keptSpace])) rest := ih hpiece
        _ = scan (restoreSpaces piece) ('\\' :: ' ' :: rest) := by
            rw [restoreSpaces_concat, if_pos rfl, scan]
  | case2 c rest hescape ih =>
      have hnext : c = '\\' → rest.head? ≠ some ' ' := by
        intro hc hhead
        obtain ⟨tail, htail⟩ := List.head?_eq_some_iff.mp hhead
        exact hescape tail hc htail
      rw [markKeptSpaces_cons hnext, scan_cons hnext]
      by_cases hspace : c = ' '
      · subst hspace
        rw [if_neg (by decide), if_pos rfl, cut_append_space h, List.map_append, map_ended]
        exact congrArg (ended (restoreSpaces piece) ++ ·) (ih List.not_mem_nil)
      · have hpiece : ' ' ∉ piece ++ [c] := by simp [h, Ne.symm hspace]
        have hrest := ih hpiece
        rw [List.append_assoc, List.singleton_append, restoreSpaces_concat] at hrest
        rw [hrest, if_neg hspace]
        by_cases hmark : c = keptSpace
        · rw [if_pos hmark]
          exact (if_pos hmark).symm
        · rw [if_neg hmark]
          exact (if_neg hmark).symm
  | case3 =>
      rw [markKeptSpaces, List.append_nil, cut_of_not_mem h, map_ended, scan]

/-- The tokens of a line are those that one pass over it finds. -/
theorem tokenize_eq_scan (line : List Char) : tokenize line = scan [] line :=
  map_cut_markKeptSpaces line List.not_mem_nil

/-- Of two backslashes the second keeps the space, a token may consist of kept spaces alone, and a
backslash at the end stays. -/
example : scan [] "a\\\\ b \\ \\  c\x00 d\\".toList =
    ["a\\ b".toList, "  ".toList, "c ".toList, "d\\".toList] := by decide

end BridgingHeader.CompilerFlags
