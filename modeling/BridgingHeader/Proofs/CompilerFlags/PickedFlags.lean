import Mathlib.Data.List.Infix
import BridgingHeader.CompilerFlags

/-!
# Picked flags with their values

The tokens that are picked from a line are written one after the other, and a value that is looked
at again may be written twice. They can still be read back as whole flags in only one way, each with
its value, and these are the flags that the pairs of neighbours on the line stand for.
-/

namespace BridgingHeader.CompilerFlags

/-- A flag with its value. -/
inductive Flag where
  | glued (token : List Char) (kind : classify token = some .glued)
  | split (token value : List Char) (kind : classify token = some .split)

namespace Flag

/-- The tokens of a flag. -/
def tokens : Flag → List (List Char)
  | .glued token _ => [token]
  | .split token value _ => [token, value]

/-- The flag that a token stands for when another one comes after it. -/
def ofPair? (token next : List Char) : Option Flag :=
  if kind : classify token = some .glued then some (.glued token kind)
  else if kind : classify token = some .split then some (.split token next kind)
  else none

/-- The flags that tokens stand for, each told by a token and the one after it. -/
def ofTokens (tokens : List (List Char)) : List Flag :=
  (tokens.zip tokens.tail).filterMap fun pair => ofPair? pair.1 pair.2

/-- Tokens read as flags from left to right: the kind of a token tells whether the next one is its
value. Nothing is read if a token is no flag or a value is missing. -/
def read? : List (List Char) → Option (List Flag)
  | [] => some []
  | token :: rest =>
    if kind : classify token = some .glued then (read? rest).map (.glued token kind :: ·)
    else
      match rest with
      | [] => none
      | value :: rest =>
        if kind : classify token = some .split then (read? rest).map (.split token value kind :: ·)
        else none

theorem ofPair?_of_glued {token : List Char} (kind : classify token = some .glued)
    (next : List Char) : ofPair? token next = some (.glued token kind) :=
  dif_pos kind

theorem ofPair?_of_split {token : List Char} (kind : classify token = some .split)
    (next : List Char) : ofPair? token next = some (.split token next kind) := by
  rw [ofPair?, dif_neg (by simp [kind]), dif_pos kind]

theorem ofPair?_of_none {token : List Char} (kind : classify token = none) (next : List Char) :
    ofPair? token next = none := by
  rw [ofPair?, dif_neg (by simp [kind]), dif_neg (by simp [kind])]

theorem ofTokens_cons_cons (token next : List Char) (rest : List (List Char)) :
    ofTokens (token :: next :: rest) =
      (ofPair? token next).toList ++ ofTokens (next :: rest) := by
  rw [ofTokens, List.tail_cons, List.zip_cons_cons, List.filterMap_cons, ofTokens, List.tail_cons]
  cases ofPair? token next <;> rfl

/-! ### Reading back -/

theorem read?_glued {token : List Char} (kind : classify token = some .glued)
    (rest : List (List Char)) :
    read? (token :: rest) = (read? rest).map (.glued token kind :: ·) := by
  rw [read?.eq_def]
  exact dif_pos kind

theorem read?_split {token : List Char} (kind : classify token = some .split) (value : List Char)
    (rest : List (List Char)) :
    read? (token :: value :: rest) = (read? rest).map (.split token value kind :: ·) := by
  rw [read?.eq_def]
  simp only
  rw [dif_neg (by simp [kind]), dif_pos kind]

/-- Flags that are written one after the other are read back, and so no other flags are written
with the same tokens. -/
theorem read?_flatMap_tokens (flags : List Flag) : read? (flags.flatMap tokens) = some flags := by
  induction flags with
  | nil => rfl
  | cons flag flags ih =>
      rw [List.flatMap_cons]
      cases flag with
      | glued token kind =>
          rw [tokens, List.singleton_append, read?_glued kind, ih, Option.map_some]
      | split token value kind =>
          rw [tokens, List.cons_append, List.singleton_append, read?_split kind, ih,
            Option.map_some]

end Flag

/-! ### What is picked -/

/-- The tokens that are picked for a token and the one after it are those of its flag. -/
theorem pick_cons_cons (token next : List Char) (rest : List (List Char)) :
    pick (token :: next :: rest) =
      (Flag.ofPair? token next).toList.flatMap Flag.tokens ++ pick (next :: rest) := by
  rw [pick]
  congr 1
  cases kind : classify token with
  | none => rw [Flag.ofPair?_of_none kind]; rfl
  | some flagKind =>
      cases flagKind with
      | glued => rw [Flag.ofPair?_of_glued kind]; rfl
      | split => rw [Flag.ofPair?_of_split kind]; rfl

theorem pick_eq_flatMap (tokens : List (List Char)) :
    pick tokens = (Flag.ofTokens tokens).flatMap Flag.tokens := by
  induction tokens using pick.induct with
  | case1 token next rest ih =>
      rw [pick_cons_cons, Flag.ofTokens_cons_cons, List.flatMap_append, ih]
  | case2 tokens h =>
      rcases tokens with _ | ⟨token, _ | ⟨next, rest⟩⟩
      · rfl
      · rfl
      · exact absurd rfl (h token next rest)

/-- No value that is followed by another token is a flag itself. -/
def ValuesAreNoFlags (tokens : List (List Char)) : Prop :=
  ∀ token value next, [token, value, next] <:+: tokens →
    classify token = some .split → classify value = none

theorem ValuesAreNoFlags.tail {token : List Char} {rest : List (List Char)}
    (h : ValuesAreNoFlags (token :: rest)) : ValuesAreNoFlags rest :=
  fun key value next hinfix => h key value next (List.infix_cons hinfix)

/-- Without values that are flags the picked tokens stand on the line in their order, and if the
first token is no flag, they stand behind it. -/
theorem pick_sublist {tokens : List (List Char)} (h : ValuesAreNoFlags tokens) :
    (pick tokens).Sublist tokens ∧
      ∀ token rest, tokens = token :: rest → classify token = none → (pick tokens).Sublist rest := by
  induction tokens using pick.induct with
  | case1 token next rest ih =>
      obtain ⟨hnext, hrest⟩ := ih h.tail
      rw [pick]
      cases kind : classify token with
      | none =>
          refine ⟨hnext.cons token, ?_⟩
          intro key tail htokens _
          cases htokens
          exact hnext
      | some flagKind =>
          refine ⟨?_, ?_⟩
          · cases flagKind with
            | glued => exact hnext.cons_cons token
            | split =>
                refine (List.Sublist.cons_cons next ?_).cons_cons token
                cases rest with
                | nil => exact List.Sublist.refl []
                | cons last rest =>
                    have hinfix : [token, next, last] <:+: token :: next :: last :: rest :=
                      ⟨[], rest, rfl⟩
                    exact hrest next _ rfl (h token next last hinfix kind)
          · intro key tail htokens hkey
            cases htokens
            rw [kind] at hkey
            cases hkey
  | case2 tokens hshort =>
      rcases tokens with _ | ⟨token, _ | ⟨next, rest⟩⟩
      · exact ⟨List.Sublist.refl [], fun _ _ htokens => nomatch htokens⟩
      · exact ⟨List.nil_sublist _, fun _ _ _ _ => List.nil_sublist _⟩
      · exact absurd rfl (hshort token next rest)

/-- The flags on a line are read back whole, one for each token but the last that is a flag and with
the token after it as the value if it takes one. As long as no value is a flag itself, no token of
the line is picked twice. -/
theorem flags_readBack (line : List Char) :
    Flag.read? (ofLine line) = some (Flag.ofTokens (tokenize line)) ∧
      (ValuesAreNoFlags (tokenize line) → (ofLine line).Sublist (tokenize line)) := by
  constructor
  · rw [ofLine, pick_eq_flatMap, Flag.read?_flatMap_tokens]
  · intro hvalues
    exact (pick_sublist hvalues).1

/-- A value that is a flag is picked once as the value and once as a flag. -/
example : ofLine "-isysroot -I/opt -c".toList =
    ["-isysroot".toList, "-I/opt".toList, "-I/opt".toList] := by decide

/-- A line that ends in a value which looks like a flag. -/
def flagAtEnd : List Char := "cc -arch  arm64 -Imy\\ dir -isysroot -F".toList

/-- The value at the end of the line is not looked at again. -/
theorem flags_readBack_of_flagAtEnd :
    ValuesAreNoFlags (tokenize flagAtEnd) ∧
    Flag.read? (ofLine flagAtEnd) = some [.split "-arch".toList "arm64".toList rfl,
      .glued "-Imy dir".toList rfl, .split "-isysroot".toList "-F".toList rfl] ∧
    (ofLine flagAtEnd).Sublist (tokenize flagAtEnd) := by
  have htokens : tokenize flagAtEnd = ["cc".toList, "-arch".toList, "arm64".toList,
      "-Imy dir".toList, "-isysroot".toList, "-F".toList] := by decide
  have hvalues : ValuesAreNoFlags (tokenize flagAtEnd) := by
    rw [htokens]
    intro token value next hinfix
    simp only [List.infix_cons_iff, List.cons_prefix_cons, List.infix_nil, List.prefix_nil,
      List.cons_ne_nil, and_false, or_false, List.nil_prefix, and_true] at hinfix
    rcases hinfix with ⟨rfl, rfl, rfl⟩ | ⟨rfl, rfl, rfl⟩ | ⟨rfl, rfl, rfl⟩ | ⟨rfl, rfl, rfl⟩
    all_goals decide
  have hread := flags_readBack flagAtEnd
  exact ⟨hvalues, hread.1, hread.2 hvalues⟩

end BridgingHeader.CompilerFlags
