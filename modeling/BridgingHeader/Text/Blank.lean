/-!
# Blank characters

White space in project descriptors, build settings and tool output is the Unicode property
`White_Space`. Trimming removes a maximal blank run from an end of a text.
-/

namespace BridgingHeader.Text

/-- The closed ranges of code points with the property `White_Space`. -/
def blankRanges : List (Nat × Nat) :=
  [(0x09, 0x0D), (0x20, 0x20), (0x85, 0x85), (0xA0, 0xA0), (0x1680, 0x1680), (0x2000, 0x200A),
   (0x2028, 0x2029), (0x202F, 0x202F), (0x205F, 0x205F), (0x3000, 0x3000)]

/-- A character is blank if its code point lies in one of the ranges. -/
def isBlank (c : Char) : Bool :=
  blankRanges.any fun (low, high) => low ≤ c.toNat && c.toNat ≤ high

/-- The text from its first character that is not blank. -/
def trimStart (text : List Char) : List Char := text.dropWhile isBlank

/-- The text through its last character that is not blank. -/
def trimEnd (text : List Char) : List Char := (text.reverse.dropWhile isBlank).reverse

/-- The text without the blank runs at both ends. -/
def trim (text : List Char) : List Char := trimEnd (trimStart text)

/-- Trimming at the front leaves nothing exactly when every character is blank. -/
theorem trimStart_eq_nil_iff {text : List Char} :
    trimStart text = [] ↔ ∀ c ∈ text, isBlank c = true := by
  induction text with
  | nil => simp [trimStart]
  | cons c rest ih =>
    by_cases h : isBlank c = true
    · rw [trimStart] at ih ⊢
      rw [List.dropWhile_cons_of_pos h, ih]
      simp [h]
    · simp [trimStart, h]

end BridgingHeader.Text
