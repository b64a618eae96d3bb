import Mathlib.Data.List.DropRight
import BridgingHeader.Proofs.PropertyList.Locality

/-!
# Read errors

An error names the line and the column at which the reader has stopped, and it is told by the text
up to there and two characters more. The reader gets its fuel from the length of the text, so that
two texts are read with different fuel; but fuel that suffices does not show in what is read.
-/

namespace BridgingHeader.PropertyList

/-! ### Fuel -/

theorem LocalAt.length_le {α : Type} {reader : List Char → Except Stop (α × List Char)}
    {text rest : List Char} {a : α} (h : LocalAt reader text)
    (hread : reader text = .ok (a, rest)) : rest.length ≤ text.length := by
  obtain ⟨taken, htext, -⟩ := h
  rw [hread] at htext
  rw [htext, List.length_append]
  exact Nat.le_add_left _ _

theorem length_le_of_skipTrivia {text rest : List Char}
    (h : skipTrivia .outside text = .ok rest) : rest.length ≤ text.length :=
  (trivia_of_skipTrivia h).length_le

theorem length_lt_of_expectMark {mark : Char} {text rest : List Char}
    (h : expectMark mark text = .ok rest) : rest.length < text.length :=
  (trivia_of_expectMark h).length_le

/-- Two amounts of fuel read the same from texts for which both suffice. -/
structure SameReaders (fuel fuel' : Nat) : Prop where
  value : ∀ text : List Char, 2 * text.length < fuel → 2 * text.length < fuel' →
    readValue fuel text = readValue fuel' text
  entries : ∀ contents, ∀ text : List Char, 2 * text.length + 1 < fuel →
    2 * text.length + 1 < fuel' → readEntries fuel contents text = readEntries fuel' contents text
  items : ∀ text : List Char, 2 * text.length + 1 < fuel → 2 * text.length + 1 < fuel' →
    readItems fuel text = readItems fuel' text

section Step

variable {fuel fuel' : Nat} (h : SameReaders fuel fuel')

include h

theorem readStart_eq {text : List Char} (hfuel : 2 * text.length ≤ fuel)
    (hfuel' : 2 * text.length ≤ fuel') : readStart fuel text = readStart fuel' text := by
  by_cases hbrace : ∃ rest, text = '{' :: rest
  · obtain ⟨rest, rfl⟩ := hbrace
    rw [List.length_cons] at hfuel hfuel'
    rw [readStart.eq_1, readStart.eq_1, h.entries .empty rest (by omega) (by omega)]
  by_cases hparenthesis : ∃ rest, text = '(' :: rest
  · obtain ⟨rest, rfl⟩ := hparenthesis
    rw [List.length_cons] at hfuel hfuel'
    rw [readStart.eq_2, readStart.eq_2, h.items rest (by omega) (by omega)]
  · have hbrace' : ∀ rest, text = '{' :: rest → False := fun rest he => hbrace ⟨rest, he⟩
    have hparenthesis' : ∀ rest, text = '(' :: rest → False :=
      fun rest he => hparenthesis ⟨rest, he⟩
    rw [readStart.eq_3 _ _ hbrace' hparenthesis', readStart.eq_3 _ _ hbrace' hparenthesis']

theorem readEntry_eq (contents : Dictionary PropertyList) {text : List Char}
    (hfuel : 2 * text.length < fuel + 1) (hfuel' : 2 * text.length < fuel' + 1) :
    readEntry fuel contents text = readEntry fuel' contents text := by
  by_cases hclose : ∃ rest, text = '}' :: rest
  · obtain ⟨rest, rfl⟩ := hclose
    rw [readEntry.eq_1, readEntry.eq_1]
  · have hclose' : ∀ rest, text = '}' :: rest → False := fun rest he => hclose ⟨rest, he⟩
    rw [readEntry.eq_2 _ _ _ hclose', readEntry.eq_2 _ _ _ hclose']
    refine bind_congr_of_ok ?_
    rintro ⟨key, rest₁⟩ hkey
    refine bind_congr_of_ok fun rest₂ hequals => ?_
    have h₁ := (localAt_readString text).length_le hkey
    have h₂ := length_lt_of_expectMark hequals
    rw [h.value rest₂ (by omega) (by omega)]
    refine bind_congr_of_ok ?_
    rintro ⟨value, rest₃⟩ hvalue
    refine bind_congr_of_ok fun rest₄ hsemicolon => ?_
    have h₃ := ((localAt_readers fuel').1 rest₂).length_le hvalue
    have h₄ := length_lt_of_expectMark hsemicolon
    exact h.entries _ rest₄ (by omega) (by omega)

theorem readSeparator_eq_of_fuel (item : PropertyList) {text : List Char}
    (hfuel : 2 * text.length ≤ fuel) (hfuel' : 2 * text.length ≤ fuel') :
    readSeparator fuel item text = readSeparator fuel' item text := by
  rw [readSeparator_eq, readSeparator_eq]
  refine bind_congr_of_ok fun rest hskip => ?_
  have hlength := length_le_of_skipTrivia hskip
  rcases rest with _ | ⟨c, rest⟩
  · rfl
  rw [List.length_cons] at hlength
  by_cases hcomma : c = ','
  · subst hcomma
    rw [readSeparated.eq_1, readSeparated.eq_1, h.items rest (by omega) (by omega)]
  by_cases hclose : c = ')'
  · subst hclose
    rw [readSeparated.eq_2, readSeparated.eq_2]
  · rw [readSeparated.eq_3 _ _ _ _ hcomma hclose, readSeparated.eq_3 _ _ _ _ hcomma hclose]

theorem readItem_eq {text : List Char} (hfuel : 2 * text.length < fuel)
    (hfuel' : 2 * text.length < fuel') : readItem fuel text = readItem fuel' text := by
  by_cases hclose : ∃ rest, text = ')' :: rest
  · obtain ⟨rest, rfl⟩ := hclose
    rw [readItem.eq_1, readItem.eq_1]
  · have hclose' : ∀ rest, text = ')' :: rest → False := fun rest he => hclose ⟨rest, he⟩
    rw [readItem.eq_2 _ _ hclose', readItem.eq_2 _ _ hclose', h.value text hfuel hfuel']
    refine bind_congr_of_ok ?_
    rintro ⟨item, rest⟩ hitem
    have hlength := ((localAt_readers fuel').1 text).length_le hitem
    exact readSeparator_eq_of_fuel h item (by omega) (by omega)

end Step

/-- Fuel that suffices does not show in what is read. -/
theorem sameReaders (fuel fuel' : Nat) : SameReaders fuel fuel' := by
  induction fuel generalizing fuel' with
  | zero => exact ⟨fun _ h => by omega, fun _ _ h => by omega, fun _ h => by omega⟩
  | succ fuel ih =>
      cases fuel' with
      | zero => exact ⟨fun _ _ h => by omega, fun _ _ _ h => by omega, fun _ _ h => by omega⟩
      | succ fuel' =>
          constructor
          case value =>
            intro text hfuel hfuel'
            rw [readValue_succ, readValue_succ]
            refine bind_congr_of_ok fun rest hskip => ?_
            have hlength := length_le_of_skipTrivia hskip
            exact readStart_eq (ih fuel') (by omega) (by omega)
          case entries =>
            intro contents text hfuel hfuel'
            rw [readEntries_succ, readEntries_succ]
            refine bind_congr_of_ok fun rest hskip => ?_
            have hlength := length_le_of_skipTrivia hskip
            exact readEntry_eq (ih fuel') contents (by omega) (by omega)
          case items =>
            intro text hfuel hfuel'
            rw [readItems_succ, readItems_succ]
            refine bind_congr_of_ok fun rest hskip => ?_
            have hlength := length_le_of_skipTrivia hskip
            exact readItem_eq (ih fuel') (by omega) (by omega)

/-! ### Documents -/

/-- The end of a text behind a value. -/
def readEnd (value : PropertyList) : List Char → Except Stop (PropertyList × List Char)
  | [] => .ok (value, [])
  | c :: rest => .error ⟨.trailingContent, c :: rest⟩

/-- A document, read with some fuel. -/
def readWhole (fuel : Nat) (text : List Char) : Except Stop (PropertyList × List Char) := do
  let (value, rest) ← readValue fuel text
  let rest ← skipTrivia .outside rest
  readEnd value rest

theorem localAt_readEnd (value : PropertyList) (text : List Char) :
    LocalAt (readEnd value) text := by
  cases text with
  | nil => exact localAt_nil rfl
  | cons c text =>
      refine localAt_stop .trailingContent fun rest hrest => ?_
      obtain ⟨rest, rfl, -⟩ := hrest.cons
      rfl

theorem localAt_readWhole (fuel : Nat) (text : List Char) : LocalAt (readWhole fuel) text :=
  ((localAt_readers fuel).1 text).bind _ fun value rest _ =>
    localAt_after_trivia (localAt_readEnd value) rest

/-- A document is read with any fuel that suffices. -/
theorem readDocument_eq {fuel : Nat} {text : List Char} (hfuel : 2 * text.length < fuel) :
    readDocument text = (readWhole fuel text).map Prod.fst := by
  rw [readDocument, readWhole, (sameReaders _ fuel).value text (by omega) hfuel]
  rcases readValue fuel text with stop | ⟨value, rest⟩
  · rfl
  · simp only [bind, Except.bind]
    rcases skipTrivia .outside rest with stop | ⟨_ | ⟨c, rest⟩⟩
    · rfl
    · rfl
    · rfl

theorem readDocument_eq_error_iff {fuel : Nat} {text : List Char} {stop : Stop}
    (hfuel : 2 * text.length < fuel) :
    readDocument text = .error stop ↔ readWhole fuel text = .error stop := by
  rw [readDocument_eq hfuel]
  cases readWhole fuel text <;> simp [Except.map]

/-- Why and where a document stops to be one is told by the text in front of that point and the two
characters behind it. -/
theorem readDocument_error_local {text : List Char} {stop : Stop}
    (h : readDocument text = .error stop) :
    ∃ taken, text = taken ++ stop.rest ∧
      ∀ rest, Agree stop.rest rest → readDocument (taken ++ rest) = .error ⟨stop.fault, rest⟩ := by
  have hwhole : ∀ fuel, 2 * text.length < fuel → ∃ taken, text = taken ++ stop.rest ∧
      ∀ rest, Agree stop.rest rest → readWhole fuel (taken ++ rest) = .error ⟨stop.fault, rest⟩ := by
    intro fuel hfuel
    obtain ⟨taken, htext, hlocal⟩ := localAt_readWhole fuel text
    rw [(readDocument_eq_error_iff hfuel).mp h] at htext hlocal
    exact ⟨taken, htext, hlocal⟩
  obtain ⟨taken, htext, -⟩ := hwhole (2 * text.length + 1) (by omega)
  refine ⟨taken, htext, fun rest hrest => ?_⟩
  -- One amount of fuel that suffices for both texts.
  obtain ⟨taken', htext', hlocal⟩ := hwhole (2 * (text.length + (taken ++ rest).length) + 1)
    (by omega)
  obtain rfl : taken = taken' := List.append_cancel_right (htext.symm.trans htext')
  exact (readDocument_eq_error_iff (by omega)).mpr (hlocal rest hrest)

theorem read_eq_error_iff {text : String} {e : ReadError} :
    read text = .error e ↔
      ∃ stop, readDocument text.toList = .error stop ∧ stop.locate text.toList = e := by
  rw [read]
  cases readDocument text.toList <;> simp [Except.mapError]

/-- A text that starts with a piece of another one and shares two characters more. -/
theorem exists_agree_of_take {taken rest other : List Char}
    (h : other.take (taken.length + 2) = (taken ++ rest).take (taken.length + 2)) :
    ∃ rest', other = taken ++ rest' ∧ Agree rest rest' := by
  have htaken : other.take taken.length = taken := by
    have hprefix := congrArg (List.take taken.length) h
    simpa [List.take_take] using hprefix
  refine ⟨other.drop taken.length, ?_, ?_⟩
  · conv_lhs => rw [← List.take_append_drop taken.length other, htaken]
  · have hbehind := congrArg (List.drop taken.length) h
    rwa [List.drop_take, List.drop_take, Nat.add_sub_cancel_left, List.drop_left] at hbehind

/-- An error stands at a point of the text, and every text that is the same up to there and two
characters further gives the same error. -/
theorem read_error_local {text : String} {e : ReadError} (h : read text = .error e) :
    ∃ p ≤ text.length,
      e.position.line = 1 + (text.toList.take p).count '\n' ∧
      e.position.column = 1 + ((text.toList.take p).rtakeWhile (· ≠ '\n')).length ∧
      ∀ other : String, other.toList.take (p + 2) = text.toList.take (p + 2) →
        read other = .error e := by
  obtain ⟨stop, hstop, rfl⟩ := read_eq_error_iff.mp h
  obtain ⟨taken, htext, hlocal⟩ := readDocument_error_local hstop
  have htake : text.toList.take taken.length = taken := by simp [htext]
  have hposition : (stop.locate text.toList).position = .after taken := by
    rw [Text.Stop.locate, htext]
    exact Text.Position.ofSuffix_append taken stop.rest
  refine ⟨taken.length, ?_, ?_, ?_, ?_⟩
  · rw [← String.length_toList, htext, List.length_append]
    exact Nat.le_add_right _ _
  · rw [hposition, htake, Text.Position.line_after, Nat.add_comm]
  · rw [hposition, htake, Text.Position.column_after, List.rtakeWhile, List.length_reverse,
      Nat.add_comm]
  · intro other hother
    rw [htext] at hother
    obtain ⟨rest, hrest, hagree⟩ := exists_agree_of_take hother
    refine read_eq_error_iff.mpr ⟨_, hrest ▸ hlocal rest hagree, ?_⟩
    have hother : (Text.Stop.locate ⟨stop.fault, rest⟩ other.toList).position = .after taken := by
      rw [Text.Stop.locate, hrest]
      exact Text.Position.ofSuffix_append taken rest
    rw [Text.Stop.locate] at hother hposition ⊢
    rw [Text.Stop.locate, Text.Located.mk.injEq]
    exact ⟨rfl, hother.trans hposition.symm⟩

/-- A dictionary whose entry lacks its semicolon. -/
def unendedEntry : String := "\x7b\n  a = b\n\x7d"

/-- The closing brace is where the semicolon is missed, and a text is wrong in the same way if it is
the same up to there. -/
theorem read_error_local_of_unendedEntry :
    read unendedEntry = .error ⟨.expected ';' (some '}'), ⟨3, 1⟩⟩ ∧
    ∃ p ≤ unendedEntry.length, 3 = 1 + (unendedEntry.toList.take p).count '\n' ∧
      1 = 1 + ((unendedEntry.toList.take p).rtakeWhile (· ≠ '\n')).length ∧
      ∀ other : String, other.toList.take (p + 2) = unendedEntry.toList.take (p + 2) →
        read other = .error ⟨.expected ';' (some '}'), ⟨3, 1⟩⟩ := by
  have herror : read unendedEntry = .error ⟨.expected ';' (some '}'), ⟨3, 1⟩⟩ := by decide +kernel
  exact ⟨herror, read_error_local herror⟩

end BridgingHeader.PropertyList
