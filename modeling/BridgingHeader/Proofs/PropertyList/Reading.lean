import BridgingHeader.Proofs.PropertyList.Tokens

/-!
# What the reader accepts

The reader accepts exactly the documents of the grammar. In one direction a successful run is turned
into a derivation. In the other a derivation tells the reader what it finds, and the fuel suffices
because every production leaves a shorter text.
-/

namespace BridgingHeader.PropertyList

/-! ### Values -/

/-- The first character after trivia decides what kind of value is read. -/
theorem readValue_of_brace {text rest : List Char}
    (h : skipTrivia .outside text = .ok ('{' :: rest)) (fuel : Nat) :
    readValue (fuel + 1) text = (readEntries fuel .empty rest).map
      fun (contents, left) => (.dictionary contents, left) := by
  simp only [readValue, h, bind, Except.bind]
  cases readEntries fuel .empty rest <;> rfl

theorem readValue_of_parenthesis {text rest : List Char}
    (h : skipTrivia .outside text = .ok ('(' :: rest)) (fuel : Nat) :
    readValue (fuel + 1) text = (readItems fuel rest).map
      fun (items, left) => (.array items, left) := by
  simp only [readValue, h, bind, Except.bind]
  cases readItems fuel rest <;> rfl

theorem readValue_of_other {text start : List Char} (h : skipTrivia .outside text = .ok start)
    (hbrace : start.head? ≠ some '{') (hparenthesis : start.head? ≠ some '(') (fuel : Nat) :
    readValue (fuel + 1) text = (readString start).map
      fun (contents, left) => (.string contents, left) := by
  simp only [readValue, h, bind, Except.bind]
  split
  · exact absurd rfl hbrace
  · exact absurd rfl hparenthesis
  · cases readString start <;> rfl

theorem readEntries_of_close {text rest : List Char}
    (h : skipTrivia .outside text = .ok ('}' :: rest)) (fuel : Nat)
    (contents : Dictionary PropertyList) :
    readEntries (fuel + 1) contents text = .ok (contents, rest) := by
  simp only [readEntries, h, bind, Except.bind]
  rfl

theorem readEntries_of_entry {text start : List Char} (h : skipTrivia .outside text = .ok start)
    (hclose : start.head? ≠ some '}') (fuel : Nat) (contents : Dictionary PropertyList) :
    readEntries (fuel + 1) contents text = (do
      let (key, rest) ← readString start
      let rest ← expectMark '=' rest
      let (value, rest) ← readValue fuel rest
      let rest ← expectMark ';' rest
      readEntries fuel (contents.insert key value) rest) := by
  simp only [readEntries, h]
  cases start with
  | nil => rfl
  | cons c start =>
      have hc : c ≠ '}' := fun e => hclose (congrArg some e)
      simp only [bind, Except.bind]
      split
      · next he =>
          injection he with he
          exact absurd he hc
      · rfl

theorem readItems_of_close {text rest : List Char}
    (h : skipTrivia .outside text = .ok (')' :: rest)) (fuel : Nat) :
    readItems (fuel + 1) text = .ok ([], rest) := by
  simp only [readItems, h, bind, Except.bind]
  rfl

/-- What follows an item: a comma and more items, or the end of the array. -/
def readSeparator (fuel : Nat) (item : PropertyList) (text : List Char) :
    Except Stop (List PropertyList × List Char) := do
  match ← skipTrivia .outside text with
  | ',' :: rest =>
    let (items, left) ← readItems fuel rest
    return (item :: items, left)
  | ')' :: rest => return ([item], rest)
  | c :: rest => throw ⟨.unseparatedItem c, c :: rest⟩
  | [] => throw ⟨.unterminatedArray, []⟩

theorem readItems_of_item {text start : List Char} (h : skipTrivia .outside text = .ok start)
    (hclose : start.head? ≠ some ')') (fuel : Nat) :
    readItems (fuel + 1) text = (do
      let (item, rest) ← readValue fuel start
      readSeparator fuel item rest) := by
  simp only [readItems, h]
  cases start with
  | nil => rfl
  | cons c start =>
      have hc : c ≠ ')' := fun e => hclose (congrArg some e)
      simp only [bind, Except.bind]
      split
      · next he =>
          injection he with he
          exact absurd he hc
      · rfl

theorem readSeparator_eq_ok {fuel : Nat} {item : PropertyList} {text rest : List Char}
    {items : List PropertyList} (h : readSeparator fuel item text = .ok (items, rest)) :
    (∃ next tail, Trivia text (',' :: next) ∧ readItems fuel next = .ok (tail, rest) ∧
      items = item :: tail) ∨ Trivia text (')' :: rest) ∧ items = [item] := by
  obtain ⟨left, hskip, hmatch⟩ := bind_eq_ok_iff.mp h
  have htrivia := trivia_of_skipTrivia hskip
  split at hmatch
  · next next =>
      obtain ⟨⟨tail, left⟩, htail, he⟩ := bind_eq_ok_iff.mp hmatch
      cases he
      exact Or.inl ⟨next, tail, htrivia, htail, rfl⟩
  · cases hmatch
    exact Or.inr ⟨htrivia, rfl⟩
  · cases hmatch
  · cases hmatch

/-! ### Soundness -/

mutual

/-- A value that is read is derived behind trivia. -/
theorem valueText_of_readValue {text rest : List Char} {value : PropertyList} :
    (fuel : Nat) → readValue fuel text = .ok (value, rest) →
      ∃ start, Trivia text start ∧ ValueText start value rest
  | 0, h => by cases h
  | fuel + 1, h => by
      obtain ⟨start, hskip, -⟩ := bind_eq_ok_iff.mp h
      have htrivia := trivia_of_skipTrivia hskip
      by_cases hbrace : start.head? = some '{'
      · obtain ⟨inner, rfl⟩ := List.head?_eq_some_iff.mp hbrace
        rw [readValue_of_brace hskip] at h
        obtain ⟨⟨contents, left⟩, hentries, he⟩ := map_eq_ok_iff.mp h
        cases he
        obtain ⟨entries, hbody, rfl⟩ := entriesText_of_readEntries fuel hentries
        exact ⟨_, htrivia, .dictionary hbody (Dictionary.collects_ofList entries)⟩
      · by_cases hparenthesis : start.head? = some '('
        · obtain ⟨inner, rfl⟩ := List.head?_eq_some_iff.mp hparenthesis
          rw [readValue_of_parenthesis hskip] at h
          obtain ⟨⟨items, left⟩, hitems, he⟩ := map_eq_ok_iff.mp h
          cases he
          exact ⟨_, htrivia, .array (itemsText_of_readItems fuel hitems)⟩
        · rw [readValue_of_other hskip hbrace hparenthesis] at h
          obtain ⟨⟨contents, left⟩, hstring, he⟩ := map_eq_ok_iff.mp h
          cases he
          rcases startsToken_of_skipTrivia hskip with rfl | htoken
          · cases hstring
          · exact ⟨_, htrivia, .string (stringText_of_readString htoken hstring)⟩

/-- Entries that are read are derived, and they are inserted one after the other. -/
theorem entriesText_of_readEntries {text rest : List Char}
    {before contents : Dictionary PropertyList} :
    (fuel : Nat) → readEntries fuel before text = .ok (contents, rest) →
      ∃ entries, EntriesText text entries rest ∧
        entries.foldl (fun d entry => d.insert entry.1 entry.2) before = contents
  | 0, h => by cases h
  | fuel + 1, h => by
      obtain ⟨start, hskip, -⟩ := bind_eq_ok_iff.mp h
      have htrivia := trivia_of_skipTrivia hskip
      by_cases hclose : start.head? = some '}'
      · obtain ⟨inner, rfl⟩ := List.head?_eq_some_iff.mp hclose
        rw [readEntries_of_close hskip] at h
        cases h
        exact ⟨[], .close htrivia, rfl⟩
      · rw [readEntries_of_entry hskip hclose] at h
        obtain ⟨⟨key, afterKey⟩, hkey, h⟩ := bind_eq_ok_iff.mp h
        obtain ⟨beforeValue, hequals, h⟩ := bind_eq_ok_iff.mp h
        obtain ⟨⟨value, after⟩, hvalue, h⟩ := bind_eq_ok_iff.mp h
        obtain ⟨next, hsemicolon, h⟩ := bind_eq_ok_iff.mp h
        obtain ⟨valueStart, hbetween, hhead⟩ := valueText_of_readValue fuel hvalue
        obtain ⟨entries, htail, hcontents⟩ := entriesText_of_readEntries fuel h
        rcases startsToken_of_skipTrivia hskip with rfl | htoken
        · cases hkey
        · exact ⟨(key, value) :: entries, .entry htrivia (stringText_of_readString htoken hkey)
            (trivia_of_expectMark hequals) hbetween hhead (trivia_of_expectMark hsemicolon) htail,
            hcontents⟩

/-- Items that are read are derived. -/
theorem itemsText_of_readItems {text rest : List Char} {items : List PropertyList} :
    (fuel : Nat) → readItems fuel text = .ok (items, rest) → ItemsText text items rest
  | 0, h => by cases h
  | fuel + 1, h => by
      obtain ⟨start, hskip, -⟩ := bind_eq_ok_iff.mp h
      have htrivia := trivia_of_skipTrivia hskip
      by_cases hclose : start.head? = some ')'
      · obtain ⟨inner, rfl⟩ := List.head?_eq_some_iff.mp hclose
        rw [readItems_of_close hskip] at h
        cases h
        exact .close htrivia
      · rw [readItems_of_item hskip hclose] at h
        obtain ⟨⟨item, after⟩, hitem, h⟩ := bind_eq_ok_iff.mp h
        obtain ⟨valueStart, hbefore, hhead⟩ := valueText_of_readValue fuel hitem
        rcases readSeparator_eq_ok h with ⟨next, tail, hcomma, htail, rfl⟩ | ⟨hend, rfl⟩
        · exact .item (htrivia.trans hbefore) hhead hcomma (itemsText_of_readItems fuel htail)
        · exact .last (htrivia.trans hbefore) hhead hend

end

/-! ### Completeness -/

theorem startsToken_of_valueText {text rest : List Char} {value : PropertyList}
    (h : ValueText text value rest) : StartsToken text := by
  cases h with
  | string body => exact startsToken_of_stringText body
  | array => exact ⟨by decide, fun e => absurd e.1 (by decide)⟩
  | dictionary => exact ⟨by decide, fun e => absurd e.1 (by decide)⟩

theorem head_of_valueText_ne {text rest : List Char} {value : PropertyList}
    (h : ValueText text value rest) : text.head? ≠ some ')' := by
  cases h with
  | string body => exact head_of_stringText_ne body (by decide)
  | array => simp
  | dictionary => simp

theorem readSeparator_of_comma {text next : List Char} (h : Trivia text (',' :: next)) (fuel : Nat)
    (item : PropertyList) :
    readSeparator fuel item text = (readItems fuel next).map
      fun (items, left) => (item :: items, left) := by
  simp only [readSeparator, skipTrivia_to_mark h (by decide), bind, Except.bind]
  cases readItems fuel next <;> rfl

theorem readSeparator_of_close {text rest : List Char} (h : Trivia text (')' :: rest)) (fuel : Nat)
    (item : PropertyList) : readSeparator fuel item text = .ok ([item], rest) := by
  simp only [readSeparator, skipTrivia_to_mark h (by decide), bind, Except.bind]
  rfl

mutual

/-- A derived value is read, also behind trivia, with a unit of fuel for each of its characters. -/
theorem readValue_of_valueText {text start rest : List Char} {value : PropertyList}
    (before : Trivia text start) : ValueText start value rest → (fuel : Nat) →
      start.length ≤ fuel + rest.length → readValue fuel text = .ok (value, rest)
  | .string body, fuel, hfuel => by
      have hlength := body.length_lt
      obtain ⟨fuel, rfl⟩ : ∃ n, fuel = n + 1 := ⟨fuel - 1, by omega⟩
      have hskip := skipTrivia_to_token before (startsToken_of_stringText body)
      rw [readValue_of_other hskip (head_of_stringText_ne body (by decide))
        (head_of_stringText_ne body (by decide)), readString_of_stringText body]
      rfl
  | .array body, fuel, hfuel => by
      have hlength := body.length_lt
      rw [List.length_cons] at hfuel
      obtain ⟨fuel, rfl⟩ : ∃ n, fuel = n + 1 := ⟨fuel - 1, by omega⟩
      rw [readValue_of_parenthesis (skipTrivia_to_mark before (by decide)),
        readItems_of_itemsText body fuel (by omega)]
      rfl
  | .dictionary body collected, fuel, hfuel => by
      have hlength := body.length_lt
      rw [List.length_cons] at hfuel
      obtain ⟨fuel, rfl⟩ : ∃ n, fuel = n + 1 := ⟨fuel - 1, by omega⟩
      rw [readValue_of_brace (skipTrivia_to_mark before (by decide)),
        readEntries_of_entriesText body fuel (by omega) .empty,
        collected.unique (Dictionary.collects_ofList _)]
      rfl

/-- Derived entries are read and inserted one after the other. -/
theorem readEntries_of_entriesText {text rest : List Char}
    {entries : List (String × PropertyList)} : EntriesText text entries rest → (fuel : Nat) →
      text.length ≤ fuel + rest.length → (contents : Dictionary PropertyList) →
        readEntries fuel contents text =
          .ok (entries.foldl (fun d entry => d.insert entry.1 entry.2) contents, rest)
  | .close before, fuel, hfuel, contents => by
      have hlength := before.length_le
      rw [List.length_cons] at hlength
      obtain ⟨fuel, rfl⟩ : ∃ n, fuel = n + 1 := ⟨fuel - 1, by omega⟩
      exact readEntries_of_close (skipTrivia_to_mark before (by decide)) fuel contents
  | .entry before name equals between head semicolon tail, fuel, hfuel, contents => by
      have h₁ := before.length_le
      have h₂ := name.length_lt
      have h₃ := equals.length_le
      have h₄ := between.length_le
      have h₅ := head.length_lt
      have h₆ := semicolon.length_le
      have h₇ := tail.length_lt
      rw [List.length_cons] at h₃ h₆
      obtain ⟨fuel, rfl⟩ : ∃ n, fuel = n + 1 := ⟨fuel - 1, by omega⟩
      have hskip := skipTrivia_to_token before (startsToken_of_stringText name)
      rw [readEntries_of_entry hskip (head_of_stringText_ne name (by decide))]
      simp only [readString_of_stringText name, expectMark_to_mark equals (by decide),
        readValue_of_valueText between head fuel (by omega),
        expectMark_to_mark semicolon (by decide), bind, Except.bind]
      exact readEntries_of_entriesText tail fuel (by omega) _

/-- Derived items are read. -/
theorem readItems_of_itemsText {text rest : List Char} {items : List PropertyList} :
    ItemsText text items rest → (fuel : Nat) → text.length ≤ fuel + rest.length →
      readItems fuel text = .ok (items, rest)
  | .close before, fuel, hfuel => by
      have hlength := before.length_le
      rw [List.length_cons] at hlength
      obtain ⟨fuel, rfl⟩ : ∃ n, fuel = n + 1 := ⟨fuel - 1, by omega⟩
      exact readItems_of_close (skipTrivia_to_mark before (by decide)) fuel
  | .last before head close, fuel, hfuel => by
      have h₁ := before.length_le
      have h₂ := head.length_lt
      have h₃ := close.length_le
      rw [List.length_cons] at h₃
      obtain ⟨fuel, rfl⟩ : ∃ n, fuel = n + 1 := ⟨fuel - 1, by omega⟩
      have hskip := skipTrivia_to_token before (startsToken_of_valueText head)
      rw [readItems_of_item hskip (head_of_valueText_ne head),
        readValue_of_valueText .done head fuel (by omega)]
      exact readSeparator_of_close close fuel _
  | .item before head comma tail, fuel, hfuel => by
      have h₁ := before.length_le
      have h₂ := head.length_lt
      have h₃ := comma.length_le
      have h₄ := tail.length_lt
      rw [List.length_cons] at h₃
      obtain ⟨fuel, rfl⟩ : ∃ n, fuel = n + 1 := ⟨fuel - 1, by omega⟩
      have hskip := skipTrivia_to_token before (startsToken_of_valueText head)
      rw [readItems_of_item hskip (head_of_valueText_ne head),
        readValue_of_valueText .done head fuel (by omega)]
      refine (readSeparator_of_comma comma fuel _).trans ?_
      rw [readItems_of_itemsText tail fuel (by omega)]
      rfl

end

/-! ### Documents -/

/-- A document that is read is derived. -/
theorem documentText_of_readDocument {text : List Char} {value : PropertyList}
    (h : readDocument text = .ok value) : DocumentText text value := by
  obtain ⟨⟨value, after⟩, hvalue, h⟩ := bind_eq_ok_iff.mp h
  obtain ⟨left, hskip, h⟩ := bind_eq_ok_iff.mp h
  obtain ⟨start, hbefore, hbody⟩ := valueText_of_readValue _ hvalue
  split at h
  · cases h
    exact ⟨start, after, hbefore, hbody, trivia_of_skipTrivia hskip⟩
  · cases h

/-- A derived document is read. -/
theorem readDocument_of_documentText {text : List Char} {value : PropertyList}
    (h : DocumentText text value) : readDocument text = .ok value := by
  obtain ⟨start, after, hbefore, hbody, hafter⟩ := h
  have hlength := hbefore.length_le
  have hskip : skipTrivia .outside after = .ok [] := skipTrivia_of_trivia hafter
  simp only [readDocument, readValue_of_valueText hbefore hbody (2 * text.length + 1) (by omega),
    hskip, bind, Except.bind]
  rfl

theorem read_eq_ok_iff {text : String} {value : PropertyList} :
    read text = .ok value ↔ readDocument text.toList = .ok value := by
  cases h : readDocument text.toList <;> simp [read, h, Except.mapError]

/-- The reader accepts exactly the documents of the grammar, each for the value that it derives. -/
theorem read_ok_iff_documentText (text : String) (value : PropertyList) :
    read text = .ok value ↔ DocumentText text.toList value := by
  rw [read_eq_ok_iff]
  constructor
  · exact documentText_of_readDocument
  · exact readDocument_of_documentText

end BridgingHeader.PropertyList
