import BridgingHeader.PropertyList.Printer
import BridgingHeader.Proofs.PropertyList.Reading

/-!
# Printing and reading back

A printed document is a derivation of the value that was printed, so the reader gives that value
back. This needs distinct keys, since a repeated key is read as a replacement. Every value that is
read has distinct keys.
-/

namespace BridgingHeader.PropertyList

/-- No dictionary inside a value has a key twice. -/
inductive DistinctKeys : PropertyList → Prop
  | string (contents) : DistinctKeys (.string contents)
  | array {items} (inner : ∀ item ∈ items, DistinctKeys item) : DistinctKeys (.array items)
  | dictionary {contents : Dictionary PropertyList} (keys : contents.keys.Nodup)
      (inner : ∀ entry ∈ contents.entries, DistinctKeys entry.2) :
      DistinctKeys (.dictionary contents)

/-! ### What is read has distinct keys -/

mutual

theorem ValueText.distinctKeys {text rest : List Char} {value : PropertyList} :
    ValueText text value rest → value.DistinctKeys
  | .string _ => .string _
  | .array body => .array body.distinctKeys
  | .dictionary body collected =>
      .dictionary collected.nodup_keys fun entry hentry =>
        body.distinctKeys entry (collected.mem_pairs hentry)

theorem ItemsText.distinctKeys {text rest : List Char} {items : List PropertyList} :
    ItemsText text items rest → ∀ item ∈ items, item.DistinctKeys
  | .close _ => by simp
  | .last _ head _ => List.forall_mem_singleton.mpr head.distinctKeys
  | .item _ head _ tail => List.forall_mem_cons.mpr ⟨head.distinctKeys, tail.distinctKeys⟩

theorem EntriesText.distinctKeys {text rest : List Char}
    {entries : List (String × PropertyList)} :
    EntriesText text entries rest → ∀ entry ∈ entries, entry.2.DistinctKeys
  | .close _ => by simp
  | .entry _ _ _ _ head _ tail =>
      List.forall_mem_cons.mpr ⟨head.distinctKeys, tail.distinctKeys⟩

end

/-! ### Printed strings -/

/-- What the printer writes behind a value or a key. -/
def Delimits (rest : List Char) : Prop := ∀ c ∈ rest.head?, c ∈ [' ', ';', ',', '\n']

theorem quotedCharacter_escape (c : Char) : QuotedCharacter '"' (escape c) c := by
  unfold escape
  split
  · exact .itself (by decide) (by decide)
  · exact .itself (by decide) (by decide)
  · exact .letter (by decide)
  · exact .letter (by decide)
  · exact .letter (by decide)
  · next hquote hbackslash _ _ _ => exact .plain hquote hbackslash

theorem quotedText_flatMap_escape (contents rest : List Char) :
    QuotedText '"' (contents.flatMap escape ++ '"' :: rest) contents rest := by
  induction contents with
  | nil => exact .close
  | cons c contents ih =>
      rw [List.flatMap_cons, List.append_assoc]
      exact .character (quotedCharacter_escape c) ih

theorem bareCharacter_of_isHarmless {c : Char} (h : isHarmless c = true) : BareCharacter c := by
  rw [← isBare_iff]
  rw [isBare, Bool.or_eq_true, Bool.or_eq_true]
  exact Or.inl (Or.inl h)

/-- A run without comment openers does not get one from what the printer writes behind it. -/
theorem not_prefix_append {contents rest : List Char} {c : Char} (hne : contents ≠ [])
    (hrest : Delimits rest) (hc : c ∉ [' ', ';', ',', '\n']) (h : ¬ ['/', c] <:+: contents) :
    ¬ ['/', c] <+: contents ++ rest := by
  rintro ⟨tail, he⟩
  cases contents with
  | nil => exact hne rfl
  | cons d contents =>
      injection he with hd he
      subst hd
      cases contents with
      | nil =>
          have hrest' : rest = c :: tail := he.symm
          have hhead : c ∈ rest.head? := by
            rw [hrest']
            rfl
          exact hc (hrest c hhead)
      | cons e contents =>
          injection he with he _
          subst he
          exact h ⟨[], contents, rfl⟩

/-- A printed string is a string of the grammar in front of what the printer writes behind it. -/
theorem stringText_printString (contents : String) {rest : List Char} (h : Delimits rest) :
    StringText (printString contents.toList ++ rest) contents rest := by
  have hcontents : String.ofList contents.toList = contents := String.ofList_toList
  generalize contents.toList = run at hcontents
  subst hcontents
  unfold printString
  split
  · have hbody := quotedText_flatMap_escape run rest
    simpa using StringText.quoted (Or.inl rfl) hbody
  · next hquotes =>
      simp only [needsQuotes, Bool.or_eq_true, Text.occursIn_iff, List.isEmpty_iff,
        Bool.not_eq_true', not_or, List.all_eq_false, not_exists, not_and, not_not] at hquotes
      obtain ⟨⟨⟨hne, hline⟩, hblock⟩, hharmless⟩ := hquotes
      refine .bare hne ?_ ?_ ?_ ?_
      · intro c hc
        exact bareCharacter_of_isHarmless (hharmless c hc)
      · intro c hc
        have hdelimiters : ∀ d ∈ [' ', ';', ',', '\n'], isBare d = false := by
          simp only [List.forall_mem_cons, List.not_mem_nil, false_imp_iff, forall_const]
          decide
        rw [← isBare_iff, hdelimiters c (h c hc)]
        decide
      · exact not_prefix_append hne h (by decide) hline
      · exact not_prefix_append hne h (by decide) hblock

/-! ### Printed values -/

theorem trivia_indent (depth : Nat) (rest : List Char) : Trivia (indent depth ++ rest) rest := by
  induction depth with
  | zero => exact .done
  | succ depth ih => exact .blank (by decide) ih

theorem trivia_newline (rest : List Char) : Trivia ('\n' :: rest) rest :=
  .blank (by decide) .done

/-- A printed item list is one of the grammar if every printed item is a value of it. -/
theorem itemsText_printItems {depth : Nat} {items : List PropertyList} {text rest : List Char}
    (hitems : ∀ item ∈ items, ∀ after, Delimits after →
      ValueText (printValue depth item after) item after)
    (hclose : Trivia text (')' :: rest)) :
    ItemsText (printItems depth items text) items rest := by
  induction items with
  | nil => exact .close hclose
  | cons item items ih =>
      obtain ⟨hitem, hitems⟩ := List.forall_mem_cons.mp hitems
      rw [printItems]
      refine .item (trivia_indent _ _) (hitem _ ?_) .done (.skip (trivia_newline _) (ih hitems))
      intro c hc
      cases hc
      decide

theorem entriesText_printEntries {depth : Nat} {entries : List (String × PropertyList)}
    {text rest : List Char}
    (hentries : ∀ entry ∈ entries, ∀ after, Delimits after →
      ValueText (printValue depth entry.2 after) entry.2 after)
    (hclose : Trivia text ('}' :: rest)) :
    EntriesText (printEntries depth entries text) entries rest := by
  induction entries with
  | nil => exact .close hclose
  | cons entry entries ih =>
      obtain ⟨key, value⟩ := entry
      obtain ⟨hvalue, hentries⟩ := List.forall_mem_cons.mp hentries
      have hkey : Delimits (' ' :: '=' :: ' ' :: printValue depth value
          (';' :: '\n' :: printEntries depth entries text)) := by
        intro c hc
        cases hc
        decide
      have hafter : Delimits (';' :: '\n' :: printEntries depth entries text) := by
        intro c hc
        cases hc
        decide
      rw [printEntries, List.append_assoc]
      exact .entry (trivia_indent _ _) (stringText_printString key hkey) (.blank (by decide) .done)
        (.blank (by decide) .done) (hvalue _ hafter) .done
        (.skip (trivia_newline _) (ih hentries))

/-- A printed value with distinct keys is a value of the grammar. -/
theorem valueText_printValue {value : PropertyList} (h : value.DistinctKeys) :
    ∀ depth rest, Delimits rest → ValueText (printValue depth value rest) value rest := by
  induction h with
  | string contents =>
      intro depth rest hrest
      exact .string (stringText_printString contents hrest)
  | array _ ih =>
      intro depth rest _
      refine .array (.skip (trivia_newline _) (itemsText_printItems ?_ (trivia_indent _ _)))
      intro item hitem
      exact ih item hitem (depth + 1)
  | @dictionary contents hkeys _ ih =>
      intro depth rest _
      obtain ⟨entries⟩ := contents
      refine .dictionary
        (.skip (trivia_newline _) (entriesText_printEntries ?_ (trivia_indent _ _)))
        (Dictionary.collects_entries hkeys)
      intro entry hentry
      exact ih entry hentry (depth + 1)

/-! ### Documents -/

/-- A printed value with distinct keys is a document of that value. -/
theorem documentText_printDocument {value : PropertyList} (h : value.DistinctKeys) :
    DocumentText (printDocument value) value := by
  have hend : Delimits ['\n'] := by
    intro c hc
    cases hc
    decide
  have hheading : heading = '/' :: '/' :: " !$*UTF8*$!".toList := by decide
  have hstart : Trivia (printDocument value) (printValue 0 value ['\n']) := by
    rw [printDocument, hheading]
    refine .lineComment (by decide) ?_ (trivia_newline _)
    intro c hc
    exact (Option.some.inj hc).symm
  exact ⟨_, _, hstart, valueText_printValue h 0 ['\n'] hend, trivia_newline []⟩

theorem read_print {value : PropertyList} (h : value.DistinctKeys) :
    read value.print = .ok value := by
  rw [read_eq_ok_iff, print, String.toList_ofList]
  exact readDocument_of_documentText (documentText_printDocument h)

theorem distinctKeys_of_read {text : String} {value : PropertyList} (h : read text = .ok value) :
    value.DistinctKeys := by
  obtain ⟨_, _, -, hbody, -⟩ := documentText_of_readDocument (read_eq_ok_iff.mp h)
  exact hbody.distinctKeys

/-- Reads a document and prints its value. -/
def rewrite (text : String) : Except ReadError String := (read text).map print

/-- Printing and reading gives back every value with distinct keys, and reading gives no other
values. Hence a document that is read can be rewritten with the same value, and rewriting it once
more changes nothing. -/
theorem print_read_round_trip :
    (∀ value : PropertyList, value.DistinctKeys → read value.print = .ok value) ∧
      ∀ (text : String) (value : PropertyList), read text = .ok value →
        value.DistinctKeys ∧ rewrite text = .ok value.print ∧ read value.print = .ok value ∧
          rewrite value.print = .ok value.print := by
  constructor
  · intro value h
    exact read_print h
  · intro text value h
    have hdistinct := distinctKeys_of_read h
    have hagain := read_print hdistinct
    refine ⟨hdistinct, ?_, hagain, ?_⟩
    · rw [rewrite, h]
      rfl
    · rw [rewrite, hagain]
      rfl

/-- A value with empty and commented strings at every level is printed and read back. A document
with a repeated key and an escape is rewritten without them. -/
theorem print_read_round_trip_of_nested :
    let nested := PropertyList.dictionary ⟨[("", .string "\x00/*"),
      ("a//b", .array [.dictionary ⟨[("\"", .string "\\\n")]⟩])]⟩
    let repeated := "\x7bb=1;a=(x,'\\U00e9',);b=\"//\";\x7d"
    let kept := PropertyList.dictionary ⟨[("b", .string "//"),
      ("a", .array [.string "x", .string "é"])]⟩
    (nested.DistinctKeys ∧ read nested.print = .ok nested) ∧
      read repeated = .ok kept ∧ rewrite kept.print = .ok kept.print := by
  intro nested repeated kept
  have hnested : nested.DistinctKeys := by
    refine .dictionary (by decide) (List.forall_mem_cons.mpr ⟨.string _, ?_⟩)
    refine List.forall_mem_singleton.mpr (.array (List.forall_mem_singleton.mpr ?_))
    exact .dictionary (by decide) (List.forall_mem_singleton.mpr (.string _))
  have hread : read repeated = .ok kept := by decide +kernel
  obtain ⟨hprint, hrewrite⟩ := print_read_round_trip
  exact ⟨⟨hnested, hprint nested hnested⟩, hread, (hrewrite repeated kept hread).2.2.2⟩

end BridgingHeader.PropertyList
