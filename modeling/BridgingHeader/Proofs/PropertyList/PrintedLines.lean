import BridgingHeader.Proofs.Dictionary
import BridgingHeader.Proofs.Text.Lines
import BridgingHeader.PropertyList.Printer

/-!
# Lines of printed property lists

A printed value is written in whole lines, but for the first and the last one, which it shares with
what stands before it and behind it. No string breaks a line, so an array or a dictionary with
something new inside is printed in the same lines as before and some more.
-/

namespace BridgingHeader

namespace Text

/-- A line that nothing in it ends. -/
def Unbroken (line : List Char) : Prop := '\n' ∉ line ∧ '\r' ∉ line

theorem Unbroken.append {a b : List Char} (ha : Unbroken a) (hb : Unbroken b) :
    Unbroken (a ++ b) :=
  ⟨by simp [ha.1, hb.1], by simp [ha.2, hb.2]⟩

/-- Lines, each with a line feed at its end. -/
def unlines (list : List (List Char)) : List Char := list.flatMap (· ++ ['\n'])

theorem lines_append_unbroken {line : List Char} (h : Unbroken line) (rest : List Char) :
    lines (line ++ '\n' :: rest) = line :: lines rest := by
  induction line with
  | nil => rfl
  | cons c line ih =>
      obtain ⟨hfeed, hreturn⟩ := h
      rw [List.mem_cons, not_or] at hfeed hreturn
      rw [List.cons_append, lines_cons (Ne.symm hfeed.1) fun hc => absurd hc.symm hreturn.1,
        ih ⟨hfeed.2, hreturn.2⟩]
      rfl

theorem unlines_append (a b : List (List Char)) : unlines (a ++ b) = unlines a ++ unlines b :=
  List.flatMap_append

/-- Lines that nothing in them ends are the lines of the text that they make up. -/
theorem lines_unlines {list : List (List Char)} (h : ∀ line ∈ list, Unbroken line) :
    lines (unlines list) = list := by
  induction list with
  | nil => rfl
  | cons line list ih =>
      obtain ⟨hline, hlist⟩ := List.forall_mem_cons.mp h
      rw [unlines, List.flatMap_cons, List.append_assoc, List.singleton_append,
        lines_append_unbroken hline]
      exact congrArg (line :: ·) (ih hlist)

end Text

namespace PropertyList

open Text (Unbroken unlines unlines_append)

/-! ### The lines of a value -/

mutual

/-- The lines of a value at a depth, the first behind what stands before the value, and the last
with what stands behind it. -/
def valueLines (depth : Nat) (before after : List Char) : PropertyList → List (List Char)
  | .string contents => [before ++ printString contents.toList ++ after]
  | .array items =>
    (before ++ ['(']) :: (itemLines (depth + 1) items ++ [indent depth ++ ')' :: after])
  | .dictionary ⟨entries⟩ =>
    (before ++ ['{']) :: (entryLines (depth + 1) entries ++ [indent depth ++ '}' :: after])

/-- The lines of array items. -/
def itemLines (depth : Nat) : List PropertyList → List (List Char)
  | [] => []
  | item :: items => valueLines depth (indent depth) [','] item ++ itemLines depth items

/-- The lines of dictionary entries. -/
def entryLines (depth : Nat) : List (String × PropertyList) → List (List Char)
  | [] => []
  | (key, value) :: entries =>
    valueLines depth (indent depth ++ printString key.toList ++ [' ', '=', ' ']) [';'] value ++
      entryLines depth entries

end

mutual

/-- A value is printed in its lines. -/
theorem printValue_eq_unlines (depth : Nat) (before after rest : List Char) :
    ∀ value : PropertyList, before ++ printValue depth value (after ++ '\n' :: rest) =
      unlines (valueLines depth before after value) ++ rest
  | .string contents => by simp [printValue, valueLines, unlines]
  | .array items => by
      have hitems := printItems_eq_unlines (depth + 1)
        (indent depth ++ ')' :: (after ++ '\n' :: rest)) items
      simp [printValue, valueLines, unlines, hitems]
  | .dictionary ⟨entries⟩ => by
      have hentries := printEntries_eq_unlines (depth + 1)
        (indent depth ++ '}' :: (after ++ '\n' :: rest)) entries
      simp [printValue, valueLines, unlines, hentries]

theorem printItems_eq_unlines (depth : Nat) (rest : List Char) :
    ∀ items : List PropertyList,
      printItems depth items rest = unlines (itemLines depth items) ++ rest
  | [] => rfl
  | item :: items => by
      have hitem := printValue_eq_unlines depth (indent depth) [','] (printItems depth items rest)
        item
      rw [printItems, ← List.singleton_append, hitem, printItems_eq_unlines depth rest items,
        itemLines, unlines_append, List.append_assoc]

theorem printEntries_eq_unlines (depth : Nat) (rest : List Char) :
    ∀ entries : List (String × PropertyList),
      printEntries depth entries rest = unlines (entryLines depth entries) ++ rest
  | [] => rfl
  | (key, value) :: entries => by
      have hvalue := printValue_eq_unlines depth
        (indent depth ++ printString key.toList ++ [' ', '=', ' ']) [';']
        (printEntries depth entries rest) value
      rw [entryLines, unlines_append, List.append_assoc (unlines _),
        ← printEntries_eq_unlines depth rest entries, ← hvalue]
      simp [printEntries]

end

/-! ### No string breaks a line -/

theorem unbroken_escape (c : Char) : Unbroken (escape c) := by
  unfold escape
  split
  · exact ⟨by decide, by decide⟩
  · exact ⟨by decide, by decide⟩
  · exact ⟨by decide, by decide⟩
  · exact ⟨by decide, by decide⟩
  · exact ⟨by decide, by decide⟩
  · next hfeed _ hreturn => exact ⟨by simpa using Ne.symm hfeed, by simpa using Ne.symm hreturn⟩

theorem unbroken_flatMap_escape (contents : List Char) : Unbroken (contents.flatMap escape) := by
  induction contents with
  | nil => exact ⟨by simp, by simp⟩
  | cons c contents ih => exact (unbroken_escape c).append ih

theorem unbroken_printString (contents : List Char) : Unbroken (printString contents) := by
  unfold printString
  split
  · exact (Unbroken.append (a := ['"']) ⟨by decide, by decide⟩
      (unbroken_flatMap_escape contents)).append ⟨by decide, by decide⟩
  · next hquotes =>
      have hharmless : ∀ c ∈ contents, isHarmless c = true := by
        simp only [needsQuotes, Bool.or_eq_true, Bool.not_eq_true', not_or] at hquotes
        simpa using hquotes.2
      exact ⟨fun hfeed => absurd (hharmless _ hfeed) (by decide),
        fun hreturn => absurd (hharmless _ hreturn) (by decide)⟩

theorem unbroken_indent (depth : Nat) : Unbroken (indent depth) := by
  simp [Unbroken, indent, List.mem_replicate]

mutual

/-- The lines of a value are not broken if what stands before and behind it is not. -/
theorem unbroken_valueLines (depth : Nat) {before after : List Char} (hbefore : Unbroken before)
    (hafter : Unbroken after) :
    ∀ value : PropertyList, ∀ line ∈ valueLines depth before after value, Unbroken line
  | .string contents => by
      rw [valueLines, List.forall_mem_singleton]
      exact (hbefore.append (unbroken_printString _)).append hafter
  | .array items => by
      rw [valueLines, List.forall_mem_cons, List.forall_mem_append, List.forall_mem_singleton]
      exact ⟨hbefore.append ⟨by decide, by decide⟩, unbroken_itemLines (depth + 1) items,
        (unbroken_indent depth).append (.append (a := [')']) ⟨by decide, by decide⟩ hafter)⟩
  | .dictionary ⟨entries⟩ => by
      rw [valueLines, List.forall_mem_cons, List.forall_mem_append, List.forall_mem_singleton]
      exact ⟨hbefore.append ⟨by decide, by decide⟩, unbroken_entryLines (depth + 1) entries,
        (unbroken_indent depth).append (.append (a := ['}']) ⟨by decide, by decide⟩ hafter)⟩

theorem unbroken_itemLines (depth : Nat) :
    ∀ items : List PropertyList, ∀ line ∈ itemLines depth items, Unbroken line
  | [] => by simp [itemLines]
  | item :: items => by
      rw [itemLines, List.forall_mem_append]
      exact ⟨unbroken_valueLines depth (unbroken_indent depth) ⟨by decide, by decide⟩ item,
        unbroken_itemLines depth items⟩

theorem unbroken_entryLines (depth : Nat) :
    ∀ entries : List (String × PropertyList), ∀ line ∈ entryLines depth entries, Unbroken line
  | [] => by simp [entryLines]
  | (key, value) :: entries => by
      have hkey := ((unbroken_indent depth).append (unbroken_printString key.toList)).append
        (b := [' ', '=', ' ']) ⟨by decide, by decide⟩
      rw [entryLines, List.forall_mem_append]
      exact ⟨unbroken_valueLines depth hkey ⟨by decide, by decide⟩ value,
        unbroken_entryLines depth entries⟩

end

/-- The lines of a printed document. -/
theorem lines_print (value : PropertyList) :
    Text.lines (print value).toList = heading :: valueLines 0 [] [] value := by
  have hheading : Unbroken heading := ⟨by decide, by decide⟩
  have hempty : Unbroken [] := ⟨by decide, by decide⟩
  have hvalue := printValue_eq_unlines 0 [] [] [] value
  rw [List.nil_append, List.nil_append, List.append_nil] at hvalue
  rw [print, String.toList_ofList, printDocument, hvalue, Text.lines_append_unbroken hheading,
    Text.lines_unlines (unbroken_valueLines 0 hempty hempty value)]

/-! ### Values with more lines -/

theorem itemLines_append (depth : Nat) (items others : List PropertyList) :
    itemLines depth (items ++ others) = itemLines depth items ++ itemLines depth others := by
  induction items with
  | nil => rfl
  | cons item items ih => rw [List.cons_append, itemLines, itemLines, ih, List.append_assoc]

theorem entryLines_append (depth : Nat) (entries others : List (String × PropertyList)) :
    entryLines depth (entries ++ others) = entryLines depth entries ++ entryLines depth others := by
  induction entries with
  | nil => rfl
  | cons entry entries ih => rw [List.cons_append, entryLines, entryLines, ih, ← List.append_assoc]

/-- The number of lines of a value. -/
def lineCount (value : PropertyList) : Nat := (valueLines 0 [] [] value).length

mutual

/-- The number of lines of a value does not depend on where it is written. -/
theorem length_valueLines (depth depth' : Nat) (before before' after after' : List Char) :
    ∀ value : PropertyList, (valueLines depth before after value).length =
      (valueLines depth' before' after' value).length
  | .string contents => rfl
  | .array items => by
      simp [valueLines, length_itemLines (depth + 1) (depth' + 1) items]
  | .dictionary ⟨entries⟩ => by
      simp [valueLines, length_entryLines (depth + 1) (depth' + 1) entries]

theorem length_itemLines (depth depth' : Nat) :
    ∀ items : List PropertyList,
      (itemLines depth items).length = (itemLines depth' items).length
  | [] => rfl
  | item :: items => by
      rw [itemLines, itemLines, List.length_append, List.length_append,
        length_valueLines depth depth' _ (indent depth') _ [','] item,
        length_itemLines depth depth' items]

theorem length_entryLines (depth depth' : Nat) :
    ∀ entries : List (String × PropertyList),
      (entryLines depth entries).length = (entryLines depth' entries).length
  | [] => rfl
  | (key, value) :: entries => by
      rw [entryLines, entryLines, List.length_append, List.length_append,
        length_valueLines depth depth' _
          (indent depth' ++ printString key.toList ++ [' ', '=', ' ']) _ [';'] value,
        length_entryLines depth depth' entries]

end

/-- Wherever the two are written, the second value has the lines of the first one, in their order,
and some number of lines more. -/
def GainsLines (n : Nat) (v w : PropertyList) : Prop :=
  ∀ depth before after,
    (valueLines depth before after v).Sublist (valueLines depth before after w) ∧
      (valueLines depth before after w).length = (valueLines depth before after v).length + n

theorem GainsLines.trans {n m : Nat} {u v w : PropertyList} (h : GainsLines n u v)
    (h' : GainsLines m v w) : GainsLines (n + m) u w := by
  intro depth before after
  obtain ⟨hsub, hlength⟩ := h depth before after
  obtain ⟨hsub', hlength'⟩ := h' depth before after
  exact ⟨hsub.trans hsub', by omega⟩

/-- A string that is inserted into an array gets a line of its own. -/
theorem gainsLines_array (front rest : List PropertyList) (text : String) :
    GainsLines 1 (.array (front ++ rest)) (.array (front ++ .string text :: rest)) := by
  intro depth before after
  have hline : (itemLines (depth + 1) (front ++ rest)).Sublist
      (itemLines (depth + 1) (front ++ .string text :: rest)) := by
    rw [itemLines_append, itemLines_append, itemLines, valueLines, List.singleton_append]
    exact (List.Sublist.refl _).append (List.sublist_cons_self _ _)
  constructor
  · rw [valueLines, valueLines]
    exact (hline.append (List.Sublist.refl _)).cons_cons _
  · simp [valueLines, itemLines_append, itemLines]
    omega

/-- A dictionary gains the lines that one of its values gains. -/
theorem gainsLines_of_replaces {n : Nat} {d e : Dictionary PropertyList} {key : String}
    {old new : PropertyList} (h : d.Replaces key old new e) (hgains : GainsLines n old new) :
    GainsLines n (.dictionary d) (.dictionary e) := by
  obtain ⟨dEntries⟩ := d
  obtain ⟨eEntries⟩ := e
  obtain ⟨front, rest, -, rfl, rfl⟩ := h
  intro depth before after
  obtain ⟨hsub, hlength⟩ := hgains (depth + 1)
    (indent (depth + 1) ++ printString key.toList ++ [' ', '=', ' ']) [';']
  constructor
  · simp only [valueLines, entryLines_append, entryLines]
    exact (((List.Sublist.refl _).append (hsub.append (List.Sublist.refl _))).append
      (List.Sublist.refl _)).cons_cons _
  · simp only [valueLines, entryLines_append, entryLines, List.length_cons, List.length_append,
      hlength]
    omega

/-- A dictionary gains the lines of a value under a new key. -/
theorem gainsLines_of_appends {d e : Dictionary PropertyList} {key : String} {value : PropertyList}
    (h : d.Appends key value e) : GainsLines value.lineCount (.dictionary d) (.dictionary e) := by
  obtain ⟨dEntries⟩ := d
  obtain ⟨eEntries⟩ := e
  obtain ⟨-, rfl⟩ := h
  intro depth before after
  constructor
  · simp only [valueLines, entryLines_append]
    exact ((List.sublist_append_left _ _).append (List.Sublist.refl _)).cons_cons _
  · simp only [valueLines, entryLines_append, entryLines, List.append_nil, List.length_cons,
      List.length_append]
    rw [length_valueLines _ 0 _ [] _ [] value, lineCount]
    omega

end PropertyList

end BridgingHeader
