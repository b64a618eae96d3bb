import BridgingHeader.BuildSettings
import BridgingHeader.Proofs.Text.Lines

/-!
# Looking up a printed setting

A dump is taken apart by a test on the beginning of each line and a cut at the first `=`. On a dump
that prints settings this is a lookup by the whole key: no other key, and no text inside a value,
passes for it.
-/

namespace BridgingHeader.BuildSettings

open Text (isBlank trim trimStart trimEnd trimStart_append_of_blank trimStart_cons_of_not_blank
  trimEnd_append_of_not_blank trimEnd_cons_of_not_blank trimEnd_of_blank trim_trimEnd
  mem_of_mem_trim exists_line_trim_eq)

/-- The key of a printed setting. -/
@[ext]
structure Key where
  name : List Char
  starts : ∃ first rest, name = first :: rest ∧ isBlank first = false
  no_equals : '=' ∉ name
  no_feed : '\n' ∉ name

/-- The key as it is asked for. -/
def Key.string (key : Key) : String := String.ofList key.name

/-- A line of a dump. A carriage return before its ending is part of its text. -/
inductive DumpLine where
  /-- A line that is no setting. -/
  | other (text : List Char) (no_equals : '=' ∉ text) (no_feed : '\n' ∉ text)
  /-- A key and its value behind an indent. -/
  | setting (indent : Nat) (key : Key) (value : List Char) (no_feed : '\n' ∉ value)

namespace DumpLine

/-- What is printed for a line. -/
def text : DumpLine → List Char
  | .other text _ _ => text
  | .setting indent key value _ =>
    List.replicate indent ' ' ++ (key.name ++ ' ' :: '=' :: ' ' :: value)

/-- A line gives a key a value that is not blank. -/
def Gives (key : Key) (value : List Char) (line : DumpLine) : Prop :=
  (∃ indent no_feed, line = .setting indent key value no_feed) ∧ ∃ c ∈ value, isBlank c = false

theorem no_feed_text (line : DumpLine) : '\n' ∉ line.text := by
  cases line with
  | other text _ hfeed => exact hfeed
  | setting indent key value hfeed => simp [text, key.no_feed, hfeed]

/-- Trimming a setting takes its indent away; at its end, trimming starts behind the `=`. -/
theorem trim_setting {value : List Char} (indent : Nat) (key : Key) (hfeed : '\n' ∉ value) :
    trim (text (.setting indent key value hfeed)) =
      (key.name ++ [' ']) ++ '=' :: trimEnd (' ' :: value) := by
  have hindent : ∀ c ∈ List.replicate indent ' ', isBlank c = true := by
    intro c hc
    rw [List.eq_of_mem_replicate hc]
    decide
  obtain ⟨first, rest, hname, hfirst⟩ := key.starts
  have hstart (more : List Char) : trimStart (key.name ++ more) = key.name ++ more := by
    rw [hname, List.cons_append]
    exact trimStart_cons_of_not_blank hfirst (rest ++ more)
  have hequals : trimEnd ('=' :: ' ' :: value) = '=' :: trimEnd (' ' :: value) :=
    trimEnd_cons_of_not_blank (by decide) (' ' :: value)
  calc trim (text (.setting indent key value hfeed))
      = trimEnd (key.name ++ ' ' :: '=' :: ' ' :: value) := by
        rw [text, trim, trimStart_append_of_blank hindent, hstart]
    _ = trimEnd ((key.name ++ [' ']) ++ '=' :: ' ' :: value) := by
        rw [List.append_assoc, List.singleton_append]
    _ = (key.name ++ [' ']) ++ '=' :: trimEnd (' ' :: value) := by
        rw [trimEnd_append_of_not_blank _ ⟨'=', by simp, by decide⟩, hequals]

/-- A text passes the test for a key if the key stands before its first `=`, with a space on both
sides. -/
theorem sets_append_iff (key : Key) {front : List Char} (h : '=' ∉ front) (rest : List Char) :
    sets key.name (front ++ '=' :: rest) = true ↔
      front = key.name ++ [' '] ∧ ∃ more, rest = ' ' :: more := by
  rw [sets, List.isPrefixOf_iff_prefix]
  constructor
  · rintro ⟨more, hmore⟩
    have hkey : '=' ∉ key.name ++ [' '] := by simp [key.no_equals]
    have hsplit : some (key.name ++ [' '], ' ' :: more) = some (front, rest) := by
      rw [← Text.splitAtFirst_append hkey, ← Text.splitAtFirst_append h, ← hmore]
      simp
    obtain ⟨hfront, hrest⟩ := Prod.mk.inj (Option.some.inj hsplit)
    exact ⟨hfront.symm, more, hrest.symm⟩
  · rintro ⟨rfl, more, rfl⟩
    exact ⟨more, by simp⟩

/-- A line passes the test for a key exactly when it gives this key a value. -/
theorem sets_iff (key : Key) (line : DumpLine) :
    sets key.name (trim line.text) = true ↔ ∃ value, line.Gives key value := by
  cases line with
  | other text hequals hfeed =>
      constructor
      · intro hsets
        have hmem : '=' ∈ trim text :=
          (List.isPrefixOf_iff_prefix.mp hsets).subset (by simp)
        exact absurd (mem_of_mem_trim hmem) hequals
      · rintro ⟨value, ⟨indent, hvalue, hline⟩, -⟩
        cases hline
  | setting indent named value hfeed =>
      have hnamed : '=' ∉ named.name ++ [' '] := by simp [named.no_equals]
      rw [trim_setting, sets_append_iff key hnamed]
      constructor
      · rintro ⟨hname, more, hmore⟩
        have hkey : named = key := Key.ext (List.append_cancel_right hname)
        refine ⟨value, ⟨indent, hfeed, by rw [hkey]⟩, ?_⟩
        by_contra hblank
        have hall : ∀ c ∈ ' ' :: value, isBlank c = true := by
          simp only [List.mem_cons, forall_eq_or_imp]
          exact ⟨by decide, by simpa using hblank⟩
        rw [trimEnd_of_blank hall] at hmore
        cases hmore
      · rintro ⟨given, ⟨depth, hgiven, hline⟩, hvalue⟩
        cases hline
        exact ⟨rfl, trimEnd value, trimEnd_append_of_not_blank [' '] hvalue⟩

/-- The value that a line gives is what stands behind its first `=`. -/
theorem splitAtFirst_of_gives {key : Key} {value : List Char} {line : DumpLine}
    (h : line.Gives key value) :
    ∃ after, Text.splitAtFirst '=' (trim line.text) = some (key.name ++ [' '], after) ∧
      trim after = trim value := by
  obtain ⟨⟨indent, hfeed, rfl⟩, hvalue⟩ := h
  have hkey : '=' ∉ key.name ++ [' '] := by simp [key.no_equals]
  refine ⟨trimEnd (' ' :: value), ?_, ?_⟩
  · rw [trim_setting]
    exact Text.splitAtFirst_append hkey _
  · rw [trim_trimEnd]
    have hspace : ∀ c ∈ [' '], isBlank c = true := List.forall_mem_singleton.mpr (by decide)
    exact congrArg trimEnd (trimStart_append_of_blank hspace value)

theorem Gives.unique {key : Key} {a b : List Char} {line : DumpLine} (ha : line.Gives key a)
    (hb : line.Gives key b) : a = b := by
  obtain ⟨⟨indent, hfeed, rfl⟩, -⟩ := ha
  obtain ⟨⟨depth, hvalue, hline⟩, -⟩ := hb
  cases hline
  rfl

end DumpLine

/-- A dump with these lines. A line feed at its end makes an empty last line. -/
def printed (dump : List DumpLine) : String :=
  String.ofList (['\n'].intercalate (dump.map DumpLine.text))

/-- An empty line sets nothing. -/
theorem sets_nil (key : Key) : sets key.name [] = false := by
  rw [sets]
  cases key.name with
  | nil => rfl
  | cons first rest => rfl

/-- The line that is looked for in a dump can be looked for among what was printed. -/
theorem find?_lines_printed (dump : List DumpLine) (key : Key) :
    ((Text.lines (printed dump).toList).map trim).find? (sets key.name) =
      (dump.map fun line => trim line.text).find? (sets key.name) := by
  rw [printed, String.toList_ofList]
  induction dump with
  | nil => rfl
  | cons line more ih =>
      cases more with
      | nil =>
          by_cases hline : line.text = []
          · have htrim : trim [] = [] := rfl
            simp [List.intercalate, hline, Text.lines, htrim, sets_nil]
          · simp [List.intercalate, Text.lines_of_not_mem line.no_feed_text hline]
      | cons next others =>
          obtain ⟨shown, hshown, htrim⟩ := exists_line_trim_eq line.no_feed_text
          have hcut : Text.lines (['\n'].intercalate ((line :: next :: others).map DumpLine.text)) =
              shown :: Text.lines (['\n'].intercalate ((next :: others).map DumpLine.text)) := by
            rw [List.map_cons, List.map_cons, List.intercalate_cons_cons, List.append_assoc,
              List.singleton_append, Text.lines_append_feed, hshown]
            rfl
          rw [hcut, List.map_cons, List.find?_cons, htrim, ih, List.map_cons (l := next :: others),
            List.find?_cons]

theorem find_printed_of_isFirst {dump : List DumpLine} {key : Key} {line : DumpLine}
    {value : List Char} (hfirst : IsFirst (fun line => ∃ value, line.Gives key value) dump line)
    (hvalue : line.Gives key value) :
    find (printed dump) key.string = .ok (String.ofList (trim value)) := by
  have htest : (fun line : DumpLine => sets key.name (trim line.text) = true) =
      fun line => ∃ value, line.Gives key value :=
    funext fun line => propext (line.sets_iff key)
  rw [← htest, ← find?_eq_some_iff_isFirst] at hfirst
  simp only [Bool.decide_eq_true] at hfirst
  have hline : (dump.map fun line => trim line.text).find? (sets key.name) =
      some (trim line.text) := by
    rw [List.find?_map]
    exact congrArg (Option.map fun line : DumpLine => trim line.text) hfirst
  obtain ⟨after, hsplit, htrim⟩ := DumpLine.splitAtFirst_of_gives hvalue
  have hfind : find? (printed dump).toList key.name = some (trim value) := by
    calc find? (printed dump).toList key.name
        = (Text.splitAtFirst '=' (trim line.text)).bind fun cut => some (trim cut.2) := by
          rw [find?, find?_lines_printed, hline]
          rfl
      _ = some (trim value) := by
          rw [hsplit, Option.bind_some, htrim]
  rw [find, Key.string, String.toList_ofList, hfind]
  rfl

theorem find_printed_of_not_given {dump : List DumpLine} {key : Key}
    (h : ∀ line ∈ dump, ∀ value, ¬ line.Gives key value) :
    find (printed dump) key.string = .error (.settingNotFound key.string) := by
  have hnone : (dump.map fun line => trim line.text).find? (sets key.name) = none := by
    rw [List.find?_map, Option.map_eq_none_iff, List.find?_eq_none]
    intro line hline hsets
    obtain ⟨value, hvalue⟩ := (line.sets_iff key).mp hsets
    exact h line hline value hvalue
  have hfind : find? (printed dump).toList key.name = none := by
    rw [find?, find?_lines_printed, hnone]
    rfl
  rw [find, Key.string, String.toList_ofList, hfind]
  rfl

/-- A dump answers a key with the trimmed value of the first line that gives it one, and with the
missing setting if there is no such line. -/
theorem find_printed (dump : List DumpLine) (key : Key) :
    (∀ text, find (printed dump) key.string = .ok text ↔
      ∃ line value, IsFirst (fun line => ∃ value, DumpLine.Gives key value line) dump line ∧
        line.Gives key value ∧ text = String.ofList (trim value)) ∧
    (∀ failure, find (printed dump) key.string = .error failure ↔
      failure = .settingNotFound key.string ∧
        ∀ line ∈ dump, ∀ value, ¬ line.Gives key value) := by
  by_cases h : ∃ line ∈ dump, ∃ value, line.Gives key value
  · obtain ⟨line, hfirst⟩ := exists_isFirst_iff.mpr h
    obtain ⟨value, hvalue⟩ := hfirst.property
    rw [find_printed_of_isFirst hfirst hvalue]
    constructor
    · intro text
      constructor
      · intro htext
        exact ⟨line, value, hfirst, hvalue, (Except.ok.inj htext).symm⟩
      · rintro ⟨other, given, hother, hgiven, rfl⟩
        obtain rfl := hfirst.unique hother
        rw [hvalue.unique hgiven]
    · intro failure
      constructor
      · intro hfailure
        cases hfailure
      · rintro ⟨-, hnone⟩
        obtain ⟨given, hmem, hgives⟩ := h
        exact absurd hgives (not_exists.mpr (hnone given hmem))
  · have hnone : ∀ line ∈ dump, ∀ value, ¬ line.Gives key value :=
      fun line hline value hgives => h ⟨line, hline, value, hgives⟩
    rw [find_printed_of_not_given hnone]
    constructor
    · intro text
      constructor
      · intro htext
        cases htext
      · rintro ⟨line, value, hfirst, hgives, -⟩
        exact absurd (exists_isFirst_iff.mp ⟨line, hfirst⟩) h
    · intro failure
      constructor
      · intro hfailure
        exact ⟨(Except.error.inj hfailure).symm, hnone⟩
      · rintro ⟨rfl, -⟩
        rfl

/-- Neither a longer key nor a value that mentions the key nor a blank value answers for it. -/
example : find? "Settings:\n  KEYS = a\n  A = KEY = b\r\n  KEY = \t\n  KEY = c = d \r\n".toList
    "KEY".toList = some "c = d".toList := by decide

end BridgingHeader.BuildSettings
