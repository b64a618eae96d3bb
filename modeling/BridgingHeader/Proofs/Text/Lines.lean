import Mathlib.Data.List.Basic
import Mathlib.Data.List.DropRight
import BridgingHeader.Text.Lines
import BridgingHeader.Text.Blank
import BridgingHeader.Proofs.FirstItem

/-!
# Cutting and trimming texts

A line feed ends a line whatever comes before it, so a text with a line feed in it is read as two
texts. Trimming takes blank characters from the ends alone: what holds a character that is not blank
keeps everything up to it.
-/

namespace BridgingHeader.Text

/-! ### Lines -/

/-- Texts are built from their ends on: by a line feed, by a carriage return and a line feed, and by
a character that starts neither. -/
@[elab_as_elim]
theorem lines_induction {motive : List Char → Prop} (nil : motive [])
    (feed : ∀ rest, motive rest → motive ('\n' :: rest))
    (returnFeed : ∀ rest, motive rest → motive ('\r' :: '\n' :: rest))
    (cons : ∀ c rest, c ≠ '\n' → (c = '\r' → rest.head? ≠ some '\n') → motive rest →
      motive (c :: rest)) (text : List Char) : motive text := by
  have hhead : ∀ c rest, (∀ tail, c = '\r' → rest = '\n' :: tail → False) →
      (c = '\r' → rest.head? ≠ some '\n') := by
    intro c rest h hc hrest
    obtain ⟨tail, rfl⟩ := List.head?_eq_some_iff.mp hrest
    exact h tail hc rfl
  induction text using lines.induct with
  | case1 => exact nil
  | case2 rest ih => exact feed rest ih
  | case3 rest ih => exact returnFeed rest ih
  | case4 c rest hfeed hreturn hrest ih => exact cons c rest hfeed (hhead c rest hreturn) ih
  | case5 c rest hfeed hreturn line more hrest ih =>
      exact cons c rest hfeed (hhead c rest hreturn) ih

/-- A character that ends no line, alone or with the next one, is the first of its line. -/
theorem lines_cons {c : Char} {rest : List Char} (hfeed : c ≠ '\n')
    (hreturn : c = '\r' → rest.head? ≠ some '\n') :
    lines (c :: rest) = (c :: (lines rest).headD []) :: (lines rest).tail := by
  have hending : ∀ tail, c = '\r' → rest = '\n' :: tail → False := by
    intro tail hc hrest
    exact hreturn hc (by rw [hrest, List.head?_cons])
  rw [lines.eq_4 c rest hfeed hending]
  cases lines rest with
  | nil => rfl
  | cons line more => rfl

theorem lines_ne_nil {text : List Char} (h : text ≠ []) : lines text ≠ [] := by
  induction text using lines_induction with
  | nil => exact absurd rfl h
  | feed rest ih => simp [lines]
  | returnFeed rest ih => simp [lines]
  | cons c rest hfeed hreturn ih => simp [lines_cons hfeed hreturn]

/-- What ends with a line feed has all its lines, and what follows has its own. -/
theorem lines_append_feed (text rest : List Char) :
    lines (text ++ '\n' :: rest) = lines (text ++ ['\n']) ++ lines rest := by
  induction text using lines_induction with
  | nil => simp [lines]
  | feed more ih => simp [lines, ih]
  | returnFeed more ih => simp [lines, ih]
  | cons c more hfeed hreturn ih =>
      by_cases hbare : c = '\r' ∧ more = []
      · obtain ⟨rfl, rfl⟩ := hbare
        simp [lines]
      · have hnext (tail : List Char) : c = '\r' → (more ++ '\n' :: tail).head? ≠ some '\n' := by
          intro hc
          have hmore : more ≠ [] := fun hnil => hbare ⟨hc, hnil⟩
          rw [List.head?_append_of_ne_nil more hmore]
          exact hreturn hc
        have hlines : lines (more ++ ['\n']) ≠ [] := lines_ne_nil (by simp)
        rw [List.cons_append, List.cons_append, lines_cons hfeed (hnext rest), ih,
          lines_cons hfeed (hnext [])]
        obtain ⟨line, others, hline⟩ := List.exists_cons_of_ne_nil hlines
        simp [hline]

/-- A text without a line feed is one line, if it holds anything. -/
theorem lines_of_not_mem {line : List Char} (h : '\n' ∉ line) (hline : line ≠ []) :
    lines line = [line] := by
  induction line using lines_induction with
  | nil => exact absurd rfl hline
  | feed rest ih => simp at h
  | returnFeed rest ih => simp at h
  | cons c rest hfeed hreturn ih =>
      rw [List.mem_cons, not_or] at h
      rw [lines_cons hfeed hreturn]
      by_cases hrest : rest = []
      · simp [hrest, lines]
      · simp [ih h.2 hrest]

/-- The last line of a text that does not end in a line feed is continued by whatever follows. -/
theorem exists_open_line {text : List Char} (hfeed : text.getLast? ≠ some '\n')
    (htext : text ≠ []) :
    ∃ front line, line ≠ [] ∧ lines text = front ++ [line] ∧
      ∀ rest, (text.getLast? = some '\r' → rest.head? ≠ some '\n') →
        lines (text ++ rest) = front ++ (line ++ (lines rest).headD []) :: (lines rest).tail := by
  induction text using lines_induction with
  | nil => exact absurd rfl htext
  | feed more ih =>
      have hmore : more ≠ [] := by
        rintro rfl
        exact hfeed rfl
      rw [List.getLast?_cons_of_ne_nil hmore] at hfeed ⊢
      obtain ⟨front, line, hne, hline, happend⟩ := ih hfeed hmore
      refine ⟨[] :: front, line, hne, by simp [lines, hline], fun rest hreturn => ?_⟩
      simp [lines, happend rest hreturn]
  | returnFeed more ih =>
      have hmore : more ≠ [] := by
        rintro rfl
        exact hfeed rfl
      have hlast : ('\r' :: '\n' :: more).getLast? = more.getLast? := by
        rw [List.getLast?_cons_of_ne_nil (by simp), List.getLast?_cons_of_ne_nil hmore]
      rw [hlast] at hfeed ⊢
      obtain ⟨front, line, hne, hline, happend⟩ := ih hfeed hmore
      refine ⟨[] :: front, line, hne, by simp [lines, hline], fun rest hreturn => ?_⟩
      simp [lines, happend rest hreturn]
  | cons c more hc hnext ih =>
      by_cases hmore : more = []
      · subst hmore
        refine ⟨[], [c], by simp, by simp [lines_cons hc hnext, lines], fun rest hreturn => ?_⟩
        exact lines_cons hc fun h => hreturn (by simp [h])
      · have hhead (rest : List Char) : c = '\r' → (more ++ rest).head? ≠ some '\n' := by
          rw [List.head?_append_of_ne_nil more hmore]
          exact hnext
        rw [List.getLast?_cons_of_ne_nil hmore] at hfeed ⊢
        obtain ⟨front, line, hne, hline, happend⟩ := ih hfeed hmore
        rw [lines_cons hc hnext, hline]
        cases front with
        | nil =>
            refine ⟨[], c :: line, by simp, rfl, fun rest hreturn => ?_⟩
            rw [List.cons_append, lines_cons hc (hhead rest), happend rest hreturn]
            rfl
        | cons first others =>
            refine ⟨(c :: first) :: others, line, hne, rfl, fun rest hreturn => ?_⟩
            rw [List.cons_append, lines_cons hc (hhead rest), happend rest hreturn]
            rfl

/-- An ending behind an unended line adds nothing but the end of the line. -/
theorem lines_append_ending {text ending : List Char} (hending : lines ending = [[]])
    (hfeed : text.getLast? ≠ some '\n')
    (hreturn : text.getLast? = some '\r' → ending.head? ≠ some '\n') (htext : text ≠ []) :
    lines (text ++ ending) = lines text := by
  obtain ⟨front, line, -, hline, happend⟩ := exists_open_line hfeed htext
  rw [happend ending hreturn, hline, hending]
  simp

/-! ### The first separator -/

theorem eq_of_splitAtFirst {separator : Char} {text before after : List Char}
    (h : splitAtFirst separator text = some (before, after)) :
    text = before ++ separator :: after := by
  induction text generalizing before with
  | nil => cases h
  | cons c rest ih =>
    rw [splitAtFirst] at h
    split at h
    · next hc =>
      cases h
      simp [hc]
    · obtain ⟨⟨front, back⟩, hsplit, hpair⟩ := Option.map_eq_some_iff.mp h
      cases hpair
      rw [ih hsplit, List.cons_append]

theorem splitAtFirst_append {separator : Char} {before : List Char} (h : separator ∉ before)
    (after : List Char) :
    splitAtFirst separator (before ++ separator :: after) = some (before, after) := by
  induction before with
  | nil => rw [List.nil_append, splitAtFirst, if_pos rfl]
  | cons c rest ih =>
    obtain ⟨hc, hrest⟩ := not_or.mp (mt List.mem_cons.mpr h)
    rw [List.cons_append, splitAtFirst, if_neg (Ne.symm hc), ih hrest]
    rfl

theorem splitAtFirst_eq_none_iff {separator : Char} {text : List Char} :
    splitAtFirst separator text = none ↔ separator ∉ text := by
  constructor
  · intro h hmem
    obtain ⟨before, after, rfl, hnot⟩ := List.eq_append_cons_of_mem hmem
    rw [splitAtFirst_append hnot] at h
    cases h
  · intro h
    rcases hsplit : splitAtFirst separator text with _ | ⟨before, after⟩
    · rfl
    · rw [eq_of_splitAtFirst hsplit] at h
      simp at h

theorem not_mem_of_splitAtFirst {separator : Char} {text before after : List Char}
    (h : splitAtFirst separator text = some (before, after)) : separator ∉ before := by
  intro hmem
  obtain ⟨front, back, rfl, hnot⟩ := List.eq_append_cons_of_mem hmem
  have htext := eq_of_splitAtFirst h
  rw [htext, List.append_assoc, List.cons_append, splitAtFirst_append hnot] at h
  have hlength := congrArg (List.length ∘ Prod.fst) (Option.some.inj h)
  simp at hlength

/-! ### Blank ends -/

theorem trimStart_append_of_blank {front : List Char} (h : ∀ c ∈ front, isBlank c = true)
    (text : List Char) : trimStart (front ++ text) = trimStart text :=
  List.dropWhile_append_of_pos h

theorem trimStart_cons_of_not_blank {c : Char} (h : isBlank c = false) (rest : List Char) :
    trimStart (c :: rest) = c :: rest := by
  rw [trimStart, List.dropWhile_cons_of_neg (by simp [h])]

theorem trimEnd_append_of_blank (text : List Char) {rest : List Char}
    (h : ∀ c ∈ rest, isBlank c = true) : trimEnd (text ++ rest) = trimEnd text := by
  rw [trimEnd, trimEnd, List.reverse_append, List.dropWhile_append_of_pos]
  intro c hc
  exact h c (List.mem_reverse.mp hc)

theorem trimEnd_append_of_not_blank (text : List Char) {rest : List Char}
    (h : ∃ c ∈ rest, isBlank c = false) : trimEnd (text ++ rest) = text ++ trimEnd rest := by
  have hrest : rest.reverse.dropWhile isBlank ≠ [] := by
    intro hnil
    obtain ⟨c, hc, hblank⟩ := h
    have hall := trimStart_eq_nil_iff.mp hnil c (List.mem_reverse.mpr hc)
    rw [hblank] at hall
    cases hall
  rw [trimEnd, trimEnd, List.reverse_append, List.dropWhile_append, if_neg]
  · rw [List.reverse_append, List.reverse_reverse]
  · rwa [List.isEmpty_iff]

theorem trimEnd_of_blank {text : List Char} (h : ∀ c ∈ text, isBlank c = true) :
    trimEnd text = [] :=
  trimEnd_append_of_blank [] h

theorem trimEnd_cons_of_not_blank {c : Char} (h : isBlank c = false) (rest : List Char) :
    trimEnd (c :: rest) = c :: trimEnd rest := by
  by_cases hrest : ∃ d ∈ rest, isBlank d = false
  · exact trimEnd_append_of_not_blank [c] hrest
  · have hall : ∀ d ∈ rest, isBlank d = true := by simpa using hrest
    calc trimEnd ([c] ++ rest) = trimEnd [c] := trimEnd_append_of_blank [c] hall
      _ = c :: trimEnd rest := by
        rw [trimEnd_of_blank hall]
        simp [trimEnd, h]

theorem trimEnd_trimEnd (text : List Char) : trimEnd (trimEnd text) = trimEnd text :=
  List.rdropWhile_idempotent isBlank text

/-- The two ends of a text are trimmed in either order. -/
theorem trimStart_trimEnd (text : List Char) : trimStart (trimEnd text) = trim text := by
  by_cases h : ∃ c ∈ text, isBlank c = false
  · obtain ⟨c, front, rest, rfl, hc, hfront⟩ := exists_isFirst_iff.mpr h
    have hblank : ∀ b ∈ front, isBlank b = true := by simpa using hfront
    have hkept : trimEnd (c :: rest) = c :: trimEnd rest := trimEnd_cons_of_not_blank hc rest
    calc trimStart (trimEnd (front ++ c :: rest))
        = trimStart (front ++ c :: trimEnd rest) := by
          rw [trimEnd_append_of_not_blank front ⟨c, by simp, hc⟩, hkept]
      _ = c :: trimEnd rest := by
          rw [trimStart_append_of_blank hblank, trimStart_cons_of_not_blank hc]
      _ = trim (front ++ c :: rest) := by
          rw [trim, trimStart_append_of_blank hblank, trimStart_cons_of_not_blank hc, hkept]
  · have hall : ∀ c ∈ text, isBlank c = true := by simpa using h
    rw [trim, trimEnd_of_blank hall, trimStart_eq_nil_iff.mpr hall]
    rfl

theorem trim_append_of_blank (text : List Char) {rest : List Char}
    (h : ∀ c ∈ rest, isBlank c = true) : trim (text ++ rest) = trim text := by
  rw [← trimStart_trimEnd, trimEnd_append_of_blank text h, trimStart_trimEnd]

theorem trim_trimEnd (text : List Char) : trim (trimEnd text) = trim text := by
  rw [← trimStart_trimEnd, trimEnd_trimEnd, trimStart_trimEnd]

theorem mem_of_mem_trim {c : Char} {text : List Char} (h : c ∈ trim text) : c ∈ text :=
  (List.dropWhile_suffix isBlank).subset ((List.rdropWhile_prefix isBlank _).subset h)

/-- The carriage return that a line may lose with its ending is blank. -/
theorem exists_line_trim_eq {line : List Char} (h : '\n' ∉ line) :
    ∃ shown, lines (line ++ ['\n']) = [shown] ∧ trim shown = trim line := by
  have hopen : ∀ text : List Char, '\n' ∉ text → text.getLast? ≠ some '\n' :=
    fun text htext hlast => htext (List.mem_of_getLast? hlast)
  by_cases hreturn : line.getLast? = some '\r'
  · obtain ⟨front, rfl⟩ := List.getLast?_eq_some_iff.mp hreturn
    have htrim : trim (front ++ ['\r']) = trim front :=
      trim_append_of_blank front (List.forall_mem_singleton.mpr (by decide))
    rw [List.append_assoc, List.singleton_append, htrim]
    by_cases hfront : front = []
    · exact ⟨[], by simp [hfront, lines], by rw [hfront]⟩
    · have hfeed : '\n' ∉ front := fun hmem => h (List.mem_append_left _ hmem)
      refine ⟨front, ?_, rfl⟩
      rw [lines_append_ending (by simp [lines]) (hopen front hfeed) (by simp) hfront,
        lines_of_not_mem hfeed hfront]
  · by_cases hline : line = []
    · exact ⟨[], by simp [hline, lines], by rw [hline]⟩
    · refine ⟨line, ?_, rfl⟩
      rw [lines_append_ending rfl (hopen line h) (fun hlast => absurd hlast hreturn) hline,
        lines_of_not_mem h hline]

/-! ### The seam of two texts -/

/-- Between two texts a line ends, or one of them is empty. -/
def Parted (first second : List Char) : Prop :=
  first = [] ∨ second = [] ∨ first.getLast? = some '\n' ∨
    (second.head? = some '\n' ∧ first.getLast? ≠ some '\r') ∨ ['\r', '\n'] <+: second

/-- Lines that hold something. -/
def filled (list : List (List Char)) : List (List Char) := list.filter (· ≠ [])

theorem filled_append (a b : List (List Char)) : filled (a ++ b) = filled a ++ filled b :=
  List.filter_append a b

theorem filled_cons_nil (more : List (List Char)) : filled ([] :: more) = filled more := rfl

theorem flatten_filled (list : List (List Char)) : (filled list).flatten = list.flatten :=
  List.flatten_filter_ne_nil

/-- If a line ends between two texts, they have the lines of the two, up to an empty one. -/
theorem filled_lines_of_parted {first second : List Char} (h : Parted first second) :
    filled (lines (first ++ second)) = filled (lines first ++ lines second) := by
  by_cases hfirst : first = []
  · simp [hfirst, lines]
  by_cases hfeed : first.getLast? = some '\n'
  · obtain ⟨front, rfl⟩ := List.getLast?_eq_some_iff.mp hfeed
    rw [List.append_assoc, List.singleton_append, lines_append_feed]
  rcases h with rfl | rfl | hlast | ⟨hhead, hreturn⟩ | ⟨rest, rfl⟩
  · exact absurd rfl hfirst
  · simp [lines]
  · exact absurd hlast hfeed
  · obtain ⟨rest, rfl⟩ := List.head?_eq_some_iff.mp hhead
    calc filled (lines (first ++ '\n' :: rest))
        = filled (lines first ++ lines rest) := by
          rw [lines_append_feed, lines_append_ending rfl hfeed (absurd · hreturn) hfirst]
      _ = filled (lines first ++ lines ('\n' :: rest)) := by
          rw [filled_append, filled_append, lines, filled_cons_nil]
  · calc filled (lines (first ++ '\r' :: '\n' :: rest))
        = filled (lines ((first ++ ['\r']) ++ '\n' :: rest)) := by
          rw [List.append_assoc, List.singleton_append]
      _ = filled (lines (first ++ ['\r', '\n']) ++ lines rest) := by
          rw [lines_append_feed, List.append_assoc, List.singleton_append]
      _ = filled (lines first ++ lines rest) := by
          rw [lines_append_ending rfl hfeed (by simp) hfirst]
      _ = filled (lines first ++ lines ('\r' :: '\n' :: rest)) := by
          rw [filled_append, filled_append, lines, filled_cons_nil]

/-- A carriage return at the end of a text belongs to its last line until a line feed follows. -/
theorem flatten_lines_append_return (text : List Char) :
    (lines (text ++ ['\r'])).flatten = (lines (text ++ ['\r', '\n'])).flatten ++ ['\r'] := by
  by_cases hfeed : text.getLast? = some '\n'
  · obtain ⟨front, rfl⟩ := List.getLast?_eq_some_iff.mp hfeed
    rw [List.append_assoc, List.append_assoc, List.singleton_append, List.singleton_append,
      lines_append_feed front ['\r'], lines_append_feed front ['\r', '\n']]
    simp [lines]
  by_cases htext : text = []
  · simp [htext, lines]
  · obtain ⟨front, line, -, -, happend⟩ := exists_open_line hfeed htext
    rw [happend ['\r'] (by simp), happend ['\r', '\n'] (by simp)]
    simp [lines]

/-- Elsewhere the lines differ: the first line of the second text has become part of the last line of
the first one, or has made a carriage return part of its ending. -/
theorem parted_iff {first second : List Char} :
    Parted first second ↔
      filled (lines (first ++ second)) = filled (lines first ++ lines second) := by
  refine ⟨filled_lines_of_parted, fun hfilled => ?_⟩
  by_contra hparted
  simp only [Parted, not_or] at hparted
  obtain ⟨hfirst, hsecond, hfeed, hhead, hreturnFeed⟩ := hparted
  obtain ⟨c, rest, rfl⟩ := List.exists_cons_of_ne_nil hsecond
  by_cases hc : c = '\n'
  · subst hc
    have hreturn : first.getLast? = some '\r' := by simpa using hhead
    obtain ⟨front, rfl⟩ := List.getLast?_eq_some_iff.mp hreturn
    have hlost : (lines (front ++ ['\r', '\n'])).flatten = (lines (front ++ ['\r'])).flatten := by
      have hflatten := congrArg List.flatten hfilled
      rw [flatten_filled, flatten_filled, lines_append_feed, List.append_assoc,
        List.singleton_append, lines] at hflatten
      simpa using hflatten
    rw [flatten_lines_append_return] at hlost
    simp at hlost
  · have hreturn : c = '\r' → rest.head? ≠ some '\n' := by
      intro hc hrest
      obtain ⟨tail, rfl⟩ := List.head?_eq_some_iff.mp hrest
      exact hreturnFeed ⟨tail, by simp [hc]⟩
    obtain ⟨front, line, hline, hlines, happend⟩ := exists_open_line hfeed hfirst
    have hseam := happend (c :: rest) (fun _ => by simpa using hc)
    have hlength := congrArg List.length hfilled
    rw [hseam, hlines, lines_cons hc hreturn] at hlength
    simp [filled, hline] at hlength

end BridgingHeader.Text
