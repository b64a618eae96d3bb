import Mathlib.Data.List.Basic
import Mathlib.Data.List.TakeWhile
import BridgingHeader.FileTree.Resolve

/-!
# Segments of paths

A path text is cut into segments at its slashes, and the empty segments lead nowhere. Following one
path from another puts their segments one after the other, and the parent of a path has its
segments up to the last name.
-/

namespace BridgingHeader

namespace Text

theorem pieces_append_cons (separator : Char) (a b : List Char) :
    pieces separator (a ++ separator :: b) = pieces separator a ++ pieces separator b := by
  induction a with
  | nil => simp [pieces]
  | cons c rest ih =>
    rw [List.cons_append, pieces, pieces, ih]
    by_cases h : c = separator
    · simp [h]
    · rw [if_neg h, if_neg h]
      cases hp : pieces separator rest with
      | nil => exact absurd hp (pieces_ne_nil separator rest)
      | cons piece more => simp

/-- A text without the separator is one piece. -/
theorem pieces_of_not_mem {separator : Char} {text : List Char} (h : separator ∉ text) :
    pieces separator text = [text] := by
  induction text with
  | nil => rfl
  | cons c rest ih =>
    rw [List.mem_cons, not_or] at h
    obtain ⟨hc, hrest⟩ := h
    rw [pieces, if_neg (Ne.symm hc), ih hrest]

/-- No piece holds the separator. -/
theorem not_mem_of_mem_pieces {separator : Char} {text piece : List Char}
    (h : piece ∈ pieces separator text) : separator ∉ piece := by
  induction text generalizing piece with
  | nil =>
    rw [pieces, List.mem_singleton] at h
    simp [h]
  | cons c rest ih =>
    rw [pieces] at h
    by_cases hc : c = separator
    · rw [if_pos hc, List.mem_cons] at h
      rcases h with rfl | h
      · simp
      · exact ih h
    · rw [if_neg hc] at h
      cases hp : pieces separator rest with
      | nil => exact absurd hp (pieces_ne_nil separator rest)
      | cons first more =>
        rw [hp] at h ih
        rcases List.mem_cons.mp h with rfl | h
        · rw [List.mem_cons, not_or]
          exact ⟨Ne.symm hc, ih List.mem_cons_self⟩
        · exact ih (List.mem_cons_of_mem _ h)

/-- The pieces with the separator between them are the text again. -/
theorem intercalate_pieces (separator : Char) (text : List Char) :
    [separator].intercalate (pieces separator text) = text := by
  induction text with
  | nil => rfl
  | cons c rest ih =>
    rw [pieces]
    cases hp : pieces separator rest with
    | nil => exact absurd hp (pieces_ne_nil separator rest)
    | cons first more =>
      rw [hp] at ih
      by_cases hc : c = separator
      · rw [if_pos hc, ← ih, hc]
        simp [List.intercalate]
      · rw [if_neg hc, ← ih]
        cases more <;> simp [List.intercalate]

/-- Pieces with the separator between them are the pieces of that text. -/
theorem pieces_intercalate {separator : Char} {list : List (List Char)} (hlist : list ≠ [])
    (h : ∀ piece ∈ list, separator ∉ piece) :
    pieces separator ([separator].intercalate list) = list := by
  induction list with
  | nil => exact absurd rfl hlist
  | cons piece rest ih =>
    have hpiece := pieces_of_not_mem (h piece List.mem_cons_self)
    by_cases hrest : rest = []
    · rw [hrest, List.intercalate_singleton, hpiece]
    · rw [List.intercalate_cons_of_ne_nil hrest, List.append_assoc, List.singleton_append,
        pieces_append_cons, hpiece, ih hrest fun p hp => h p (List.mem_cons_of_mem _ hp)]
      rfl

theorem intercalate_append {separator : Char} {a b : List (List Char)} (ha : a ≠ [])
    (hb : b ≠ []) : [separator].intercalate (a ++ b) =
      [separator].intercalate a ++ separator :: [separator].intercalate b := by
  induction a with
  | nil => exact absurd rfl ha
  | cons piece rest ih =>
    by_cases hrest : rest = []
    · simp [hrest, List.intercalate_cons_of_ne_nil hb]
    · rw [List.cons_append, List.intercalate_cons_of_ne_nil (by simp [hrest]), ih hrest,
        List.intercalate_cons_of_ne_nil hrest]
      simp

end Text

namespace FileTree

/-- A text that can be the name of a child of a directory. -/
structure IsName (name : String) : Prop where
  ne_empty : name ≠ ""
  ne_current : name ≠ "."
  ne_up : name ≠ ".."
  no_slash : '/' ∉ name.toList

theorem isName_iff {name : String} :
    IsName name ↔ name ≠ "" ∧ name ≠ "." ∧ name ≠ ".." ∧ '/' ∉ name.toList :=
  ⟨fun h => ⟨h.ne_empty, h.ne_current, h.ne_up, h.no_slash⟩,
    fun ⟨hempty, hcurrent, hup, hslash⟩ => ⟨hempty, hcurrent, hup, hslash⟩⟩

instance (name : String) : Decidable (IsName name) := decidable_of_iff' _ isName_iff

/-- The segments of a path that lead somewhere. -/
def steps (path : Path) : List String := (segments path.text).filter (· ≠ "")

theorem steps_eq_pieces (path : Path) :
    steps path = ((Text.pieces '/' path.text.toList).filter (· ≠ [])).map String.ofList := by
  rw [steps, segments, List.filter_map]
  congr 1
  refine List.filter_congr fun piece _ => ?_
  simp

theorem segments_append (a b : String) :
    segments (a ++ "/" ++ b) = segments a ++ segments b := by
  simp [segments, Text.pieces_append_cons]

theorem segments_of_no_slash {text : String} (h : '/' ∉ text.toList) : segments text = [text] := by
  simp [segments, Text.pieces_of_not_mem h]

theorem IsName.steps_eq {name : String} (h : IsName name) : steps ⟨name⟩ = [name] := by
  simp [steps, segments_of_no_slash h.no_slash, h.ne_empty]

theorem steps_of_text_eq {path : Path} {a b : String} (h : path.text = a ++ "/" ++ b) :
    steps path = steps ⟨a⟩ ++ steps ⟨b⟩ := by
  rw [steps, h, segments_append, List.filter_append, steps, steps]

/-- The relative path that leads through some names. -/
def relative (names : List String) : Path := ⟨"/".intercalate names⟩

theorem steps_relative {names : List String} (h : ∀ name ∈ names, IsName name) :
    steps (relative names) = names := by
  rw [relative]
  induction names with
  | nil => rfl
  | cons name rest ih =>
    cases rest with
    | nil => simpa using (h name (by simp)).steps_eq
    | cons next rest =>
      have htext : (⟨"/".intercalate (name :: next :: rest)⟩ : Path).text =
          name ++ "/" ++ "/".intercalate (next :: rest) := String.intercalate_cons_cons
      rw [steps_of_text_eq htext, (h name (by simp)).steps_eq,
        ih fun n hn => h n (List.mem_cons_of_mem _ hn), List.singleton_append]

/-- The path of a place steps through its names. -/
theorem steps_pathOf {place : Place} (h : ∀ name ∈ place, IsName name) :
    steps (pathOf place) = place := by
  have htext : (pathOf place).text = "" ++ "/" ++ "/".intercalate place := by simp [pathOf]
  rw [steps_of_text_eq htext]
  refine (congrArg _ (steps_relative h)).trans ?_
  rfl

theorem isAbsolute_pathOf (place : Place) : (pathOf place).isAbsolute = true := by
  simp [pathOf, Path.isAbsolute]

/-- Following a path from another one puts the steps one after the other. -/
theorem steps_join (base : Path) {p : Path} (h : p.isAbsolute = false) :
    steps (base.join p) = steps base ++ steps p := by
  unfold Path.join
  rw [h, Bool.false_or]
  by_cases hempty : base.text.toList = []
  · have hbase : base.text = "" := by simpa using hempty
    simp [hbase, steps, segments, Text.pieces]
  rw [if_neg (by simpa using hempty)]
  split
  · next hlast =>
    -- The slash at the end of the base is the one between the two.
    obtain ⟨front, hfront⟩ := List.getLast?_eq_some_iff.mp hlast
    have hbase : base.text = String.ofList front ++ "/" ++ "" := by
      apply String.toList_inj.mp
      simp [hfront]
    have htext : base.text ++ p.text = String.ofList front ++ "/" ++ p.text := by
      apply String.toList_inj.mp
      simp [hfront]
    rw [steps_of_text_eq htext, steps_of_text_eq hbase]
    simp [steps, segments, Text.pieces]
  · exact steps_of_text_eq rfl

theorem isAbsolute_join (base : Path) {p : Path} (h : p.isAbsolute = false) :
    (base.join p).isAbsolute = base.isAbsolute := by
  unfold Path.join
  rw [h, Bool.false_or]
  by_cases hempty : base.text.toList = []
  · rw [if_pos (by simpa using hempty), h, Path.isAbsolute, hempty]
    rfl
  · obtain ⟨c, rest, hc⟩ := List.exists_cons_of_ne_nil hempty
    rw [if_neg (by simpa using hempty)]
    split <;> simp [Path.isAbsolute, hc]

theorem IsName.isAbsolute_eq {name : String} (h : IsName name) :
    Path.isAbsolute ⟨name⟩ = false := by
  rw [Path.isAbsolute, decide_eq_false_iff_not]
  intro hhead
  exact h.no_slash (List.mem_of_mem_head? hhead)

theorem isAbsolute_relative {names : List String} (h : ∀ name ∈ names, IsName name) :
    (relative names).isAbsolute = false := by
  rw [relative]
  cases names with
  | nil => rfl
  | cons name rest =>
    have hname := h name List.mem_cons_self
    cases rest with
    | nil =>
      rw [String.intercalate_singleton]
      exact hname.isAbsolute_eq
    | cons next rest =>
      obtain ⟨c, more, hc⟩ := List.exists_cons_of_ne_nil
        (show name.toList ≠ [] from fun he => hname.ne_empty (String.toList_inj.mp he))
      have hslash : c ≠ '/' := by
        rintro rfl
        exact hname.no_slash (by simp [hc])
      rw [Path.isAbsolute, String.intercalate_cons_cons]
      simp [hc, hslash]

/-- A text that ends in a name does not end in a slash. -/
theorem getLast?_relative {names : List String} {name : String} (h : IsName name) :
    (relative (names ++ [name])).text.toList.getLast? ≠ some '/' := by
  have hname : name.toList ≠ [] := fun he => h.ne_empty (String.toList_inj.mp he)
  have hlast : (relative (names ++ [name])).text.toList.getLast? = name.toList.getLast? := by
    rw [relative]
    cases names with
    | nil => rw [List.nil_append, String.intercalate_singleton]
    | cons first rest =>
      rw [String.intercalate_append_of_ne_nil (by simp) (by simp), String.intercalate_singleton,
        String.toList_append, List.getLast?_append_of_ne_nil _ hname]
  rw [hlast]
  exact fun he => h.no_slash (List.mem_of_getLast? he)

theorem relative_join {names : List String} (h : ∀ name ∈ names, IsName name) {name : String}
    (hname : IsName name) : (relative names).join ⟨name⟩ = relative (names ++ [name]) := by
  rcases List.eq_nil_or_concat' names with rfl | ⟨init, last, rfl⟩
  · simp [Path.join, relative]
  · have hnil : (relative (init ++ [last])).text.toList ≠ [] := by
      intro hnil
      have hsteps := steps_relative h
      rw [steps, String.toList_inj.mp (hnil.trans String.toList_empty.symm)] at hsteps
      simp [segments, Text.pieces] at hsteps
    unfold Path.join
    rw [hname.isAbsolute_eq, Bool.false_or, if_neg (by simpa using hnil),
      if_neg (getLast?_relative (h last (by simp)))]
    have htext : "/".intercalate (init ++ [last] ++ [name]) =
        "/".intercalate (init ++ [last]) ++ "/" ++ "/".intercalate [name] :=
      String.intercalate_append_of_ne_nil (by simp) (by simp)
    rw [relative, relative, htext, String.intercalate_singleton]

/-- Slashes at the end of a text add no steps. -/
theorem steps_append_slashes (front : List Char) {slashes : List Char}
    (h : ∀ c ∈ slashes, c = '/') :
    steps ⟨String.ofList (front ++ slashes)⟩ = steps ⟨String.ofList front⟩ := by
  induction slashes generalizing front with
  | nil => rw [List.append_nil]
  | cons c rest ih =>
    obtain rfl : c = '/' := h c List.mem_cons_self
    have hrest := ih [] fun c hc => h c (List.mem_cons_of_mem _ hc)
    have htext : (⟨String.ofList (front ++ '/' :: rest)⟩ : Path).text =
        String.ofList front ++ "/" ++ String.ofList rest := by
      apply String.toList_inj.mp
      simp
    rw [List.nil_append] at hrest
    rw [steps_of_text_eq htext, hrest]
    simp [steps, segments, Text.pieces]

/-- A text is what is left of it without the slashes at its end, and those. -/
theorem exists_withoutEndSlashes (path : Path) : ∃ kept slashes,
    path.text.toList = kept ++ slashes ∧ (∀ c ∈ slashes, c = '/') ∧
      withoutEndSlashes path =
        if kept = [] ∧ path.text ≠ "" then ⟨"/"⟩ else ⟨String.ofList kept⟩ := by
  refine ⟨(path.text.toList.reverse.dropWhile (· = '/')).reverse,
    (path.text.toList.reverse.takeWhile (· = '/')).reverse, ?_, fun c hc => ?_, rfl⟩
  · rw [← List.reverse_append, List.takeWhile_append_dropWhile, List.reverse_reverse]
  · simpa using List.mem_takeWhile_imp (List.mem_reverse.mp hc)

theorem steps_withoutEndSlashes (path : Path) : steps (withoutEndSlashes path) = steps path := by
  obtain ⟨kept, slashes, htext, hslashes, heq⟩ := exists_withoutEndSlashes path
  have hpath : path = ⟨String.ofList (kept ++ slashes)⟩ := by
    rw [← htext, String.ofList_toList]
  have hsteps := steps_append_slashes kept hslashes
  rw [← hpath] at hsteps
  rw [hsteps, heq]
  split
  · next hkept =>
    rw [hkept.1]
    rfl
  · rfl

theorem isAbsolute_withoutEndSlashes (path : Path) :
    (withoutEndSlashes path).isAbsolute = path.isAbsolute := by
  obtain ⟨kept, slashes, htext, hslashes, heq⟩ := exists_withoutEndSlashes path
  rw [heq]
  split
  · next hkept =>
    rw [Path.isAbsolute, Path.isAbsolute, htext, hkept.1, List.nil_append]
    cases slashes with
    | nil =>
      rw [hkept.1] at htext
      exact absurd (String.toList_inj.mp htext) hkept.2
    | cons c rest => simp [hslashes c List.mem_cons_self]
  · next hkept =>
    rw [Path.isAbsolute, Path.isAbsolute, htext, String.toList_ofList]
    cases kept with
    | nil =>
      have hempty : path.text = "" := by simpa using hkept
      rw [hempty] at htext
      simp_all
    | cons c rest => rfl

end FileTree

namespace Path

open FileTree (IsName steps segments)

/-! ### Starts and bodies -/

theorem text_splitStart (text : List Char) :
    (splitStart text).1.text ++ (splitStart text).2 = text := by
  unfold splitStart
  split <;> rfl

theorem splitStart_of_bare {c : Char} {body : List Char} (hroot : c ≠ '/')
    (hcurrent : c = '.' → ∃ d more, body = d :: more ∧ d ≠ '/') :
    splitStart (c :: body) = (.bare, c :: body) := by
  by_cases hc : c = '.'
  · obtain ⟨d, more, rfl, hd⟩ := hcurrent hc
    subst hc
    simp [splitStart, hd]
  · unfold splitStart
    split <;> simp_all

/-- A slash after a text belongs to its body. -/
theorem splitStart_append {text : List Char} (h : text ≠ []) (rest : List Char) :
    splitStart (text ++ '/' :: rest) =
      ((splitStart text).1, (splitStart text).2 ++ '/' :: rest) := by
  obtain ⟨c, body, rfl⟩ := List.exists_cons_of_ne_nil h
  by_cases hroot : c = '/'
  · subst hroot
    rfl
  by_cases hc : c = '.'
  · subst hc
    cases body with
    | nil => rfl
    | cons d more =>
      by_cases hd : d = '/'
      · subst hd
        rfl
      · rw [splitStart_of_bare hroot fun _ => ⟨d, more, rfl, hd⟩]
        exact splitStart_of_bare hroot fun _ => ⟨d, more ++ '/' :: rest, rfl, hd⟩
  · rw [splitStart_of_bare hroot fun h => absurd h hc, List.cons_append,
      splitStart_of_bare hroot fun h => absurd h hc]

/-- A text starts at the root, at a `.` that stands alone or before a slash, or at neither. -/
theorem splitStart_cases (text : List Char) :
    (∃ body, text = '/' :: body ∧ splitStart text = (.root, body)) ∨
    (text = ['.'] ∧ splitStart text = (.current, [])) ∨
    (∃ rest, text = '.' :: '/' :: rest ∧ splitStart text = (.current, '/' :: rest)) ∨
    splitStart text = (.bare, text) := by
  unfold splitStart
  split <;> simp

/-- A text without a start does not start at the root. -/
theorem head?_ne_of_bare {text : List Char} (h : splitStart text = (.bare, text)) :
    text.head? ≠ some '/' := by
  intro hhead
  obtain ⟨body, rfl⟩ := List.head?_eq_some_iff.mp hhead
  cases h

theorem join_of_ne_empty {base q : Path} (hq : q.isAbsolute = false) (hne : base.text ≠ "") :
    base.join q =
      ⟨base.text ++ ((if base.text.toList.getLast? = some '/' then "" else "/") ++ q.text)⟩ := by
  have hnil : base.text.toList ≠ [] := fun h => hne (String.toList_inj.mp h)
  unfold join
  rw [hq, if_neg (by simpa using hnil)]
  split <;> simp [String.append_assoc]

/-- Paths that are followed one after the other are followed as one. -/
theorem join_join (base : Path) {p q : Path} (hp : p.isAbsolute = false) (hq : q.isAbsolute = false)
    (hne : p.text ≠ "") : (base.join p).join q = base.join (p.join q) := by
  have hnil : p.text.toList ≠ [] := fun h => hne (String.toList_inj.mp h)
  have hpq : (p.join q).isAbsolute = false := (FileTree.isAbsolute_join p hq).trans hp
  by_cases hbase : base.text = ""
  · have hjoin : ∀ r : Path, base.join r = r := fun r => by
      unfold join
      rw [if_pos (by simp [hbase])]
    rw [hjoin, hjoin]
  · rw [join_of_ne_empty hp hbase, join_of_ne_empty hpq hbase, join_of_ne_empty hq hne]
    have hlast : ∀ front : String,
        (front ++ p.text).toList.getLast? = p.text.toList.getLast? := by
      intro front
      rw [String.toList_append, List.getLast?_append, List.getLast?_eq_some_getLast hnil]
      rfl
    rw [join_of_ne_empty hq (by simp [hne])]
    simp only [← String.append_assoc, hlast]

/-! ### Names at the end -/

theorem splitStart_of_isName {name : String} (h : IsName name) :
    splitStart name.toList = (.bare, name.toList) := by
  rcases splitStart_cases name.toList with ⟨body, htext, -⟩ | ⟨htext, -⟩ | ⟨rest, htext, -⟩ | hbare
  · exact absurd (by simp [htext]) h.no_slash
  · exact absurd (String.toList_inj.mp htext) h.ne_current
  · exact absurd (by simp [htext]) h.no_slash
  · exact hbare

theorem isVoid_of_isName {name : String} (h : IsName name) : isVoid name.toList = false := by
  simp only [isVoid, Bool.or_eq_false_iff, decide_eq_false_iff_not]
  exact ⟨fun he => h.ne_empty (String.toList_inj.mp he),
    fun he => h.ne_current (String.toList_inj.mp he)⟩

/-- A segment that is neither void nor a step up is a name. -/
theorem isName_ofList {segment : List Char} (hslash : '/' ∉ segment)
    (hvoid : isVoid segment = false) (hup : segment ≠ ['.', '.']) :
    IsName (String.ofList segment) := by
  simp only [isVoid, Bool.or_eq_false_iff, decide_eq_false_iff_not] at hvoid
  constructor
  case ne_empty => simpa using hvoid.1
  case ne_current => exact fun he => hvoid.2 (by simpa using congrArg String.toList he)
  case ne_up => exact fun he => hup (by simpa using congrArg String.toList he)
  case no_slash => simpa using hslash

/-- A path that follows a name from a base holds the text of the base, unless that is empty, and
perhaps a slash before the name. -/
theorem text_join_name (base : Path) {name : String} (h : IsName name) :
    (base.text = "" ∧ base.join ⟨name⟩ = ⟨name⟩) ∨
    ∃ front, (base.join ⟨name⟩).text.toList = front ++ '/' :: name.toList ∧
      (base.text.toList = front ∨ base.text.toList = front ++ ['/']) := by
  unfold Path.join
  rw [h.isAbsolute_eq, Bool.false_or]
  by_cases hempty : base.text.toList = []
  · exact Or.inl ⟨by simpa using hempty, by rw [if_pos (by simpa using hempty)]⟩
  · right
    rw [if_neg (by simpa using hempty)]
    split
    · next hlast =>
      obtain ⟨front, hfront⟩ := List.getLast?_eq_some_iff.mp hlast
      exact ⟨front, by simp [hfront], Or.inr hfront⟩
    · exact ⟨base.text.toList, by simp, Or.inl rfl⟩

/-- What follows a slash is the end of the body. -/
theorem exists_pieces_splitStart (front rest : List Char) :
    ∃ before, Text.pieces '/' (splitStart (front ++ '/' :: rest)).2 =
      before ++ Text.pieces '/' rest := by
  by_cases h : front = []
  · exact ⟨[], by rw [h]; rfl⟩
  · rw [splitStart_append h, Text.pieces_append_cons]
    exact ⟨_, rfl⟩

/-- A name at the end of a path is its last component. -/
theorem fileName?_join (base : Path) {name : String} (h : IsName name) :
    (base.join ⟨name⟩).fileName? = some name := by
  have hlast : ∃ before, Text.pieces '/' (splitStart (base.join ⟨name⟩).text.toList).2 =
      before ++ [name.toList] := by
    rw [← Text.pieces_of_not_mem h.no_slash]
    rcases text_join_name base h with ⟨-, hjoin⟩ | ⟨front, htext, -⟩
    · exact ⟨[], by rw [hjoin, splitStart_of_isName h]; rfl⟩
    · rw [htext]
      exact exists_pieces_splitStart front name.toList
  obtain ⟨before, hbefore⟩ := hlast
  have hsegment : Component.ofSegment name.toList = .name name := by
    have hup : name.toList ≠ ['.', '.'] := fun he => h.ne_up (String.toList_inj.mp he)
    rw [Component.ofSegment, if_neg hup, String.ofList_toList]
  simp [fileName?, components, hbefore, List.filter_append, isVoid_of_isName h, hsegment]

/-- The last piece of a text that does not end in a void one is the last piece of its body. -/
theorem getLast?_pieces_splitStart {text piece : List Char} (hvoid : isVoid piece = false)
    (h : (Text.pieces '/' text).getLast? = some piece) :
    (Text.pieces '/' (splitStart text).2).getLast? = some piece := by
  rcases splitStart_cases text with ⟨body, rfl, hs⟩ | ⟨rfl, -⟩ | ⟨rest, rfl, hs⟩ | hs
  · rw [hs]
    rw [Text.pieces, if_pos rfl, List.getLast?_cons_of_ne_nil (Text.pieces_ne_nil _ _)] at h
    exact h
  · cases h
    cases hvoid
  · rw [hs, Text.pieces, if_pos rfl, List.getLast?_cons_of_ne_nil (Text.pieces_ne_nil _ _)]
    have hpieces : Text.pieces '/' ('.' :: '/' :: rest) = ['.'] :: Text.pieces '/' rest := by
      simp [Text.pieces]
    rw [hpieces, List.getLast?_cons_of_ne_nil (Text.pieces_ne_nil _ _)] at h
    exact h
  · rw [hs]
    exact h

/-- The parent of a path that ends in two names is what precedes the second one. -/
theorem parent?_join {base : Path} {last name : String}
    (hbase : (segments base.text).getLast? = some last) (hlast : IsName last)
    (hname : IsName name) : (base.join ⟨name⟩).parent? = some base := by
  have hpiece : (Text.pieces '/' base.text.toList).getLast? = some last.toList := by
    rw [segments, List.getLast?_map, Option.map_eq_some_iff] at hbase
    obtain ⟨piece, hpiece, rfl⟩ := hbase
    rwa [String.toList_ofList]
  have hnil : base.text.toList ≠ [] := by
    intro hnil
    have hempty : [] = last.toList := by simpa [hnil, Text.pieces] using hpiece
    exact hlast.ne_empty (String.toList_inj.mp hempty.symm)
  have htext : (base.join ⟨name⟩).text.toList = base.text.toList ++ '/' :: name.toList := by
    rcases text_join_name base hname with ⟨hempty, -⟩ | ⟨front, htext, rfl | hfront⟩
    · exact absurd (by rw [hempty]; rfl) hnil
    · exact htext
    · rw [hfront, Text.pieces_append_cons] at hpiece
      simp only [Text.pieces, List.getLast?_append, List.getLast?_singleton, Option.some_or,
        Option.some.injEq] at hpiece
      exact absurd (String.toList_inj.mp hpiece.symm) hlast.ne_empty
  -- Nothing is dropped from the end, since both names stay.
  have hbody := getLast?_pieces_splitStart (isVoid_of_isName hlast) hpiece
  obtain ⟨before, hbefore⟩ := List.getLast?_eq_some_iff.mp hbody
  have hreversed : reversedSegments ((splitStart base.text.toList).2 ++ '/' :: name.toList) =
      name.toList :: last.toList :: before.reverse := by
    rw [reversedSegments, Text.pieces_append_cons, hbefore,
      Text.pieces_of_not_mem hname.no_slash]
    simp [isVoid_of_isName hname]
  have hkept : ((last.toList :: before.reverse).dropWhile isVoid).reverse =
      Text.pieces '/' (splitStart base.text.toList).2 := by
    rw [List.dropWhile_cons_of_neg (by simp [isVoid_of_isName hlast]), hbefore]
    simp
  simp only [parent?, htext, splitStart_append hnil, hreversed, hkept, Text.intercalate_pieces,
    text_splitStart, String.ofList_toList]

/-- Pieces that are cut off the end of the body of a path are cut off its steps. -/
theorem steps_eq_append {p : Path} {kept rest : List (List Char)}
    (h : Text.pieces '/' (splitStart p.text.toList).2 = kept ++ rest) (hrest : rest ≠ []) :
    steps p = steps ⟨String.ofList ((splitStart p.text.toList).1.text ++ ['/'].intercalate kept)⟩ ++
      (rest.filter (· ≠ [])).map String.ofList := by
  obtain ⟨text⟩ := p
  simp only [FileTree.steps_eq_pieces, String.toList_ofList, ← List.map_append]
  congr 1
  generalize text.toList = text at h
  have hslash : ∀ piece ∈ kept ++ rest, '/' ∉ piece :=
    fun piece hpiece => Text.not_mem_of_mem_pieces (h ▸ hpiece)
  have hbody : ['/'].intercalate (kept ++ rest) = (splitStart text).2 := by
    rw [← h, Text.intercalate_pieces]
  by_cases hkept : kept = []
  · -- Only the start is left.
    subst hkept
    rw [List.nil_append] at h hbody
    rw [← h, ← List.filter_append]
    rcases splitStart_cases text with ⟨body, rfl, hs⟩ | ⟨rfl, hs⟩ | ⟨rest, rfl, hs⟩ | hs <;> rw [hs]
    · simp [Start.text, Text.pieces]
    · simp [Start.text, Text.pieces]
    · simp [Start.text, Text.pieces]
    · simp [Start.text, Text.pieces]
  · have htext : text = ((splitStart text).1.text ++ ['/'].intercalate kept) ++
        '/' :: ['/'].intercalate rest := by
      rw [List.append_assoc, ← Text.intercalate_append hkept hrest, hbody, text_splitStart]
    have hpieces : Text.pieces '/' (['/'].intercalate rest) = rest :=
      Text.pieces_intercalate hrest fun p hp => hslash p (List.mem_append_right _ hp)
    have hall := congrArg (Text.pieces '/') htext
    rw [Text.pieces_append_cons, hpieces] at hall
    rw [hall, List.filter_append]

/-- The file name of a path is its last piece that is not void. -/
theorem exists_pieces_of_fileName? {p : Path} {name : String} (h : p.fileName? = some name) :
    IsName name ∧ ∃ before after, (∀ piece ∈ after, isVoid piece = true) ∧
      Text.pieces '/' (splitStart p.text.toList).2 = before ++ name.toList :: after := by
  rcases hs : splitStart p.text.toList with ⟨start, body⟩
  have hlast : p.components.getLast? = some (.name name) := by
    unfold fileName? at h
    split at h
    · next text hlast =>
      cases h
      exact hlast
    · cases h
  rw [components, hs] at hlast
  simp only at hlast ⊢
  rcases List.eq_nil_or_concat' ((Text.pieces '/' body).filter fun s => !isVoid s)
    with hnil | ⟨init, segment, hsolid⟩
  · rw [hnil] at hlast
    cases start <;> simp [Start.components] at hlast
  rw [hsolid, List.map_append, List.map_singleton, ← List.append_assoc,
    List.getLast?_concat, Option.some.injEq] at hlast
  obtain ⟨before, rest, hpieces, -, hrest⟩ := List.filter_eq_append_iff.mp hsolid
  obtain ⟨between, after, rfl, -, hvoid, hafter⟩ := List.filter_eq_cons_iff.mp hrest
  have hslash : '/' ∉ segment := Text.not_mem_of_mem_pieces (by rw [hpieces]; simp)
  rw [Component.ofSegment] at hlast
  split at hlast
  · cases hlast
  next hup =>
  cases hlast
  refine ⟨isName_ofList hslash (by simpa using hvoid) hup, before ++ between, after, ?_, ?_⟩
  · simpa [List.filter_eq_nil_iff] using hafter
  · simp [hpieces]

/-- A path that keeps the start of its text and the first of its pieces starts at the root if it did
so before. -/
theorem isAbsolute_of_pieces {p : Path} {kept rest : List (List Char)}
    (h : Text.pieces '/' (splitStart p.text.toList).2 = kept ++ rest) (hrest : rest ≠ []) :
    Path.isAbsolute ⟨String.ofList ((splitStart p.text.toList).1.text ++ ['/'].intercalate kept)⟩ =
      p.isAbsolute := by
  obtain ⟨text⟩ := p
  simp only [Path.isAbsolute, String.toList_ofList]
  generalize text.toList = text at h
  rcases splitStart_cases text with ⟨body, rfl, hs⟩ | ⟨rfl, hs⟩ | ⟨rest, rfl, hs⟩ | hs
  · simp [hs, Start.text]
  · simp [hs, Start.text]
  · simp [hs, Start.text]
  · -- Without a start the text begins with what was kept.
    rw [hs] at h
    have hbare := head?_ne_of_bare hs
    rw [hs, decide_eq_decide]
    change (['/'].intercalate kept).head? = some '/' ↔ text.head? = some '/'
    refine iff_of_false (fun hhead => hbare ?_) hbare
    have hkept : kept ≠ [] := by
      rintro rfl
      cases hhead
    obtain ⟨more, hmore⟩ := List.head?_eq_some_iff.mp hhead
    have htext : ['/'].intercalate kept ++ '/' :: ['/'].intercalate rest = text := by
      rw [← Text.intercalate_append hkept hrest, ← h, Text.intercalate_pieces]
    rw [← htext, hmore]
    rfl

/-- Void pieces are steps that stay, or none at all. -/
theorem eq_current_of_isVoid {pieces : List (List Char)}
    (h : ∀ piece ∈ pieces, isVoid piece = true) :
    ∀ step ∈ (pieces.filter (· ≠ [])).map String.ofList, step = "." := by
  intro step hstep
  obtain ⟨piece, hmem, rfl⟩ := List.mem_map.mp hstep
  obtain ⟨hmem, hne⟩ := List.mem_filter.mp hmem
  have hvoid := h piece hmem
  simp only [isVoid, Bool.or_eq_true, decide_eq_true_eq] at hvoid hne
  rw [hvoid.resolve_left hne]

/-- A path with a file name has a parent, whose steps come before the name. -/
theorem exists_parent?_of_fileName? {p : Path} {name : String} (h : p.fileName? = some name) :
    IsName name ∧ ∃ directory, p.parent? = some directory ∧
      directory.isAbsolute = p.isAbsolute ∧
      ∃ before after, (∀ step ∈ before ++ after, step = ".") ∧
        steps p = steps directory ++ before ++ name :: after := by
  obtain ⟨hname, before, after, hafter, hpieces⟩ := exists_pieces_of_fileName? h
  refine ⟨hname, ?_⟩
  have hreversed : reversedSegments (splitStart p.text.toList).2 =
      name.toList :: before.reverse := by
    rw [reversedSegments, hpieces, List.reverse_append, List.reverse_cons,
      List.append_assoc, List.dropWhile_append_of_pos (by simpa using hafter)]
    simp [isVoid_of_isName hname]
  -- Void pieces before the name are dropped along with it.
  have hbefore : before = (before.reverse.dropWhile isVoid).reverse ++
      (before.reverse.takeWhile isVoid).reverse := by
    rw [← List.reverse_append, List.takeWhile_append_dropWhile, List.reverse_reverse]
  have hvoid : ∀ piece ∈ (before.reverse.takeWhile isVoid).reverse, isVoid piece = true :=
    fun piece hp => List.mem_takeWhile_imp (List.mem_reverse.mp hp)
  rw [hbefore, List.append_assoc] at hpieces
  refine ⟨_, by simp only [parent?, hreversed], isAbsolute_of_pieces hpieces (by simp),
    ((before.reverse.takeWhile isVoid).reverse.filter (· ≠ [])).map String.ofList,
    (after.filter (· ≠ [])).map String.ofList, ?_, ?_⟩
  · intro step hstep
    rcases List.mem_append.mp hstep with hstep | hstep
    · exact eq_current_of_isVoid hvoid step hstep
    · exact eq_current_of_isVoid hafter step hstep
  · have hne : name.toList ≠ [] := fun he => hname.ne_empty (String.toList_inj.mp he)
    rw [steps_eq_append hpieces (by simp), List.filter_append, List.map_append,
      List.filter_cons_of_pos (by simpa using hne), List.map_cons, String.ofList_toList,
      ← List.append_assoc]

/-- Before a name that is followed from a path come the steps of the parent, and steps that stay. -/
theorem steps_parent?_join (base : Path) {name : String} (hname : IsName name) {parent : Path}
    (h : (base.join ⟨name⟩).parent? = some parent) :
    parent.isAbsolute = base.isAbsolute ∧
      ∃ dots, (∀ step ∈ dots, step = ".") ∧ steps base = steps parent ++ dots := by
  obtain ⟨-, parent', hparent', habsolute, before, after, hdots, hsteps⟩ :=
    exists_parent?_of_fileName? (fileName?_join base hname)
  obtain rfl : parent' = parent := Option.some.inj (hparent'.symm.trans h)
  rw [FileTree.isAbsolute_join base hname.isAbsolute_eq] at habsolute
  refine ⟨habsolute, before, fun step hstep => hdots step (List.mem_append_left _ hstep), ?_⟩
  rw [FileTree.steps_join base hname.isAbsolute_eq, hname.steps_eq] at hsteps
  rcases List.eq_nil_or_concat' after with rfl | ⟨init, last, rfl⟩
  · exact List.append_left_inj _ |>.mp hsteps
  · -- The last step is the name, not one that stays.
    have hlast := congrArg List.getLast? hsteps
    rw [← List.cons_append, ← List.append_assoc, List.getLast?_concat, List.getLast?_concat,
      Option.some.injEq] at hlast
    exact absurd (hlast.trans (hdots last (by simp))) hname.ne_current

/-- What is cut off behind the last segment that is not void is void, and so is what is cut off
before it. -/
theorem pieces_of_reversedSegments {body segment : List Char} {before : List (List Char)}
    (h : reversedSegments body = segment :: before) : isVoid segment = false ∧
      ∃ void after, (∀ piece ∈ void ++ after, isVoid piece = true) ∧
        Text.pieces '/' body = (before.dropWhile isVoid).reverse ++ (void ++ segment :: after) := by
  have hsegment : isVoid segment = false := by
    have hhead := List.head?_dropWhile_not isVoid (Text.pieces '/' body).reverse
    rw [← reversedSegments, h] at hhead
    exact hhead
  refine ⟨hsegment, (before.takeWhile isVoid).reverse,
    ((Text.pieces '/' body).reverse.takeWhile isVoid).reverse, fun piece hpiece => ?_, ?_⟩
  · rcases List.mem_append.mp hpiece with hpiece | hpiece
    · exact List.mem_takeWhile_imp (List.mem_reverse.mp hpiece)
    · exact List.mem_takeWhile_imp (List.mem_reverse.mp hpiece)
  · rw [← List.append_assoc, ← List.reverse_append, List.takeWhile_append_dropWhile,
      ← List.singleton_append, ← List.append_assoc, ← List.reverse_cons, ← h, reversedSegments,
      ← List.reverse_append, List.takeWhile_append_dropWhile, List.reverse_reverse]

/-- A parent starts where the path does and takes the first of its steps. -/
theorem steps_parent?_prefix {p parent : Path} (h : p.parent? = some parent) :
    parent.isAbsolute = p.isAbsolute ∧ steps parent <+: steps p := by
  cases hreversed : reversedSegments (splitStart p.text.toList).2 with
  | nil =>
    simp only [parent?, hreversed] at h
    split at h
    · next hcurrent =>
      cases h
      refine ⟨?_, List.nil_prefix⟩
      rcases splitStart_cases p.text.toList with ⟨body, -, hs⟩ | ⟨htext, -⟩ | ⟨rest, htext, -⟩ | hs
      · rw [hs] at hcurrent
        cases hcurrent
      · rw [isAbsolute, isAbsolute, htext]
        rfl
      · rw [isAbsolute, isAbsolute, htext]
        rfl
      · rw [hs] at hcurrent
        cases hcurrent
    · cases h
  | cons segment before =>
    simp only [parent?, hreversed, Option.some.injEq] at h
    subst h
    obtain ⟨-, void, after, -, hpieces⟩ := pieces_of_reversedSegments hreversed
    refine ⟨isAbsolute_of_pieces hpieces (by simp), ?_⟩
    rw [steps_eq_append hpieces (by simp)]
    exact List.prefix_append _ _

end Path

end BridgingHeader
