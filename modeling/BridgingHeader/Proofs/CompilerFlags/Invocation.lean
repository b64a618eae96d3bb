import BridgingHeader.Generation
import BridgingHeader.Simulation.Machine
import BridgingHeader.Proofs.FirstItem
import BridgingHeader.Proofs.CompilerFlags.Tokens
import BridgingHeader.Proofs.Outcomes

/-!
# The line of an invocation

The line for a unit is found by its text: it is the first one in which `-c`, a space and the path of
the unit stand one after the other. On a line that is written from tokens this is seen from the
tokens: one of them ends in `-c`, and the path is at the front of what is written behind the first
space after it.
-/

namespace BridgingHeader.CompilerFlags

/-- A line shows the invocation for a unit if it contains `-c`, a space and the path of the unit. -/
def Shows (unit : Path) (line : List Char) : Prop := invocationMark unit <:+: line

/-- A token ends in `-c`, and the path of the unit is at the front of what is written behind the
first space after the token. -/
def Invokes (unit : Path) (words : List (Token × Nat)) : Prop :=
  ∃ before token gap after, words = before ++ (token, gap + 1) :: after ∧
    ['-', 'c'] <:+ token.text ∧ unit.text.toList <+: List.replicate gap ' ' ++ written after

/-! ### Where `-c` and a space can stand -/

/-- A text stands behind `-c` and a space. -/
def Behind (rest text : List Char) : Prop := '-' :: 'c' :: ' ' :: rest <:+ text

theorem shows_iff_behind {unit : Path} {line : List Char} :
    Shows unit line ↔ ∃ rest, unit.text.toList <+: rest ∧ Behind rest line := by
  constructor
  · rintro ⟨before, after, rfl⟩
    exact ⟨unit.text.toList ++ after, List.prefix_append _ _, before, by simp [invocationMark]⟩
  · rintro ⟨rest, ⟨after, rfl⟩, before, rfl⟩
    exact ⟨before, after, by simp [invocationMark]⟩

theorem behind_cons_of_ne {rest text : List Char} {c : Char} (hc : c ≠ '-') :
    Behind rest (c :: text) ↔ Behind rest text := by
  rw [Behind, List.suffix_cons_iff]
  refine or_iff_right fun he => hc ?_
  injection he with hc
  exact hc.symm

theorem behind_replicate {rest text : List Char} (gap : Nat) :
    Behind rest (List.replicate gap ' ' ++ text) ↔ Behind rest text := by
  induction gap with
  | zero => rfl
  | succ gap ih =>
      rw [List.replicate_succ, List.cons_append, behind_cons_of_ne (by decide), ih]

/-- What starts with a space behind a token is what stands behind the first space of the gap. -/
theorem gap_eq_cons_iff {text : List Char} {gap : Nat} (hend : gap = 0 → text = []) {c : Char}
    {tail : List Char} :
    List.replicate gap ' ' ++ text = c :: tail ↔
      c = ' ' ∧ ∃ more, gap = more + 1 ∧ tail = List.replicate more ' ' ++ text := by
  cases gap with
  | zero => simp [hend rfl]
  | succ gap =>
      rw [List.replicate_succ, List.cons_append, List.cons.injEq]
      constructor
      · rintro ⟨rfl, rfl⟩
        exact ⟨rfl, gap, rfl, rfl⟩
      · rintro ⟨rfl, more, hmore, rfl⟩
        cases hmore
        exact ⟨rfl, rfl⟩

/-- The letter of the mark is a token of its own or the end of one, since no written token holds a
space that is not escaped. -/
theorem eq_letter_iff {rest text : List Char} {gap : Nat} (hend : gap = 0 → text = [])
    (token : List Char) :
    'c' :: ' ' :: rest = escape token ++ (List.replicate gap ' ' ++ text) ↔
      token = ['c'] ∧ ∃ more, gap = more + 1 ∧ rest = List.replicate more ' ' ++ text := by
  constructor
  · intro h
    rcases token with _ | ⟨c, token⟩
    · obtain ⟨hc, -⟩ := (gap_eq_cons_iff hend).mp h.symm
      exact absurd hc (by decide)
    rw [escape_cons] at h
    by_cases hspace : c = ' '
    · rw [if_pos hspace] at h
      injection h with hc
      exact absurd hc (by decide)
    rw [if_neg hspace] at h
    injection h with hc htail
    by_cases htoken : token = []
    · subst htoken
      obtain ⟨-, hmore⟩ := (gap_eq_cons_iff hend).mp htail.symm
      exact ⟨by rw [hc], hmore⟩
    · refine absurd ?_ (head?_escape_append htoken (List.replicate gap ' ' ++ text))
      exact congrArg List.head? htail.symm
  · rintro ⟨rfl, more, rfl, rfl⟩
    rfl

/-- The mark stands at the end of a written token and in the gap after it, or behind them. -/
theorem behind_escape {rest text : List Char} {gap : Nat} (hend : gap = 0 → text = [])
    (token : List Char) : Behind rest (escape token ++ (List.replicate gap ' ' ++ text)) ↔
      (['-', 'c'] <:+ token ∧ ∃ more, gap = more + 1 ∧ rest = List.replicate more ' ' ++ text) ∨
        Behind rest text := by
  induction token with
  | nil =>
      rw [escape, List.flatMap_nil, List.nil_append, behind_replicate]
      refine (or_iff_right fun h => ?_).symm
      exact absurd (List.suffix_nil.mp h.1) (by simp)
  | cons c token ih =>
      have hsuffix : ['-', 'c'] <:+ c :: token ↔
          (c = '-' ∧ token = ['c']) ∨ ['-', 'c'] <:+ token := by
        rw [List.suffix_cons_iff, List.cons.injEq, eq_comm, @eq_comm _ ['c']]
      rw [hsuffix, escape_cons]
      by_cases hspace : c = ' '
      · have hc : c ≠ '-' := by
          rw [hspace]
          decide
        rw [if_pos hspace, List.append_assoc, List.cons_append, List.singleton_append,
          behind_cons_of_ne (by decide), behind_cons_of_ne (by decide), ih]
        simp [hc]
      · rw [if_neg hspace, List.append_assoc, List.singleton_append, Behind, List.suffix_cons_iff,
          List.cons.injEq, eq_letter_iff hend, eq_comm, ← Behind, ih, or_and_right, or_assoc,
          and_assoc]

/-- On a line of tokens the mark stands at the end of one of them and in the gap after it. -/
theorem behind_written {rest : List Char} {words : List (Token × Nat)}
    (h : words.IsChain fun word _ => 0 < word.2) :
    Behind rest (written words) ↔ ∃ before token gap after,
      words = before ++ (token, gap + 1) :: after ∧ ['-', 'c'] <:+ token.text ∧
        rest = List.replicate gap ' ' ++ written after := by
  induction words with
  | nil =>
      constructor
      · intro h
        exact absurd (List.suffix_nil.mp h) (by simp)
      · rintro ⟨before, token, gap, after, he, -⟩
        simp at he
  | cons word words ih =>
      obtain ⟨token, gap⟩ := word
      have hend : gap = 0 → written words = [] := by
        intro hgap
        rw [eq_nil_of_apart h hgap]
        rfl
      rw [written_cons, behind_escape hend, ih h.tail]
      constructor
      · rintro (⟨htoken, more, rfl, rfl⟩ | ⟨before, token', gap', after, rfl, htoken, rfl⟩)
        · exact ⟨[], token, more, words, rfl, htoken, rfl⟩
        · exact ⟨(token, gap) :: before, token', gap', after, rfl, htoken, rfl⟩
      · rintro ⟨_ | ⟨first, before⟩, token', gap', after, he, htoken, hrest⟩
        · cases he
          exact Or.inl ⟨htoken, gap', rfl, hrest⟩
        · cases he
          exact Or.inr ⟨before, token', gap', after, rfl, htoken, hrest⟩

theorem shows_text_iff (unit : Path) (line : SpacedLine) :
    Shows unit line.text ↔ Invokes unit line.words := by
  simp only [shows_iff_behind, SpacedLine.text, behind_replicate, behind_written line.apart]
  constructor
  · rintro ⟨rest, hunit, before, token, gap, after, hwords, htoken, rfl⟩
    exact ⟨before, token, gap, after, hwords, htoken, hunit⟩
  · rintro ⟨before, token, gap, after, hwords, htoken, hunit⟩
    exact ⟨_, hunit, before, token, gap, after, hwords, htoken, rfl⟩

/-! ### Paths without spaces -/

/-- A text without spaces at the front of a token and what follows it is within the token. -/
theorem prefix_escape_of_prefix {front text : List Char} {gap : Nat} (hfront : ' ' ∉ front)
    (hend : gap = 0 → text = []) {token : List Char}
    (h : front <+: escape token ++ (List.replicate gap ' ' ++ text)) : front <+: escape token := by
  rcases le_total front.length (escape token).length with hle | hle
  · exact List.prefix_of_prefix_length_le h (List.prefix_append _ _) hle
  · obtain ⟨tail, rfl⟩ := List.prefix_of_prefix_length_le (List.prefix_append _ _) h hle
    rw [List.prefix_append_right_inj] at h
    cases tail with
    | nil => simp
    | cons c tail =>
        obtain ⟨rest, hrest⟩ := h
        obtain ⟨rfl, -⟩ := (gap_eq_cons_iff hend).mp hrest.symm
        exact absurd (List.mem_append_right _ List.mem_cons_self) hfront

/-- The path of a unit without spaces follows `-c` in the next token, behind exactly one space. -/
theorem invokes_iff_of_no_space {unit : Path} (hne : unit.text.toList ≠ [])
    (hspace : ' ' ∉ unit.text.toList) (line : SpacedLine) :
    Invokes unit line.words ↔ ∃ flag file gap, [(flag, 1), (file, gap)] <:+: line.words ∧
      ['-', 'c'] <:+ flag.text ∧ unit.text.toList <+: escape file.text := by
  constructor
  · rintro ⟨before, flag, gap, after, hwords, hflag, hunit⟩
    have hgap : gap = 0 := by
      by_contra hgap
      obtain ⟨more, rfl⟩ := Nat.exists_eq_succ_of_ne_zero hgap
      obtain ⟨c, tail, hpath⟩ := List.exists_cons_of_ne_nil hne
      rw [hpath, Nat.succ_eq_add_one, List.replicate_succ, List.cons_append,
        List.cons_prefix_cons] at hunit
      rw [hpath, hunit.1] at hspace
      exact hspace List.mem_cons_self
    subst hgap
    rw [List.replicate_zero, List.nil_append] at hunit
    rcases after with _ | ⟨⟨file, gap⟩, after⟩
    · exact absurd (List.prefix_nil.mp hunit) hne
    have hend : gap = 0 → written after = [] := by
      intro hgap
      have hapart := line.apart
      rw [hwords] at hapart
      rw [eq_nil_of_apart hapart.right_of_append.tail hgap]
      rfl
    rw [written_cons] at hunit
    exact ⟨flag, file, gap, ⟨before, after, by simp [hwords]⟩, hflag,
      prefix_escape_of_prefix hspace hend hunit⟩
  · rintro ⟨flag, file, gap, ⟨before, after, hwords⟩, hflag, hfile⟩
    refine ⟨before, flag, 0, (file, gap) :: after, by simp [← hwords], hflag, ?_⟩
    rw [List.replicate_zero, List.nil_append, written_cons]
    exact hfile.trans (List.prefix_append _ _)

/-! ### The flags of a unit -/

/-- How the flags of a unit that is nowhere on the disk are found in a log of such lines. -/
structure FlagsFound (start : Machine) (log : String) (lines : List SpacedLine) (unit : Path) :
    Prop where
  /-- They are those of the first line that shows the invocation. -/
  first : ∀ line, IsFirst (fun line : SpacedLine => Shows unit line.text) lines line →
    (Pipeline.flagsOf log unit : Task Simulation (List String)).run start =
      (.ok ((pick line.tokens).map String.ofList), start)
  /-- The search fails exactly if there is no such line. -/
  missing : (Pipeline.flagsOf log unit : Task Simulation (List String)).run start =
      (.error (.compileLineNotFound unit), start) ↔ ∀ line ∈ lines, ¬ Shows unit line.text
  /-- Whether a line shows the invocation is seen from its tokens. -/
  tokens : ∀ line ∈ lines, (Shows unit line.text ↔ Invokes unit line.words)
  /-- If the path has no spaces, it follows in the next token. -/
  next_token : unit.text ≠ "" → ' ' ∉ unit.text.toList → ∀ line ∈ lines,
    (Shows unit line.text ↔ ∃ flag file gap, [(flag, 1), (file, gap)] <:+: line.words ∧
      ['-', 'c'] <:+ flag.text ∧ unit.text.toList <+: escape file.text)

/-- A unit that is nowhere on the disk is looked for under its path as it is given. -/
theorem flagsOf_run_of_missing {start : Machine} {unit : Path} {cause : Cause}
    (h : start.tree.canonical start.directory unit = .error cause) (log : String) :
    (Pipeline.flagsOf log unit : Task Simulation (List String)).run start =
      (extract log unit, start) := by
  have hcanonical : (Host.canonical unit : Simulation (Except Cause Path)).run start =
      (start.tree.canonical start.directory unit, start) := rfl
  have hnormalize : (Files.normalize unit : Simulation Path).run start = (unit, start) := by
    rw [Files.normalize, StateT.run_bind, hcanonical, h]
    rfl
  have hlift : (liftM (Files.normalize unit : Simulation Path) : Task Simulation Path).run start =
      (.ok unit, start) := by
    have hfound : (Files.normalize unit : Simulation Path) start = (unit, start) := hnormalize
    rw [run_liftM, hfound]
  rw [Pipeline.flagsOf, run_bind_of_ok hlift]
  cases extract log unit <;> rfl

theorem invocation?_eq {log : String} {lines : List SpacedLine}
    (hlog : Text.lines log.toList = lines.map SpacedLine.text) (unit : Path) :
    invocation? log.toList unit =
      (lines.find? fun line => Text.occursIn (invocationMark unit) line.text).map
        SpacedLine.text := by
  rw [invocation?, hlog, List.find?_map]
  rfl

theorem flagsFound {start : Machine} {log : String} {lines : List SpacedLine} {unit : Path}
    {cause : Cause} (hlog : Text.lines log.toList = lines.map SpacedLine.text)
    (hmissing : start.tree.canonical start.directory unit = .error cause) :
    FlagsFound start log lines unit := by
  have hrun := flagsOf_run_of_missing hmissing log
  have hline := invocation?_eq hlog unit
  constructor
  case first =>
    intro line hfirst
    classical
    have hfind : (lines.find? fun line => Text.occursIn (invocationMark unit) line.text) =
        some line := by
      rw [← find?_eq_some_iff_isFirst] at hfirst
      simpa only [Shows, ← Text.occursIn_iff, Bool.decide_eq_true] using hfirst
    rw [hrun, extract, hline, hfind, Option.map_some, ← tokenize_text]
    rfl
  case missing =>
    rcases hfind : lines.find? fun line => Text.occursIn (invocationMark unit) line.text with
      _ | line <;> rw [hrun, extract, hline, hfind]
    · have hnone := List.find?_eq_none.mp hfind
      refine iff_of_true rfl fun line hmem hshows => hnone line hmem ?_
      exact Text.occursIn_iff.mpr hshows
    · have hshows := List.find?_some hfind
      refine iff_of_false (fun he => ?_) fun hnone => ?_
      · cases he
      · exact hnone line (List.mem_of_find?_eq_some hfind) (Text.occursIn_iff.mp hshows)
  case tokens => exact fun line _ => shows_text_iff unit line
  case next_token =>
    intro hne hspace line _
    rw [shows_text_iff]
    exact invokes_iff_of_no_space (by simpa using hne) hspace line

/-- An invocation with a number of spaces behind `-c`. -/
def paddedLine (gap : Nat) (hgap : 0 < gap) : SpacedLine where
  lead := 2
  words := [
    (⟨"clang".toList, by decide, by decide, by decide⟩, 1),
    (⟨"-c".toList, by decide, by decide, by decide⟩, gap),
    (⟨"/tmp/u.m".toList, by decide, by decide, by decide⟩, 1),
    (⟨"-Imy headers".toList, by decide, by decide, by decide⟩, 3),
    (⟨"-o".toList, by decide, by decide, by decide⟩, 1),
    (⟨"u.o".toList, by decide, by decide, by decide⟩, 0)]
  apart := by simp [hgap]

/-- A log with that line, for a number of spaces as they are written. -/
def paddedLog (spaces : String) : String :=
  "  clang -c" ++ spaces ++ "/tmp/u.m -Imy\\ headers   -o u.o\n"

/-- With one space behind `-c` the line is found, and the other gaps do not matter. -/
theorem flagsFound_of_paddedLine :
    Text.lines (paddedLog " ").toList = [paddedLine 1 Nat.one_pos].map SpacedLine.text ∧
    FileTree.empty.canonical [] ⟨"/tmp/u.m"⟩ = .error .noEntry ∧
    (Pipeline.flagsOf (paddedLog " ") ⟨"/tmp/u.m"⟩ : Task Simulation (List String)).run {} =
      (.ok ["-Imy headers"], {}) := by
  have hlog : Text.lines (paddedLog " ").toList =
      [paddedLine 1 Nat.one_pos].map SpacedLine.text := by decide
  have hmissing : FileTree.empty.canonical [] ⟨"/tmp/u.m"⟩ = .error .noEntry := by decide +kernel
  have hshows : Shows ⟨"/tmp/u.m"⟩ (paddedLine 1 Nat.one_pos).text :=
    Text.occursIn_iff.mp (by decide +kernel)
  have hfound : FlagsFound {} _ _ _ := flagsFound hlog hmissing
  exact ⟨hlog, hmissing, hfound.first _ ⟨[], [], rfl, hshows, by simp⟩⟩

/-- With two spaces behind `-c` the next token is the unit all the same, but the line is not found.
-/
theorem exists_invocation_not_found :
    Text.lines (paddedLog "  ").toList = [paddedLine 2 Nat.two_pos].map SpacedLine.text ∧
    FileTree.empty.canonical [] ⟨"/tmp/u.m"⟩ = .error .noEntry ∧
    ["-c".toList, "/tmp/u.m".toList] <:+: (paddedLine 2 Nat.two_pos).tokens ∧
    (Pipeline.flagsOf (paddedLog "  ") ⟨"/tmp/u.m"⟩ : Task Simulation (List String)).run {} =
      (.error (.compileLineNotFound ⟨"/tmp/u.m"⟩), {}) := by
  have hmissing : FileTree.empty.canonical [] ⟨"/tmp/u.m"⟩ = .error .noEntry := by decide +kernel
  have hextract : extract (paddedLog "  ") ⟨"/tmp/u.m"⟩ =
      .error (.compileLineNotFound ⟨"/tmp/u.m"⟩) := by decide +kernel
  have hrun := @flagsOf_run_of_missing {} _ _ hmissing (paddedLog "  ")
  refine ⟨by decide, hmissing, ⟨["clang".toList], _, rfl⟩, ?_⟩
  rw [hrun, hextract]

end BridgingHeader.CompilerFlags
