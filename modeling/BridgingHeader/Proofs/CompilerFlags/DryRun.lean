import BridgingHeader.Proofs.CompilerFlags.Invocation
import BridgingHeader.Proofs.Text.Lines

/-!
# Flags from what a dry run printed

The log of a dry run is what the tool wrote to its output, and right behind it what it wrote to its
errors. Each line that was printed is a line of the log as long as a line ends between the two.
Otherwise the last line of the output goes on with the first line of the errors.
-/

namespace BridgingHeader.CompilerFlags

open Text (lines Parted filled)
open Text.Utf8 (decodeLossy)

/-- Makes a dry run and picks the flags of a unit out of its log. -/
def dryRunFlags (tool project : Path) (target : String) (options : BuildTool.DryRunOptions)
    (unit : Path) : Task Simulation (List String) := do
  Pipeline.flagsOf (← BuildTool.dryRunLog tool project target options) unit

/-- The lines of both streams, those of the output first. -/
def printedLines (outcome : Outcome) : List (List Char) :=
  lines (decodeLossy outcome.stdout).toList ++ lines (decodeLossy outcome.stderr).toList

/-- No line that is left empty shows an invocation. -/
theorem find?_filled (unit : Path) (list : List (List Char)) :
    (filled list).find? (Text.occursIn (invocationMark unit)) =
      list.find? (Text.occursIn (invocationMark unit)) := by
  have hempty : Text.occursIn (invocationMark unit) [] = false := rfl
  induction list with
  | nil => rfl
  | cons line more ih =>
      by_cases hline : line = []
      · rw [hline, Text.filled_cons_nil, List.find?_cons, hempty, ih]
      · have hfilled : filled (line :: more) = line :: filled more := by simp [filled, hline]
        rw [hfilled, List.find?_cons, List.find?_cons, ih]

/-- In a log whose texts are parted, the invocation is looked for on the lines of both. -/
theorem invocation?_append {first second : List Char} (h : Parted first second) (unit : Path) :
    invocation? (first ++ second) unit =
      (lines first ++ lines second).find? (Text.occursIn (invocationMark unit)) := by
  calc invocation? (first ++ second) unit
      = (filled (lines (first ++ second))).find? (Text.occursIn (invocationMark unit)) := by
        rw [find?_filled, invocation?]
    _ = (lines first ++ lines second).find? (Text.occursIn (invocationMark unit)) := by
        rw [Text.filled_lines_of_parted h, find?_filled]

section Run

variable {start after : Machine} {tool project unit : Path} {target : String}
  {options : BuildTool.DryRunOptions} {outcome : Outcome} {cause : Cause}

/-- A dry run that exits with 0 gives both streams as one text. -/
theorem dryRunLog_run
    (hrun : start.run (BuildTool.dryRun tool project target options) = (.ok outcome, after))
    (hcode : outcome.code = some 0) :
    (BuildTool.dryRunLog tool project target options : Task Simulation String).run start =
      (.ok (decodeLossy outcome.stdout ++ decodeLossy outcome.stderr), after) := by
  have hhost : (Host.run (BuildTool.dryRun tool project target options) :
      Simulation (Except Cause Outcome)) start = (.ok outcome, after) := hrun
  have hexecute : ((BuildTool.dryRun tool project target options).execute :
      Task Simulation Outcome).run start = (.ok outcome, after) := by
    have hlift := run_liftM (ε := Failure)
      (Host.run (BuildTool.dryRun tool project target options) : Simulation _) start
    rw [hhost] at hlift
    rw [Command.execute, run_bind_of_ok hlift]
    rfl
  have hchecked : ((BuildTool.dryRun tool project target options).executeChecked :
      Task Simulation Outcome).run start = (.ok outcome, after) := by
    have hsucceeded : outcome.succeeded = true := decide_eq_true hcode
    rw [Command.executeChecked, run_bind_of_ok hexecute, if_pos hsucceeded]
    rfl
  rw [BuildTool.dryRunLog, run_bind_of_ok hchecked]
  rfl

/-- How the flags of a unit follow from what a dry run printed. -/
structure FlagsPrinted (run : Except Failure (List String) × Machine) (after : Machine)
    (outcome : Outcome) (unit : Path) : Prop where
  /-- They are those of the first printed line that shows the invocation. -/
  first : ∀ line, IsFirst (Shows unit) (printedLines outcome) line →
    run = (.ok ((ofLine line).map String.ofList), after)
  /-- The search fails exactly if no line of either stream does. -/
  missing : run = (.error (.compileLineNotFound unit), after) ↔
    ∀ line ∈ printedLines outcome, ¬ Shows unit line

/-- The flags of a unit that is nowhere on the disk come from one printed line, if a line ends where
the output ends and the errors begin. -/
theorem flags_of_dryRun
    (hrun : start.run (BuildTool.dryRun tool project target options) = (.ok outcome, after))
    (hcode : outcome.code = some 0)
    (hmissing : after.tree.canonical after.directory unit = .error cause)
    (hparted : Parted (decodeLossy outcome.stdout).toList (decodeLossy outcome.stderr).toList) :
    FlagsPrinted ((dryRunFlags tool project target options unit).run start) after outcome unit := by
  have hflags : (dryRunFlags tool project target options unit).run start =
      (extract (decodeLossy outcome.stdout ++ decodeLossy outcome.stderr) unit, after) := by
    rw [dryRunFlags, run_bind_of_ok (dryRunLog_run hrun hcode), flagsOf_run_of_missing hmissing]
  have hline : invocation? (decodeLossy outcome.stdout ++ decodeLossy outcome.stderr).toList unit =
      (printedLines outcome).find? (Text.occursIn (invocationMark unit)) := by
    rw [String.toList_append, invocation?_append hparted]
    rfl
  constructor
  case first =>
    intro line hfirst
    classical
    have hfind : (printedLines outcome).find? (Text.occursIn (invocationMark unit)) =
        some line := by
      rw [← find?_eq_some_iff_isFirst] at hfirst
      simpa only [Shows, ← Text.occursIn_iff, Bool.decide_eq_true] using hfirst
    rw [hflags, extract, hline, hfind]
    rfl
  case missing =>
    rw [hflags, extract, hline]
    cases hfind : (printedLines outcome).find? (Text.occursIn (invocationMark unit)) with
    | none =>
        have hnone := List.find?_eq_none.mp hfind
        refine iff_of_true rfl fun line hmem hshows => hnone line hmem ?_
        exact Text.occursIn_iff.mpr hshows
    | some line =>
        have hshows := List.find?_some hfind
        refine iff_of_false (fun hfailed => ?_) fun hnone => ?_
        · cases hfailed
        · exact hnone line (List.mem_of_find?_eq_some hfind) (Text.occursIn_iff.mp hshows)

end Run

/-! ### Two streams of a tool -/

/-- A machine with a tool that prints a text on each stream and exits with 0. -/
def printing (stdout stderr : String) : Machine where
  tree := .directory {} [("xcodebuild", .file {} .empty)]
  programs _ := some
    { name := "xcodebuild"
      run _ tree := (tree, ⟨some 0, stdout.toUTF8, stderr.toUTF8⟩) }

/-- The dry run for which that tool is asked. -/
def cleanBuild : Command := BuildTool.dryRun ⟨"/xcodebuild"⟩ ⟨"/App.xcodeproj"⟩ "App" {}

/-- The search for the flags of a unit, with the machine that it leaves. -/
def flagsPrinting (stdout stderr : String) : Except Failure (List String) × Machine :=
  (dryRunFlags ⟨"/xcodebuild"⟩ ⟨"/App.xcodeproj"⟩ "App" {} ⟨"/tmp/u.m"⟩).run
    (printing stdout stderr)

/-- An invocation, without the end of its line. -/
def compileLine : String := "clang -c /tmp/u.m -arch arm64"

theorem run_printing (stdout stderr : String) :
    (printing stdout stderr).run cleanBuild =
      (.ok ⟨some 0, stdout.toUTF8, stderr.toUTF8⟩, ((printing stdout stderr).run cleanBuild).2) := rfl

theorem canonical_printing (stdout stderr : String) :
    let after := ((printing stdout stderr).run cleanBuild).2
    after.tree.canonical after.directory ⟨"/tmp/u.m"⟩ = .error .noEntry := rfl

theorem shows_compileLine : Shows ⟨"/tmp/u.m"⟩ compileLine.toList :=
  Text.occursIn_iff.mp (by decide +kernel)

/-- The output is not ended, but the errors begin with a line feed. -/
theorem flags_of_dryRun_of_compileLine :
    Parted compileLine.toList "\nwarning: no target\n".toList ∧
    (flagsPrinting compileLine "\nwarning: no target\n").1 = .ok ["-arch", "arm64"] := by
  have hparted : Parted compileLine.toList "\nwarning: no target\n".toList :=
    .inr (.inr (.inr (.inl (by decide))))
  have hstdout : decodeLossy compileLine.toUTF8 = compileLine := by decide +kernel
  have hstderr : decodeLossy "\nwarning: no target\n".toUTF8 = "\nwarning: no target\n" := by
    decide +kernel
  have hlines : printedLines
      ⟨some 0, compileLine.toUTF8, "\nwarning: no target\n".toUTF8⟩ =
        [compileLine.toList, [], "warning: no target".toList] := by
    rw [printedLines, hstdout, hstderr]
    decide
  have hfound := flags_of_dryRun (run_printing compileLine "\nwarning: no target\n") rfl
    (canonical_printing compileLine "\nwarning: no target\n")
    (by rw [hstdout, hstderr]; exact hparted)
  refine ⟨hparted, congrArg Prod.fst (hfound.first compileLine.toList ?_)⟩
  rw [hlines]
  exact ⟨[], _, rfl, shows_compileLine, by simp⟩

/-- Without that line feed the first line of the errors goes on where the output has stopped, and the
flags come from a line that neither stream holds. -/
theorem exists_flags_of_unprinted_line : ∃ line outcome,
    ((printing compileLine "warning: no target\n").run cleanBuild).1 = .ok outcome ∧
    outcome.code = some 0 ∧ IsFirst (Shows ⟨"/tmp/u.m"⟩) (printedLines outcome) line ∧
    (ofLine line).map String.ofList = ["-arch", "arm64"] ∧
    (flagsPrinting compileLine "warning: no target\n").1 = .ok ["-arch", "arm64warning:"] := by
  have hlines : printedLines ⟨some 0, compileLine.toUTF8, "warning: no target\n".toUTF8⟩ =
      [compileLine.toList, "warning: no target".toList] := by
    decide +kernel
  refine ⟨compileLine.toList, _, congrArg Prod.fst (run_printing _ _), rfl, ?_, by decide +kernel,
    by decide +kernel⟩
  rw [hlines]
  exact ⟨[], _, rfl, shows_compileLine, by simp⟩

end BridgingHeader.CompilerFlags
