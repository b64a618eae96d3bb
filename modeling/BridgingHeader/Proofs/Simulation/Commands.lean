import BridgingHeader.Generation
import BridgingHeader.Proofs.Simulation.Workplace

/-!
# Commands and services on a machine

A machine answers a command by one of its programs or not at all. What leaves the files alone keeps
a workplace tidy, and so does what is made of answers to commands that leave the files alone.
-/

namespace BridgingHeader

open FileTree (Changed IsName placeOf removedPlace)

/-! ### Programs -/

namespace Machine

variable {machine : Machine} {directory : Place}

theorem exists_contents_of_programAt {arguments : List String} {files : Nat} {path : Path}
    {start : Start} (h : machine.programAt directory arguments files path = .ok start) :
    ∃ contents, machine.programs contents = some start.program := by
  induction files generalizing arguments path with
  | zero => cases h
  | succ files ih =>
    rw [programAt] at h
    obtain ⟨found, -, h⟩ := bind_eq_ok_iff.mp h
    split at h
    · next permissions contents =>
      replace h := (of_guard_eq_ok h).2
      split at h
      · next program hprogram =>
        split at h
        · cases h
        · cases h
          exact ⟨contents, hprogram⟩
      · cases h
      · exact ih (of_guard_eq_ok h).2
    · cases h

theorem exists_contents_of_firstProgram {arguments : List String} {permitted : Bool}
    {paths : List Path} {start : Start}
    (h : machine.firstProgram directory arguments permitted paths = .ok start) :
    ∃ contents, machine.programs contents = some start.program := by
  induction paths generalizing permitted with
  | nil => cases h
  | cons path rest ih =>
    rw [firstProgram] at h
    split at h
    · next found hfound =>
      cases h
      exact exists_contents_of_programAt hfound
    · exact ih h
    · exact ih h
    · exact ih h
    · cases h

/-- Running a command does nothing, or it is the work of one of the programs. -/
theorem run_cases (machine : Machine) (command : Command) :
    (machine.run command).2 = machine ∨
      ∃ contents program invocation, machine.programs contents = some program ∧
        (machine.run command).2 =
          { machine.withTree (program.run invocation machine.tree).1 with
            log := machine.log ++ [.ran program.name invocation] } := by
  rw [run]
  split
  · exact .inl rfl
  dsimp only
  split
  · exact .inl rfl
  · next directory start hstart =>
    obtain ⟨place, -, hstart⟩ := bind_eq_ok_iff.mp hstart
    obtain ⟨start', hprogram, hstart⟩ := bind_eq_ok_iff.mp hstart
    cases hstart
    have hcontents : ∃ contents, machine.programs contents = some start.program := by
      rw [programFor] at hprogram
      split at hprogram
      · cases hprogram
      split at hprogram
      · exact exists_contents_of_programAt hprogram
      · exact exists_contents_of_firstProgram hprogram
    obtain ⟨contents, hcontents⟩ := hcontents
    exact .inr ⟨contents, start.program, _, hcontents, rfl⟩

end Machine

/-! ### What leaves the files alone -/

/-- All files are left alone, and what else matters to a run. It may be noticed that the working
directory is gone. -/
structure Quiet (machine after : Machine) : Prop where
  tree : after.tree = machine.tree
  directory : after.directory = machine.directory ∨
    after.directory = (machine.withTree machine.tree).directory
  held : after.held = machine.held
  programs : after.programs = machine.programs
  environment : after.environment = machine.environment
  stdout : after.stdout = machine.stdout

/-- A status line is told on the error stream. -/
theorem exists_stderr_of_tell (shell : Shell) (status : Status) (text : String)
    (machine : Machine) :
    ∃ stderr, ((shell.tell status text : Simulation Unit) machine).2 = { machine with stderr } := by
  unfold Shell.tell
  cases shell.line? status text with
  | some line => exact ⟨_, rfl⟩
  | none => exact ⟨machine.stderr, rfl⟩

namespace Quiet

variable {machine : Machine}

theorem refl (machine : Machine) : Quiet machine machine := ⟨rfl, .inl rfl, rfl, rfl, rfl, rfl⟩

theorem tell (shell : Shell) (status : Status) (text : String) (machine : Machine) :
    Quiet machine ((shell.tell status text : Simulation Unit) machine).2 := by
  obtain ⟨stderr, htold⟩ := exists_stderr_of_tell shell status text machine
  rw [htold]
  exact ⟨rfl, .inl rfl, rfl, rfl, rfl, rfl⟩

theorem random (bound : Nat) (machine : Machine) :
    Quiet machine ((Host.random bound : Simulation Nat) machine).2 :=
  ⟨rfl, .inl rfl, rfl, rfl, rfl, rfl⟩

/-- A command that leaves the tree as it was. -/
theorem run {command : Command} (h : (machine.run command).2.tree = machine.tree) :
    Quiet machine (machine.run command).2 := by
  rcases machine.run_cases command with hsame | ⟨contents, program, invocation, -, hran⟩
  · rw [hsame]
    exact refl machine
  · rw [hran] at h ⊢
    refine ⟨h, .inr ?_, rfl, rfl, rfl, rfl⟩
    change (machine.withTree (program.run invocation machine.tree).1).directory = _
    rw [show (program.run invocation machine.tree).1 = machine.tree from h]

end Quiet

namespace Tidy

variable {start machine after : Machine} {base : Path} {names all : List String} {name : String}

theorem of_quiet (h : Tidy start base names machine)
    (hquiet : Quiet machine after) : Tidy start base names after where
  plain := by rw [hquiet.tree]; exact h.plain
  clearable := by rw [hquiet.tree]; exact h.clearable
  free := by rw [hquiet.held]; exact h.free
  programs := hquiet.programs.trans h.programs
  environment := hquiet.environment.trans h.environment
  stdout := hquiet.stdout.trans h.stdout
  directory := by
    rcases hquiet.directory with hdirectory | hdirectory
    · rw [hdirectory]
      exact h.directory
    · rw [hdirectory]
      exact h.directory_withTree machine.tree
  nodes := by rw [hquiet.tree]; exact h.nodes

theorem preserves_of_quiet {α : Type} {work : Simulation α}
    (h : ∀ machine, Tidy start base names machine → Quiet machine (work machine).2) :
    Preserves (Tidy start base names) work :=
  fun machine htidy => htidy.of_quiet (h machine htidy)

theorem tell (shell : Shell) (status : Status) (text : String) :
    Preserves (Tidy start base names) (shell.tell status text : Simulation Unit) :=
  preserves_of_quiet fun machine _ => .tell shell status text machine

/-- A command that writes a file under a tracked name, at most. -/
theorem run_of_write (hsite : Site start base all) (hsub : ∀ name ∈ names, name ∈ all)
    (hname : name ∈ names) {command : Command} (h : Tidy start base names machine)
    (hwrite : (machine.run command).2.tree = machine.tree ∨ ∃ contents,
      machine.tree.write machine.directory (base.join ⟨name⟩) contents =
        .ok (machine.run command).2.tree) : Tidy start base names (machine.run command).2 := by
  rcases hwrite with hsame | ⟨written, hwrite⟩
  · exact h.of_quiet (.run hsame)
  rcases machine.run_cases command with hsame | ⟨contents, program, invocation, -, hran⟩
  · rw [hsame]
    exact h
  · rw [hran] at hwrite ⊢
    have hchanged := FileTree.write_changed h.plain hwrite
    have hwritten := (bears hsite hsub hname).withTree machine _ [] h
      (by rw [List.append_nil]; exact hchanged)
    exact hwritten.of_quiet ⟨rfl, .inl rfl, rfl, rfl, rfl, rfl⟩

theorem writeText (hsite : Site start base all) (hsub : ∀ name ∈ names, name ∈ all)
    (hname : name ∈ names) (text : String) : Preserves (Tidy start base names)
      (Files.writeText (base.join ⟨name⟩) text : Task Simulation Unit).run :=
  .run_bind (.ensureParent_of_hasWay (hsite.isName name (hsub name hname)) fun _ h =>
    ⟨h.plain, h.way hsite hsub⟩) fun _ =>
    .run_at ((bears hsite hsub hname).writeFile (.inl rfl) _)

end Tidy

/-! ### What is made of answers -/

namespace Preserves

variable {I : Machine → Prop}

theorem executeChecked {command : Command}
    (h : Preserves I (Host.run command : Simulation (Except Cause Outcome))) :
    Preserves I (command.executeChecked : Task Simulation Outcome).run := by
  have hexecute : Preserves I (command.execute : Task Simulation Outcome).run := by
    refine .run_bind h.liftM fun result => ?_
    split
    · exact .pure _
    · exact .throw _
    · exact .throw _
  refine .run_bind hexecute fun outcome => ?_
  split
  · exact .pure _
  · exact .throw _

theorem output {command : Command}
    (h : Preserves I (Host.run command : Simulation (Except Cause Outcome))) :
    Preserves I (command.output : Task Simulation String).run :=
  .run_bind h.executeChecked fun _ => .pure _

theorem ofExcept {ε α : Type} (result : Except ε α) :
    Preserves I (MonadExcept.ofExcept result : ExceptT ε Simulation α).run := by
  cases result with
  | ok a => exact .pure _
  | error e => exact .throw e

theorem readSetting {tool project : Path} {target : String} (key : String)
    (h : Preserves I (Host.run (BuildTool.showSettings tool project target) :
      Simulation (Except Cause Outcome))) :
    Preserves I (BuildTool.readSetting tool project target key : Task Simulation String).run := by
  refine .run_bind (.load project) fun found => ?_
  have hasked : Preserves I (do
      let dump ← (BuildTool.showSettings tool project target).output
      MonadExcept.ofExcept (BuildSettings.find dump key) : Task Simulation String).run :=
    .run_bind h.output fun _ => .ofExcept _
  dsimp only
  split
  · exact .run_bind (.throw _) fun _ => hasked
  · exact hasked

theorem tellDuration {shell : Shell} (status : Status) (started : Nat)
    (htell : ∀ status text, Preserves I (shell.tell status text : Simulation Unit)) :
    Preserves I (shell.tellDuration status started : Simulation Unit) := by
  refine .bind (.of_reads fun _ => rfl) fun finished => ?_
  split
  · exact htell _ _
  · exact .pure _

end Preserves

end BridgingHeader
