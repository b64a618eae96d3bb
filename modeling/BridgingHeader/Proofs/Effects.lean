import BridgingHeader.Execution
import BridgingHeader.Patch
import BridgingHeader.Proofs.Outcomes

/-!
# Effects of success

What a task has done once it succeeds, told by the answers of its host. These statements are exact: a
task succeeds if and only if the services on which it relies do, one after the other.
-/

namespace BridgingHeader

variable {σ α : Type} {s s' : σ}

/-- A task inside work is run as it is, and its failure is reported. -/
theorem run_toWork_within (context : String) (task : Task (StateM σ) α) (s : σ) :
    (task.toWork.within context).run s =
      ((task.run s).1.mapError fun failure => (Report.ofFailure failure).within context,
        (task.run s).2) := by
  have hrun : (task.toWork.within context).run s =
      (((task.run s).1.mapError Report.ofFailure).mapError (·.within context),
        (task.run s).2) := rfl
  rw [hrun]
  cases (task.run s).1 <;> rfl

/-- A task inside work succeeds if it does on its own. -/
theorem run_within_eq_ok_iff {context : String} {task : Task (StateM σ) α} {a : α} :
    (task.toWork.within context).run s = (.ok a, s') ↔ task.run s = (.ok a, s') := by
  rw [run_toWork_within]
  rcases task.run s with ⟨failure | b, left⟩
  · constructor <;> intro h <;> cases h
  · constructor <;> intro h <;> cases h <;> rfl

/-- A service whose cause is laid to a path succeeds if it does on its own. -/
theorem run_at_eq_ok_iff {path : Path} {service : StateM σ (Except Cause α)} {a : α} :
    (Task.at path service).run s = (.ok a, s') ↔ service s = (.ok a, s') := by
  have hrun : (Task.at path service).run s =
      ((service s).1.mapError (Failure.io path), (service s).2) := rfl
  rw [hrun]
  rcases service s with ⟨cause | b, left⟩
  · constructor <;> intro h <;> cases h
  · constructor <;> intro h <;> cases h <;> rfl

variable [Host (StateM σ)]

namespace Command

/-- A command that must succeed does so if it is run and ends with the exit code zero. -/
theorem run_executeChecked_eq_ok_iff {c : Command} {out : Outcome} :
    (c.executeChecked : Task (StateM σ) Outcome).run s = (.ok out, s') ↔
      (Host.run c : StateM σ _) s = (.ok out, s') ∧ out.code = some 0 := by
  have hexecute (found : Outcome) (between : σ) :
      (c.execute : Task (StateM σ) Outcome).run s = (.ok found, between) ↔
        (Host.run c : StateM σ _) s = (.ok found, between) := by
    rw [execute, run_bind_eq_ok_iff]
    constructor
    · rintro ⟨result, left, hrun, hresult⟩
      cases hrun
      split at hresult <;> cases hresult
      exact Prod.ext ‹_› rfl
    · intro hrun
      refine ⟨.ok found, between, ?_, rfl⟩
      rw [run_liftM, hrun]
  rw [executeChecked, run_bind_eq_ok_iff]
  constructor
  · rintro ⟨found, between, hfound, hchecked⟩
    split at hchecked
    · next hsucceeded =>
      cases hchecked
      exact ⟨(hexecute _ _).mp hfound, of_decide_eq_true hsucceeded⟩
    · cases hchecked
  · rintro ⟨hrun, hcode⟩
    refine ⟨out, s', (hexecute _ _).mpr hrun, ?_⟩
    have hsucceeded : out.succeeded = true := decide_eq_true hcode
    rw [if_pos hsucceeded]
    rfl

theorem run_output_eq_ok_iff {c : Command} {text : String} :
    (c.output : Task (StateM σ) String).run s = (.ok text, s') ↔ ∃ out,
      (Host.run c : StateM σ _) s = (.ok out, s') ∧ out.code = some 0 ∧
        text = Text.Utf8.decodeLossy out.stdout := by
  simp only [output, run_bind_eq_ok_iff, run_executeChecked_eq_ok_iff]
  constructor
  · rintro ⟨out, _, ⟨hrun, hcode⟩, hend⟩
    cases hend
    exact ⟨out, hrun, hcode, rfl⟩
  · rintro ⟨out, hrun, hcode, rfl⟩
    exact ⟨out, s', ⟨hrun, hcode⟩, rfl⟩

end Command

/-! ### Files -/

namespace Files

variable {path : Path} {text : String}

/-- A text was read from a file. -/
def HasRead (path : Path) (text : String) (s s' : σ) : Prop :=
  ∃ contents, (Host.readFile path : StateM σ _) s = (.ok contents, s') ∧
    String.fromUTF8? contents = some text

/-- A text was written to a file, in a directory that was made if necessary. -/
def HasWritten (path : Path) (text : String) (s s' : σ) : Prop :=
  ∃ made, (ensureParent path : Task (StateM σ) Unit).run s = (.ok (), made) ∧
    (Host.writeFile path text.toUTF8 : StateM σ _) made = (.ok (), s')

theorem run_readText_eq_ok_iff :
    (readText path : Task (StateM σ) String).run s = (.ok text, s') ↔ HasRead path text s s' := by
  rw [readText, run_bind_eq_ok_iff]
  simp only [run_at_eq_ok_iff]
  constructor
  · rintro ⟨contents, between, hread, htext⟩
    split at htext <;> cases htext
    exact ⟨contents, hread, ‹_›⟩
  · rintro ⟨contents, hread, htext⟩
    refine ⟨contents, s', hread, ?_⟩
    rw [htext]
    rfl

theorem run_writeText_eq_ok_iff :
    (writeText path text : Task (StateM σ) Unit).run s = (.ok (), s') ↔
      HasWritten path text s s' := by
  rw [writeText, run_bind_eq_ok_iff]
  simp only [run_at_eq_ok_iff]
  constructor
  · rintro ⟨⟨⟩, made, hmade, hwrite⟩
    exact ⟨made, hmade, hwrite⟩
  · rintro ⟨made, hmade, hwrite⟩
    exact ⟨(), made, hmade, hwrite⟩

end Files

/-! ### Projects -/

namespace Project

variable {bundle source target : Path} {digest : Digest} {name : String} {file : FileReference}

/-- A project was read from the descriptor of a bundle. -/
def HasLoaded (bundle : Path) (p : Project) (s s' : σ) : Prop :=
  ∃ text, Files.HasRead (descriptorOf bundle) text s s' ∧ parse text = .ok p

theorem run_load_eq_ok_iff {p : Project} :
    (load bundle : Task (StateM σ) Project).run s = (.ok p, s') ↔ HasLoaded bundle p s s' := by
  simp only [load, run_bind_eq_ok_iff, Files.run_readText_eq_ok_iff]
  constructor
  · rintro ⟨text, _, hread, hparse⟩
    split at hparse <;> cases hparse
    exact ⟨text, hread, ‹_›⟩
  · rintro ⟨text, hread, hparse⟩
    refine ⟨text, s', hread, ?_⟩
    rw [hparse]
    rfl

/-- A project was written into a bundle, which was made if necessary. -/
def HasSaved (p : Project) (bundle : Path) (s s' : σ) : Prop :=
  ∃ made, (Files.ensureDirectory bundle : Task (StateM σ) Unit).run s = (.ok (), made) ∧
    Files.HasWritten (descriptorOf bundle) p.print made s'

theorem run_save_eq_ok_iff {p : Project} {path : Path} :
    (save p bundle : Task (StateM σ) Path).run s = (.ok path, s') ↔
      HasSaved p bundle s s' ∧ path = descriptorOf bundle := by
  simp only [save, run_bind_eq_ok_iff]
  constructor
  · rintro ⟨⟨⟩, made, hmade, ⟨⟩, written, hwritten, hpath⟩
    cases hpath
    exact ⟨⟨made, hmade, Files.run_writeText_eq_ok_iff.mp hwritten⟩, rfl⟩
  · rintro ⟨⟨made, hmade, hwritten⟩, rfl⟩
    exact ⟨(), made, hmade, (), s', Files.run_writeText_eq_ok_iff.mpr hwritten, rfl⟩

/-- Whatever was at the target was removed, and a bundle was copied there. -/
def HasReplaced (source target : Path) (s s' : σ) : Prop :=
  ∃ removed, (Files.removeIfPresent target : Task (StateM σ) Unit).run s = (.ok (), removed) ∧
    (Files.copyAll source target : Task (StateM σ) Unit).run removed = (.ok (), s')

theorem run_clone_eq_ok_iff :
    (clone source target : Work (StateM σ) Unit).run s = (.ok (), s') ↔
      HasReplaced source target s s' := by
  rw [clone, run_within_eq_ok_iff, run_bind_eq_ok_iff]
  simp only [bind_pure]
  constructor
  · rintro ⟨⟨⟩, removed, hremoved, hcopied⟩
    exact ⟨removed, hremoved, hcopied⟩
  · rintro ⟨removed, hremoved, hcopied⟩
    exact ⟨(), removed, hremoved, hcopied⟩

/-- The project in one bundle was read, a file was added to a target of it, and the result was
written into another bundle or the same. -/
def HasRegistered (digest : Digest) (source : Path) (name : String) (file : FileReference)
    (target : Path) (added : AddedSource) (s s' : σ) : Prop :=
  ∃ project changed loaded, HasLoaded source project s loaded ∧
    (addSource digest name file).run.run project = (.ok added, changed) ∧
    HasSaved changed target loaded s'

theorem run_registerSource_eq_ok_iff {added : AddedSource} :
    (registerSource digest source name file target : Work (StateM σ) AddedSource).run s =
        (.ok added, s') ↔ HasRegistered digest source name file target added s s' := by
  rw [registerSource, run_bind_eq_ok_iff]
  simp only [run_within_eq_ok_iff, run_load_eq_ok_iff, HasRegistered]
  refine exists_congr fun project => ?_
  rcases (addSource digest name file).run.run project with ⟨failure | found, changed⟩
  · constructor
    · rintro ⟨loaded, -, h⟩
      cases h
    · rintro ⟨_, loaded, -, h, -⟩
      cases h
  · simp only [run_bind_eq_ok_iff, run_within_eq_ok_iff, run_save_eq_ok_iff]
    constructor
    · rintro ⟨loaded, hload, path, saved, ⟨hsaved, -⟩, hend⟩
      cases hend
      exact ⟨changed, loaded, hload, rfl, hsaved⟩
    · rintro ⟨_, loaded, hload, hadd, hsaved⟩
      cases hadd
      exact ⟨loaded, hload, _, s', ⟨hsaved, rfl⟩, rfl⟩

end Project

end BridgingHeader
