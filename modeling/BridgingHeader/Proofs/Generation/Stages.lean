import BridgingHeader.Generation
import BridgingHeader.Proofs.Effects
import BridgingHeader.Proofs.Tracking

/-!
# The stages of a run

Before each of its external calls a run has brought something about: the clone is there and has the
target, the unit is part of the clone, its flags are known, and the header is preprocessed. Each of
these stages is told by what the services of the host have answered on the way, and the run comes to
it if and only if they have.
-/

namespace BridgingHeader.Pipeline

open Temporaries (Tracking)
open Temporaries.Tracking

/-! ### What has been brought about -/

section Stages

variable {σ : Type} [Host (StateM σ)] (p : Pipeline (StateM σ)) (digest : Digest)
  (options : GenerateOptions) (workspace : Workspace)

/-- The host once a status line was told. -/
def told (status : Status) (text : String) (s : σ) : σ :=
  ((p.shell.tell status text : StateM σ Unit) s).2

/-- The time at which the dry run is announced, and the host by then. -/
def timed (s : σ) : Nat × σ :=
  (Host.clock : StateM σ Nat) (p.told .building s!"`{options.target}` (dry run)" s)

/-- The project was cloned, and the clone has the target. -/
inductive HasCloned (s : σ) : σ → Prop
  | intro {cloned loaded : σ} {project : Project}
    (hclone : Project.HasReplaced options.project workspace.clone
      (p.told .cloning s!"{options.project.text} to {workspace.clone.text}" s) cloned)
    (hload : Project.HasLoaded workspace.clone project
      (p.told .reading s!"bridging header of `{options.target}`" cloned) loaded)
    (htarget : (project.findTarget? options.target).isSome) : HasCloned s loaded

/-- The build settings have shown the path of the bridging header. A unit that imports it was
written, and it was added to the target in the descriptor of the clone. -/
inductive HasAddedUnit (s : σ) : σ → Prop
  | intro {cloned answered written registered : σ} {out : Outcome} {header : String}
    {added : Project.AddedSource}
    (hcloned : HasCloned p options workspace s cloned)
    (hsettings : (Host.run (BuildTool.showSettings p.buildTool workspace.clone options.target) :
      StateM σ _) cloned = (.ok out, answered))
    (hcode : out.code = some 0)
    (hheader : BuildSettings.find (Text.Utf8.decodeLossy out.stdout)
      BuildSettings.bridgingHeaderKey = .ok header)
    (hunit : Files.HasWritten workspace.unit (ImportUnit.importing header) answered written)
    (hregistered : Project.HasRegistered digest workspace.clone options.target
      (.ofPath ((workspace.unit.fileName?.map Path.mk).getD workspace.unit)) workspace.clone added
      (p.told .patching s!"{workspace.clone.text} into `{options.target}`" written) registered) :
    HasAddedUnit s registered

/-- The log of the dry run has shown the flags of the unit. -/
inductive HasFoundFlags (s : σ) : List String → σ → Prop
  | intro {registered answered found : σ} {out : Outcome} {unit : Path} {flags : List String}
    (hadded : HasAddedUnit p digest options workspace s registered)
    (hdryRun : (Host.run (BuildTool.dryRun p.buildTool workspace.clone options.target
      options.dryRun) : StateM σ _) (p.timed options registered).2 = (.ok out, answered))
    (hcode : out.code = some 0)
    (hunit : (Files.normalize workspace.unit : StateM σ Path)
      ((p.shell.tellDuration .building (p.timed options registered).1 : StateM σ Unit) answered).2 =
        (unit, found))
    (hflags : CompilerFlags.extract
      (Text.Utf8.decodeLossy out.stdout ++ Text.Utf8.decodeLossy out.stderr) unit = .ok flags) :
    HasFoundFlags s flags found

/-- If it is to be nonnull by default, the header was read and written again between the marks. -/
def HasRewritten (s s' : σ) : Prop :=
  if options.assumeNonnull then ∃ source read, Files.HasRead workspace.header source s read ∧
    Files.HasWritten workspace.header (ImportUnit.assumeNonnull source options.umbrella) read s'
  else s' = s

/-- The unit was preprocessed with its flags, and the header was rewritten on demand. -/
inductive HasPreprocessed (s : σ) : List String → σ → Prop
  | intro {found answered rewritten : σ} {out : Outcome} {flags : List String}
    (hfound : HasFoundFlags p digest options workspace s flags found)
    (hpreprocessor : (Host.run (Preprocessor.command p.preprocessor workspace.unit
      workspace.header flags) : StateM σ _) (p.told .preprocessing workspace.unit.text found) =
        (.ok out, answered))
    (hcode : out.code = some 0)
    (hrewritten : HasRewritten options workspace answered rewritten) :
    HasPreprocessed s flags rewritten

end Stages

/-! ### The way to each stage -/

section Ways

variable {m : Type → Type} [Monad m] [Host m]

/-- Everything up to the clone of the project. -/
def untilCloned (p : Pipeline m) (options : GenerateOptions) (workspace : Workspace) :
    Tracking m Unit := do
  p.cloneProject options workspace
  ofWork (p.shell.tell .reading s!"bridging header of `{options.target}`" : m Unit)

/-- Everything up to the target of the clone, which must be there. -/
def untilTarget (p : Pipeline m) (options : GenerateOptions) (workspace : Workspace) :
    Tracking m Unit := do
  p.untilCloned options workspace
  ofWork ((do
    let project ← Project.load workspace.clone
    if (project.findTarget? options.target).isNone then throw (.targetNotFound options.target)
    : Task m Unit).toWork.within
    s!"cannot read {BuildSettings.bridgingHeaderKey} of target `{options.target}`")

/-- Asks for the path of the bridging header. -/
def askHeaderPath (p : Pipeline m) (options : GenerateOptions) (workspace : Workspace) :
    Tracking m String :=
  ofWork ((do
    let dump ← (BuildTool.showSettings p.buildTool workspace.clone options.target).output
    MonadExcept.ofExcept (BuildSettings.find dump BuildSettings.bridgingHeaderKey)
    : Task m String).toWork.within
    s!"cannot read {BuildSettings.bridgingHeaderKey} of target `{options.target}`")

/-- Everything up to the path of the bridging header. -/
def untilHeader (p : Pipeline m) (options : GenerateOptions) (workspace : Workspace) :
    Tracking m String := do
  p.untilCloned options workspace
  ofWork ((BuildTool.readSetting p.buildTool workspace.clone options.target
    BuildSettings.bridgingHeaderKey).toWork.within
    s!"cannot read {BuildSettings.bridgingHeaderKey} of target `{options.target}`")

/-- Everything up to the unit that is made part of the clone. -/
def untilUnit (p : Pipeline m) (digest : Digest) (options : GenerateOptions)
    (workspace : Workspace) : Tracking m Unit := do
  let header ← p.untilHeader options workspace
  p.addUnit digest options.target header workspace

/-- Everything up to the flags of the unit. -/
def untilFlags (p : Pipeline m) (digest : Digest) (options : GenerateOptions)
    (workspace : Workspace) : Tracking m (List String) := do
  p.untilUnit digest options workspace
  p.findFlags options workspace

/-- Everything up to the preprocessed header, which is rewritten on demand. -/
def untilPreprocessed (p : Pipeline m) (digest : Digest) (options : GenerateOptions)
    (workspace : Workspace) : Tracking m (List String) := do
  let flags ← p.untilFlags digest options workspace
  p.preprocess options workspace flags
  return flags

variable [LawfulMonad m] (p : Pipeline m) (digest : Digest) (options : GenerateOptions)
  (workspace : Workspace)

/-- The path of the header is asked for once the target is there. -/
theorem untilHeader_eq : p.untilHeader options workspace = (do
    p.untilTarget options workspace
    p.askHeaderPath options workspace) := by
  have hsetting : (BuildTool.readSetting p.buildTool workspace.clone options.target
      BuildSettings.bridgingHeaderKey : Task m String) = (do
        let project ← Project.load workspace.clone
        if (project.findTarget? options.target).isNone then
          throw (.targetNotFound options.target)) >>= fun _ => (do
        let dump ← (BuildTool.showSettings p.buildTool workspace.clone options.target).output
        MonadExcept.ofExcept (BuildSettings.find dump BuildSettings.bridgingHeaderKey)) := by
    rw [bind_assoc]
    refine bind_congr fun project => ?_
    split <;> simp
  simp only [untilHeader, untilTarget, askHeaderPath, hsetting, ofWork_within_bind, bind_assoc]

/-- The steps are the way to the preprocessed header, and the request. -/
theorem steps_eq : p.steps digest options workspace = (do
    let flags ← p.untilPreprocessed digest options workspace
    p.requestInterface workspace flags) := by
  simp only [steps, untilPreprocessed, untilFlags, untilUnit, untilHeader, untilCloned,
    readHeaderPath, bind_assoc, pure_bind]

end Ways

/-! ### What success tells -/

section Successes

variable {σ : Type} [Host (StateM σ)] {s s' : σ} {flags : List String}

theorem run_dryRunLog_eq_ok_iff {tool project : Path} {target log : String}
    {options : BuildTool.DryRunOptions} :
    (BuildTool.dryRunLog tool project target options : Task (StateM σ) String).run s =
        (.ok log, s') ↔ ∃ out,
      (Host.run (BuildTool.dryRun tool project target options) : StateM σ _) s = (.ok out, s') ∧
      out.code = some 0 ∧
      log = Text.Utf8.decodeLossy out.stdout ++ Text.Utf8.decodeLossy out.stderr := by
  simp only [BuildTool.dryRunLog, run_bind_eq_ok_iff, Command.run_executeChecked_eq_ok_iff]
  constructor
  · rintro ⟨out, _, ⟨hrun, hcode⟩, hend⟩
    cases hend
    exact ⟨out, hrun, hcode, rfl⟩
  · rintro ⟨out, hrun, hcode, rfl⟩
    exact ⟨out, s', ⟨hrun, hcode⟩, rfl⟩

theorem run_flagsOf_eq_ok_iff {log : String} {unit : Path} :
    (flagsOf log unit : Task (StateM σ) _).run s = (.ok flags, s') ↔ ∃ canonical,
      (Files.normalize unit : StateM σ Path) s = (canonical, s') ∧
      CompilerFlags.extract log canonical = .ok flags := by
  simp only [flagsOf, run_bind_eq_ok_iff, run_ofExcept_eq_ok_iff]
  constructor
  · rintro ⟨canonical, _, hnormalize, hflags, rfl⟩
    cases hnormalize
    exact ⟨_, rfl, hflags⟩
  · rintro ⟨canonical, hnormalize, hflags⟩
    refine ⟨canonical, s', ?_, hflags, rfl⟩
    rw [run_liftM, hnormalize]

theorem run_preprocessor_eq_ok_iff {tool input output : Path} :
    (Preprocessor.run tool input output flags : Task (StateM σ) Unit).run s = (.ok (), s') ↔ ∃ out,
      (Host.run (Preprocessor.command tool input output flags) : StateM σ _) s = (.ok out, s') ∧
      out.code = some 0 := by
  simp only [Preprocessor.run, run_bind_eq_ok_iff, Command.run_executeChecked_eq_ok_iff]
  constructor
  · rintro ⟨out, _, hrun, hend⟩
    cases hend
    exact ⟨out, hrun⟩
  · rintro ⟨out, hrun⟩
    exact ⟨out, s', hrun, rfl⟩

theorem run_assumeNonnull_eq_ok_iff {header : Path} {umbrella : String} :
    (Preprocessor.assumeNonnull header umbrella : Task (StateM σ) Unit).run s = (.ok (), s') ↔
      ∃ source read, Files.HasRead header source s read ∧
        Files.HasWritten header (ImportUnit.assumeNonnull source umbrella) read s' := by
  simp only [Preprocessor.assumeNonnull, run_bind_eq_ok_iff, Files.run_readText_eq_ok_iff,
    Files.run_writeText_eq_ok_iff]

end Successes

section Reaching

variable {σ : Type} [Host (StateM σ)] {p : Pipeline (StateM σ)} {digest : Digest}
  {options : GenerateOptions} {workspace : Workspace} {s s' : σ}

theorem succeeds_untilTarget_iff : Succeeds (p.untilTarget options workspace) s () s' ↔
    HasCloned p options workspace s s' := by
  have htarget (between : σ) : ((do
      let project ← Project.load workspace.clone
      if (project.findTarget? options.target).isNone then throw (.targetNotFound options.target)
      : Task (StateM σ) Unit).run between = (.ok (), s')) ↔ ∃ project : Project,
        Project.HasLoaded workspace.clone project between s' ∧
          (project.findTarget? options.target).isSome := by
    simp only [run_bind_eq_ok_iff, Project.run_load_eq_ok_iff]
    refine exists_congr fun project => ?_
    constructor
    · rintro ⟨loaded, hload, hcheck⟩
      split at hcheck
      · cases hcheck
      · next hsome =>
        cases hcheck
        exact ⟨hload, by simpa [Option.isSome_iff_ne_none] using hsome⟩
    · rintro ⟨hload, hsome⟩
      refine ⟨s', hload, ?_⟩
      rw [if_neg (by simpa [Option.isSome_iff_ne_none] using hsome)]
      rfl
  simp only [Succeeds, untilTarget, untilCloned, cloneProject, bind_assoc, endOf_liftM_bind,
    endOf_track_bind, endOf_ofWork_bind_eq_ok_iff, endOf_ofWork_eq_ok_iff, run_within_eq_ok_iff,
    htarget]
  constructor
  · rintro ⟨_, ⟨⟩, cloned, hclone, ⟨project, hload, hsome⟩, -⟩
    exact .intro (Project.run_clone_eq_ok_iff.mp hclone) hload hsome
  · rintro ⟨hclone, hload, hsome⟩
    exact ⟨_, (), _, Project.run_clone_eq_ok_iff.mpr hclone, ⟨_, hload, hsome⟩, rfl⟩

theorem exists_endOf_askHeaderPath_iff {header : String} {tracked : Temporaries} :
    (∃ tracked', endOf (p.askHeaderPath options workspace) tracked s =
        ((.ok header, tracked'), s')) ↔ ∃ out,
      (Host.run (BuildTool.showSettings p.buildTool workspace.clone options.target) :
        StateM σ _) s = (.ok out, s') ∧ out.code = some 0 ∧
      BuildSettings.find (Text.Utf8.decodeLossy out.stdout) BuildSettings.bridgingHeaderKey =
        .ok header := by
  simp only [askHeaderPath, endOf_ofWork_eq_ok_iff, run_within_eq_ok_iff, run_bind_eq_ok_iff,
    Command.run_output_eq_ok_iff, run_ofExcept_eq_ok_iff]
  constructor
  · rintro ⟨_, ⟨dump, _, ⟨out, hrun, hcode, rfl⟩, hfind, rfl⟩, -⟩
    exact ⟨out, hrun, hcode, hfind⟩
  · rintro ⟨out, hrun, hcode, hfind⟩
    exact ⟨_, ⟨_, s', ⟨out, hrun, hcode, rfl⟩, hfind, rfl⟩, rfl⟩

theorem exists_endOf_addUnit_iff {target header : String} {tracked : Temporaries} :
    (∃ tracked', endOf (p.addUnit digest target header workspace) tracked s =
        ((.ok (), tracked'), s')) ↔ ∃ written added,
      Files.HasWritten workspace.unit (ImportUnit.importing header) s written ∧
      Project.HasRegistered digest workspace.clone target
        (.ofPath ((workspace.unit.fileName?.map Path.mk).getD workspace.unit)) workspace.clone added
        (p.told .patching s!"{workspace.clone.text} into `{target}`" written) s' := by
  simp only [addUnit, endOf_liftM_bind, endOf_track_bind, endOf_ofWork_bind_eq_ok_iff,
    run_within_eq_ok_iff, Project.run_registerSource_eq_ok_iff]
  constructor
  · rintro ⟨_, ⟨⟩, written, hwritten, added, registered, hregistered, hend⟩
    cases hend
    exact ⟨written, added, Files.run_writeText_eq_ok_iff.mp hwritten, hregistered⟩
  · rintro ⟨written, added, hwritten, hregistered⟩
    exact ⟨_, (), written, Files.run_writeText_eq_ok_iff.mpr hwritten, added, s', hregistered, rfl⟩

theorem endOf_timed (p : Pipeline (StateM σ)) (options : GenerateOptions) (tracked : Temporaries)
    (s : σ) : endOf (ofWork do
      ExceptT.lift (p.shell.tell .building s!"`{options.target}` (dry run)" : StateM σ Unit)
      ExceptT.lift (Host.clock : StateM σ Nat)) tracked s =
        ((.ok (p.timed options s).1, tracked), (p.timed options s).2) := rfl

theorem exists_endOf_findFlags_iff {flags : List String} {tracked : Temporaries} :
    (∃ tracked', endOf (p.findFlags options workspace) tracked s = ((.ok flags, tracked'), s')) ↔
      ∃ out answered unit, (Host.run (BuildTool.dryRun p.buildTool workspace.clone options.target
        options.dryRun) : StateM σ _) (p.timed options s).2 = (.ok out, answered) ∧
      out.code = some 0 ∧
      (Files.normalize workspace.unit : StateM σ Path)
        ((p.shell.tellDuration .building (p.timed options s).1 : StateM σ Unit) answered).2 =
          (unit, s') ∧
      CompilerFlags.extract
        (Text.Utf8.decodeLossy out.stdout ++ Text.Utf8.decodeLossy out.stderr) unit = .ok flags := by
  rw [findFlags, endOf_bind_of_ok (endOf_timed ..)]
  simp only [endOf_liftM_bind, endOf_ofWork_bind_eq_ok_iff, endOf_ofWork_eq_ok_iff,
    run_within_eq_ok_iff, run_dryRunLog_eq_ok_iff, run_flagsOf_eq_ok_iff]
  constructor
  · rintro ⟨_, log, answered, ⟨out, hrun, hcode, rfl⟩, ⟨unit, hunit, hflags⟩, -⟩
    exact ⟨out, answered, unit, hrun, hcode, hunit, hflags⟩
  · rintro ⟨out, answered, unit, hrun, hcode, hunit, hflags⟩
    exact ⟨_, _, answered, ⟨out, hrun, hcode, rfl⟩, ⟨unit, hunit, hflags⟩, rfl⟩

theorem exists_endOf_preprocess_iff {flags : List String} {tracked : Temporaries} :
    (∃ tracked', endOf (p.preprocess options workspace flags) tracked s =
        ((.ok (), tracked'), s')) ↔ ∃ out answered,
      (Host.run (Preprocessor.command p.preprocessor workspace.unit workspace.header flags) :
        StateM σ _) (p.told .preprocessing workspace.unit.text s) = (.ok out, answered) ∧
      out.code = some 0 ∧ HasRewritten options workspace answered s' := by
  have hend (answered : σ) (tracked : Temporaries) : (∃ tracked', endOf (if options.assumeNonnull then
      ofWork ((Preprocessor.assumeNonnull workspace.header options.umbrella).toWork.within
        "cannot rewrite preprocessed header") else pure ()) tracked answered =
          ((.ok (), tracked'), s')) ↔ HasRewritten options workspace answered s' := by
    rw [HasRewritten]
    split
    · simp only [endOf_ofWork_eq_ok_iff, run_within_eq_ok_iff, run_assumeNonnull_eq_ok_iff,
        exists_and_left, exists_eq, and_true]
    · constructor
      · rintro ⟨_, h⟩
        cases h
        rfl
      · rintro rfl
        exact ⟨_, rfl⟩
  simp only [preprocess, endOf_liftM_bind, endOf_track_bind, endOf_ofWork_bind_eq_ok_iff,
    run_within_eq_ok_iff]
  constructor
  · rintro ⟨tracked', ⟨⟩, answered, hrun, hrewritten⟩
    obtain ⟨out, hrun, hcode⟩ := run_preprocessor_eq_ok_iff.mp hrun
    exact ⟨out, answered, hrun, hcode, (hend _ _).mp ⟨tracked', hrewritten⟩⟩
  · rintro ⟨out, answered, hrun, hcode, hrewritten⟩
    obtain ⟨tracked', hrewritten⟩ := (hend _ _).mpr hrewritten
    exact ⟨tracked', (), answered, run_preprocessor_eq_ok_iff.mpr ⟨out, hrun, hcode⟩, hrewritten⟩

theorem succeeds_untilHeader_iff {header : String} :
    Succeeds (p.untilHeader options workspace) s header s' ↔ ∃ cloned out,
      HasCloned p options workspace s cloned ∧
      (Host.run (BuildTool.showSettings p.buildTool workspace.clone options.target) :
        StateM σ _) cloned = (.ok out, s') ∧ out.code = some 0 ∧
      BuildSettings.find (Text.Utf8.decodeLossy out.stdout) BuildSettings.bridgingHeaderKey =
        .ok header := by
  rw [untilHeader_eq, succeeds_bind_iff fun _ _ _ => exists_endOf_askHeaderPath_iff]
  constructor
  · rintro ⟨⟨⟩, cloned, hcloned, out, h⟩
    exact ⟨cloned, out, succeeds_untilTarget_iff.mp hcloned, h⟩
  · rintro ⟨cloned, out, hcloned, h⟩
    exact ⟨(), cloned, succeeds_untilTarget_iff.mpr hcloned, out, h⟩

theorem succeeds_untilUnit_iff : Succeeds (p.untilUnit digest options workspace) s () s' ↔
    HasAddedUnit p digest options workspace s s' := by
  rw [untilUnit, succeeds_bind_iff fun _ _ _ => exists_endOf_addUnit_iff]
  constructor
  · rintro ⟨header, answered, hheader, written, added, hunit, hregistered⟩
    obtain ⟨cloned, out, hcloned, hrun, hcode, hfind⟩ := succeeds_untilHeader_iff.mp hheader
    exact .intro hcloned hrun hcode hfind hunit hregistered
  · rintro ⟨hcloned, hrun, hcode, hfind, hunit, hregistered⟩
    exact ⟨_, _, succeeds_untilHeader_iff.mpr ⟨_, _, hcloned, hrun, hcode, hfind⟩, _, _, hunit,
      hregistered⟩

theorem succeeds_untilFlags_iff {flags : List String} :
    Succeeds (p.untilFlags digest options workspace) s flags s' ↔
      HasFoundFlags p digest options workspace s flags s' := by
  rw [untilFlags, succeeds_bind_iff fun _ _ _ => exists_endOf_findFlags_iff]
  constructor
  · rintro ⟨⟨⟩, registered, hadded, out, answered, unit, hrun, hcode, hunit, hflags⟩
    exact .intro (succeeds_untilUnit_iff.mp hadded) hrun hcode hunit hflags
  · rintro ⟨hadded, hrun, hcode, hunit, hflags⟩
    exact ⟨(), _, succeeds_untilUnit_iff.mpr hadded, _, _, _, hrun, hcode, hunit, hflags⟩

theorem succeeds_untilPreprocessed_iff {flags : List String} :
    Succeeds (p.untilPreprocessed digest options workspace) s flags s' ↔
      HasPreprocessed p digest options workspace s flags s' := by
  have hlast (picked : List String) (tracked : Temporaries) (between : σ) :
      (∃ tracked', endOf (do
        p.preprocess options workspace picked
        return picked) tracked between = ((.ok flags, tracked'), s')) ↔
      picked = flags ∧ ∃ out answered, (Host.run (Preprocessor.command p.preprocessor workspace.unit
        workspace.header picked) : StateM σ _) (p.told .preprocessing workspace.unit.text between) =
          (.ok out, answered) ∧ out.code = some 0 ∧ HasRewritten options workspace answered s' := by
    simp only [endOf_bind_eq_ok_iff]
    constructor
    · rintro ⟨tracked', ⟨⟩, _, _, hend, hreturn⟩
      cases hreturn
      exact ⟨rfl, exists_endOf_preprocess_iff.mp ⟨tracked', hend⟩⟩
    · rintro ⟨rfl, h⟩
      obtain ⟨tracked', hend⟩ := exists_endOf_preprocess_iff.mpr h
      exact ⟨tracked', (), tracked', s', hend, rfl⟩
  rw [untilPreprocessed, succeeds_bind_iff hlast]
  constructor
  · rintro ⟨_, found, hfound, rfl, out, answered, hrun, hcode, hrewritten⟩
    exact .intro (succeeds_untilFlags_iff.mp hfound) hrun hcode hrewritten
  · rintro ⟨hfound, hrun, hcode, hrewritten⟩
    exact ⟨flags, _, succeeds_untilFlags_iff.mpr hfound, rfl, _, _, hrun, hcode, hrewritten⟩

end Reaching

end BridgingHeader.Pipeline
