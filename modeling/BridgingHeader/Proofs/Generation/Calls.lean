import BridgingHeader.Proofs.Generation.Emission
import BridgingHeader.Proofs.Generation.Stages
import BridgingHeader.Proofs.Generation.Workspaces

/-!
# The calls of a run

Generating an interface asks the build tool twice, then the preprocessor, then the interface
service, each at most once and in this order. A call is made only if everything before it went well,
and the run succeeds only if the last response holds an interface.
-/

namespace BridgingHeader

open Temporaries (Tracking)
open Temporaries.Tracking

theorem Response.sourceText?_eq_some_iff {response : Response} {text : String} :
    response.sourceText? = some text ↔
      response.lookup "key.sourcetext" = some (.string text) ∧
        text.toList.all Text.isBlank = false := by
  rw [sourceText?, Option.bind_eq_bind, Option.bind_eq_some_iff]
  constructor
  · rintro ⟨value, hlookup, h⟩
    cases value <;> try cases h
    next content =>
    change (if content.toList.all Text.isBlank = true then none else some content) = some text at h
    split at h <;> cases h
    exact ⟨hlookup, Bool.eq_false_iff.mpr ‹_›⟩
  · rintro ⟨hlookup, hblank⟩
    refine ⟨.string text, hlookup, ?_⟩
    change (if text.toList.all Text.isBlank = true then none else some text) = some text
    rw [hblank]
    rfl

namespace Pipeline

open Recording

/-- The pipeline on a recorded host. -/
def recorded {m : Type → Type} [Monad m] (p : Pipeline m) : Pipeline (Recording m) where
  shell := p.shell
  buildTool := p.buildTool
  preprocessor := p.preprocessor
  service := Recording.service p.service

theorem recorded_shell {m : Type → Type} [Monad m] (p : Pipeline m) :
    p.recorded.shell = p.shell := rfl

variable {m : Type → Type} [Monad m] [Host m]

section Stages

variable {σ : Type} [Host (StateM σ)] (p : Pipeline (StateM σ)) (digest : Digest)
  (options : GenerateOptions) (workspace : Workspace)

theorem recorded_untilCloned : p.recorded.untilCloned options workspace =
    liftTracking (p.untilCloned options workspace) := by
  simp only [untilCloned, cloneProject, recorded_shell, tell_eq, track_eq, clone_eq,
    ← liftExcept_liftM, ofWork_liftExcept, liftTracking_bind]

theorem recorded_addUnit (target header : String) :
    p.recorded.addUnit digest target header workspace =
      liftTracking (p.addUnit digest target header workspace) := by
  simp only [addUnit, recorded_shell, tell_eq, track_eq, writeText_eq, registerSource_eq,
    toWork_liftExcept, within_liftExcept, ← liftExcept_liftM, ofWork_liftExcept, liftTracking_bind,
    liftTracking_pure]

theorem recorded_untilTarget : p.recorded.untilTarget options workspace =
    liftTracking (p.untilTarget options workspace) := by
  have hload (project : Project) : (do
      if (project.findTarget? options.target).isNone then throw (.targetNotFound options.target)
      : Task (Recording (StateM σ)) Unit) = liftExcept (do
      if (project.findTarget? options.target).isNone then throw (.targetNotFound options.target)
      : Task (StateM σ) Unit) := by
    split <;> simp
  simp only [untilTarget, recorded_untilCloned, load_eq, hload, ← liftExcept_bind,
    toWork_liftExcept, within_liftExcept, ofWork_liftExcept, liftTracking_bind]

theorem traces_askHeaderPath (tracked : Temporaries) (s : σ) :
    Traces (p.recorded.askHeaderPath options workspace) (p.askHeaderPath options workspace) tracked s
      [.ran (BuildTool.showSettings p.buildTool workspace.clone options.target)
        (outcomeOf (BuildTool.showSettings p.buildTool workspace.clone options.target) s)] := by
  refine traces_ofWork (emits_within _ (emits_toWork ?_)) _
  refine (emits_output _ s).bind_liftExcept fun dump => ?_
  rw [liftExcept_ofExcept]

theorem traces_findFlags (tracked : Temporaries) (s : σ) :
    Traces (p.recorded.findFlags options workspace) (p.findFlags options workspace) tracked s
      [.ran (BuildTool.dryRun p.buildTool workspace.clone options.target options.dryRun)
        (outcomeOf (BuildTool.dryRun p.buildTool workspace.clone options.target options.dryRun)
          (p.timed options s).2)] := by
  rw [findFlags, recorded_shell, tell_eq]
  refine (traces_lift _ _ _).bind_ok (endOf_timed ..) ?_
  refine Traces.bind_lift (traces_ofWork (emits_within _ (emits_toWork
    (emits_dryRunLog _ _ _ _ _))) _) fun log => ?_
  simp only [tellDuration_eq, flagsOf_eq, toWork_liftExcept, within_liftExcept, ← liftExcept_liftM,
    ofWork_liftExcept, liftTracking_bind]

theorem traces_preprocess (flags : List String) (tracked : Temporaries) (s : σ) :
    Traces (p.recorded.preprocess options workspace flags)
      (p.preprocess options workspace flags) tracked s
      [.ran (Preprocessor.command p.preprocessor workspace.unit workspace.header flags)
        (outcomeOf (Preprocessor.command p.preprocessor workspace.unit workspace.header flags)
          (p.told .preprocessing workspace.unit.text s))] := by
  rw [preprocess, preprocess, recorded_shell, tell_eq, track_eq]
  refine (traces_lift _ _ _).bind_ok (endOf_ofWork_liftM _ _ _) ?_
  refine (traces_lift _ _ _).bind_ok (endOf_track _ _ _) ?_
  refine Traces.bind_lift (traces_ofWork (emits_within _ (emits_toWork
    (emits_preprocessor _ _ _ _ _))) _) fun _ => ?_
  split
  · rw [assumeNonnull_eq, toWork_liftExcept, within_liftExcept, ofWork_liftExcept]
  · rfl

/-- The request for the interface of the header, and the host by then. -/
def requested (flags : List String) (s : σ) : InterfaceRequest × σ :=
  (Interface.request workspace.header flags : StateM σ InterfaceRequest)
    (p.told .generating "interface" s)

theorem endOf_request (flags : List String) (tracked : Temporaries) (s : σ) :
    endOf (ofWork (liftM (Interface.request workspace.header flags : StateM σ InterfaceRequest)))
        tracked (p.told .generating "interface" s) =
      ((.ok (p.requested workspace flags s).1, tracked), (p.requested workspace flags s).2) := rfl

/-- What the service responds to that request. -/
def responseTo (flags : List String) (s : σ) : Except Report Response :=
  ((p.service (p.requested workspace flags s).1).run (p.requested workspace flags s).2).1

theorem traces_requestInterface (flags : List String) (tracked : Temporaries) (s : σ) :
    Traces (p.recorded.requestInterface workspace flags)
      (p.requestInterface workspace flags) tracked s
      [.requested (p.requested workspace flags s).1 (p.responseTo workspace flags s)] := by
  rw [requestInterface, requestInterface, recorded_shell, tell_eq, request_eq]
  refine (traces_liftM _ _ _).bind_ok (endOf_ofWork_liftM _ _ _) ?_
  refine (traces_liftM _ _ _).bind_ok (endOf_request ..) ?_
  refine Traces.bind_lift (traces_ofWork (emits_within _ (emits_service _ _ _)) _)
    fun response => ?_
  split <;> rfl

/-- The interface is what the response holds, unless that is blank. -/
theorem result_requestInterface_eq_ok_iff {flags : List String} {text : String}
    {tracked : Temporaries} {s : σ} :
    (endOf (p.requestInterface workspace flags) tracked s).1.1 = .ok text ↔ ∃ members,
      p.responseTo workspace flags s = .ok members ∧
      members.lookup "key.sourcetext" = some (.string text) ∧
      text.toList.all Text.isBlank = false := by
  rw [requestInterface, endOf_liftM_bind, ← told, endOf_bind_of_ok (endOf_request ..)]
  cases hresponse : p.responseTo workspace flags s with
  | error report =>
    rw [endOf_bind, endOf_within, ← responseTo, hresponse]
    constructor
    · intro h
      cases h
    · rintro ⟨members, h, -⟩
      cases h
  | ok members =>
    obtain ⟨responded, hresponded⟩ : ∃ responded, endOf (ofWork ((p.service (p.requested workspace
        flags s).1).within "interface synthesis failed")) tracked (p.requested workspace flags s).2 =
          ((.ok members, tracked), responded) := by
      rw [endOf_within, ← responseTo, hresponse]
      exact ⟨_, rfl⟩
    rw [endOf_bind_of_ok hresponded]
    simp only [Except.ok.injEq, exists_eq_left', ← Response.sourceText?_eq_some_iff]
    cases members.sourceText? with
    | some found =>
      constructor <;>
      · intro h
        cases h
        rfl
    | none =>
      constructor <;>
      · intro h
        cases h

end Stages

/-! ### The protocol -/

/-- What comes back from the calls of a run, and the two things that it puts into them. -/
structure Answers where
  settings : Except Cause Outcome
  dryRun : Except Cause Outcome
  flags : List String
  preprocessed : Except Cause Outcome
  uuid : String
  response : Except Report Response

/-- The calls of a run that goes well. Both calls of the build tool name the clone, and the flags
are the same for the preprocessor and the request. -/
def Answers.calls (answers : Answers) (p : Pipeline m) (options : GenerateOptions)
    (workspace : Workspace) : List Call :=
  [.ran (BuildTool.showSettings p.buildTool workspace.clone options.target) answers.settings,
    .ran (BuildTool.dryRun p.buildTool workspace.clone options.target options.dryRun) answers.dryRun,
    .ran (Preprocessor.command p.preprocessor workspace.unit workspace.header answers.flags)
      answers.preprocessed,
    .requested ⟨workspace.header, answers.uuid, answers.flags⟩ answers.response]

/-- The calls that a run makes, and the result to which they lead. -/
structure CallProtocol {σ : Type} [Host (StateM σ)] (p : Pipeline (StateM σ)) (digest : Digest)
    (options : GenerateOptions) (workspace : Workspace) (s : σ) (calls : List Call)
    (result : Except Report String) (answers : Answers) : Prop where
  /-- Each call is made at most once, and in this order. -/
  order : calls <+: answers.calls p options workspace
  /-- The build tool is asked about the clone, first for its settings. -/
  asksSettings : ∀ c outcome, calls[0]? = some (.ran c outcome) → c.program = p.buildTool ∧
    ["-showBuildSettings", "-project", workspace.clone.text, "-target", options.target] <+:
      c.arguments
  /-- Then it is asked about the clone again, for a dry run. -/
  asksDryRun : ∀ c outcome, calls[1]? = some (.ran c outcome) → c.program = p.buildTool ∧
    ["clean", "build", "-dry-run", "-project", workspace.clone.text, "-target", options.target] <+:
      c.arguments
  /-- The preprocessor is given the flags behind its own arguments. -/
  passesFlags : ∀ c outcome, calls[2]? = some (.ran c outcome) → c.program = p.preprocessor ∧
    answers.flags <:+ c.arguments
  /-- The settings are asked for if the clone has the target. -/
  settings_iff : 1 ≤ calls.length ↔ ∃ cloned, HasCloned p options workspace s cloned
  /-- The dry run follows if they show the header and the unit that imports it is registered. -/
  dryRun_iff : 2 ≤ calls.length ↔
    ∃ registered, HasAddedUnit p digest options workspace s registered
  /-- The preprocessor follows if the log of the dry run shows the flags of the unit. -/
  preprocessor_iff : 3 ≤ calls.length ↔
    ∃ flags found, HasFoundFlags p digest options workspace s flags found
  /-- The request follows if the preprocessor succeeds and the header is rewritten on demand. -/
  request_iff : 4 ≤ calls.length ↔
    ∃ flags rewritten, HasPreprocessed p digest options workspace s flags rewritten
  settings : ∀ cloned, HasCloned p options workspace s cloned → answers.settings =
    outcomeOf (BuildTool.showSettings p.buildTool workspace.clone options.target) cloned
  dryRun : ∀ registered, HasAddedUnit p digest options workspace s registered → answers.dryRun =
    outcomeOf (BuildTool.dryRun p.buildTool workspace.clone options.target options.dryRun)
      (p.timed options registered).2
  /-- The flags are those that were found in the log. -/
  preprocessed : ∀ flags found, HasFoundFlags p digest options workspace s flags found →
    answers.flags = flags ∧ answers.preprocessed =
      outcomeOf (Preprocessor.command p.preprocessor workspace.unit workspace.header flags)
        (p.told .preprocessing workspace.unit.text found)
  response : ∀ flags rewritten, HasPreprocessed p digest options workspace s flags rewritten →
    (p.requested workspace flags rewritten).1 = ⟨workspace.header, answers.uuid, answers.flags⟩ ∧
      answers.response = p.responseTo workspace flags rewritten
  /-- By the time of the dry run the settings were shown, and the header is among them. -/
  settings_ok : 2 ≤ calls.length → ∃ out header, answers.settings = .ok out ∧ out.code = some 0 ∧
    BuildSettings.find (Text.Utf8.decodeLossy out.stdout) BuildSettings.bridgingHeaderKey =
      .ok header
  /-- By the time of the preprocessor the dry run was logged, and the flags are those of the unit. -/
  dryRun_ok : 3 ≤ calls.length → ∃ out unit, answers.dryRun = .ok out ∧ out.code = some 0 ∧
    CompilerFlags.extract (Text.Utf8.decodeLossy out.stdout ++ Text.Utf8.decodeLossy out.stderr)
      unit = .ok answers.flags
  preprocessed_ok : 4 ≤ calls.length →
    ∃ out, answers.preprocessed = .ok out ∧ out.code = some 0
  /-- The run succeeds if all steps do and the response holds an interface that is not blank. -/
  result_iff : ∀ text, result = .ok text ↔ calls.length = 4 ∧ ∃ members,
    answers.response = .ok members ∧ members.lookup "key.sourcetext" = some (.string text) ∧
      text.toList.all Text.isBlank = false

section Protocol

variable {σ : Type} [Host (StateM σ)] (p : Pipeline (StateM σ)) (digest : Digest)
  (options : GenerateOptions) (workspace : Workspace) (s : σ)

/-- What a run is answered at the states to which it comes. -/
def answers : Answers :=
  let cloned := (endOf (p.untilTarget options workspace) {} s).2
  let registered := (endOf (p.untilUnit digest options workspace) {} s).2
  let flags := (resultOf (p.untilFlags digest options workspace) s).toOption.getD []
  let found := (endOf (p.untilFlags digest options workspace) {} s).2
  let rewritten := (endOf (p.untilPreprocessed digest options workspace) {} s).2
  { settings := outcomeOf (BuildTool.showSettings p.buildTool workspace.clone options.target) cloned
    dryRun := outcomeOf (BuildTool.dryRun p.buildTool workspace.clone options.target options.dryRun)
      (p.timed options registered).2
    flags
    preprocessed :=
      outcomeOf (Preprocessor.command p.preprocessor workspace.unit workspace.header flags)
        (p.told .preprocessing workspace.unit.text found)
    uuid := (p.requested workspace flags rewritten).1.uuid
    response := p.responseTo workspace flags rewritten }

variable {p digest options workspace s}

theorem answers_settings {cloned : σ} (h : HasCloned p options workspace s cloned) :
    (p.answers digest options workspace s).settings =
      outcomeOf (BuildTool.showSettings p.buildTool workspace.clone options.target) cloned := by
  rw [answers, (succeeds_untilTarget_iff.mpr h).endOf_snd]

theorem answers_dryRun {registered : σ}
    (h : HasAddedUnit p digest options workspace s registered) :
    (p.answers digest options workspace s).dryRun =
      outcomeOf (BuildTool.dryRun p.buildTool workspace.clone options.target options.dryRun)
        (p.timed options registered).2 := by
  rw [answers, (succeeds_untilUnit_iff.mpr h).endOf_snd]

theorem answers_settings_ok {registered : σ}
    (h : HasAddedUnit p digest options workspace s registered) : ∃ out header,
      (p.answers digest options workspace s).settings = .ok out ∧ out.code = some 0 ∧
      BuildSettings.find (Text.Utf8.decodeLossy out.stdout) BuildSettings.bridgingHeaderKey =
        .ok header := by
  obtain ⟨hcloned, hrun, hcode, hheader, -, -⟩ := h
  rw [answers_settings hcloned, outcomeOf, hrun]
  exact ⟨_, _, rfl, hcode, hheader⟩

theorem answers_flags {flags : List String} {found : σ}
    (h : HasFoundFlags p digest options workspace s flags found) :
    (p.answers digest options workspace s).flags = flags := by
  rw [answers, resultOf_of_succeeds (succeeds_untilFlags_iff.mpr h)]
  rfl

theorem answers_dryRun_ok {flags : List String} {found : σ}
    (h : HasFoundFlags p digest options workspace s flags found) : ∃ out unit,
      (p.answers digest options workspace s).dryRun = .ok out ∧ out.code = some 0 ∧
      CompilerFlags.extract (Text.Utf8.decodeLossy out.stdout ++ Text.Utf8.decodeLossy out.stderr)
        unit = .ok (p.answers digest options workspace s).flags := by
  rw [answers_flags h]
  obtain ⟨hadded, hrun, hcode, -, hflags⟩ := h
  rw [answers_dryRun hadded, outcomeOf, hrun]
  exact ⟨_, _, rfl, hcode, hflags⟩

theorem answers_preprocessed {flags : List String} {found : σ}
    (h : HasFoundFlags p digest options workspace s flags found) :
    (p.answers digest options workspace s).preprocessed =
      outcomeOf (Preprocessor.command p.preprocessor workspace.unit workspace.header flags)
        (p.told .preprocessing workspace.unit.text found) := by
  have hflags := answers_flags h
  rw [answers] at hflags ⊢
  rw [← hflags, (succeeds_untilFlags_iff.mpr h).endOf_snd]

theorem answers_preprocessed_ok {flags : List String} {rewritten : σ}
    (h : HasPreprocessed p digest options workspace s flags rewritten) : ∃ out,
      (p.answers digest options workspace s).preprocessed = .ok out ∧ out.code = some 0 := by
  obtain ⟨hfound, hrun, hcode, -⟩ := h
  rw [answers_preprocessed hfound, outcomeOf, hrun]
  exact ⟨_, rfl, hcode⟩

theorem answers_request {flags : List String} {rewritten : σ}
    (h : HasPreprocessed p digest options workspace s flags rewritten) :
    (p.requested workspace flags rewritten).1 =
      ⟨workspace.header, (p.answers digest options workspace s).uuid,
        (p.answers digest options workspace s).flags⟩ ∧
      (p.answers digest options workspace s).response = p.responseTo workspace flags rewritten := by
  have hend := (succeeds_untilPreprocessed_iff.mpr h).endOf_snd
  obtain ⟨hfound, -, -, -⟩ := h
  have hflags := answers_flags hfound
  rw [answers] at hflags ⊢
  subst hend hflags
  exact ⟨rfl, rfl⟩

variable (p digest options workspace s)

/-- The calls of a run, each of which is made if the run comes to it. -/
def callsOf : List Call :=
  let answers := p.answers digest options workspace s
  (((if (resultOf (p.untilTarget options workspace) s).isOk then
      [.ran (BuildTool.showSettings p.buildTool workspace.clone options.target) answers.settings]
      else []) ++
    if (resultOf (p.untilUnit digest options workspace) s).isOk then
      [.ran (BuildTool.dryRun p.buildTool workspace.clone options.target options.dryRun)
        answers.dryRun] else []) ++
    if (resultOf (p.untilFlags digest options workspace) s).isOk then
      [.ran (Preprocessor.command p.preprocessor workspace.unit workspace.header answers.flags)
        answers.preprocessed] else []) ++
    if (resultOf (p.untilPreprocessed digest options workspace) s).isOk then
      [.requested ⟨workspace.header, answers.uuid, answers.flags⟩ answers.response] else []

/-- The steps make these calls and no others: whatever lies between two of them makes none. -/
theorem traces_steps : Traces (p.recorded.steps digest options workspace)
    (p.steps digest options workspace) {} s (p.callsOf digest options workspace s) := by
  rw [steps_eq, steps_eq]
  refine Traces.bind_call ?preprocessed fun flags rewritten hpreprocessed tracked => ?request
  case request =>
    obtain ⟨hrequest, hresponse⟩ := answers_request (succeeds_untilPreprocessed_iff.mp hpreprocessed)
    rw [← hrequest, hresponse]
    exact traces_requestInterface p workspace flags tracked rewritten
  case preprocessed =>
    rw [untilPreprocessed, untilPreprocessed]
    refine Traces.bind_call ?found fun flags found hfound tracked => ?preprocess
    case preprocess =>
      rw [succeeds_untilFlags_iff] at hfound
      rw [answers_flags hfound, answers_preprocessed hfound]
      exact (traces_preprocess p options workspace flags tracked found).bind_lift fun _ => rfl
    case found =>
      rw [untilFlags, untilFlags]
      refine Traces.bind_call ?added fun _ registered hadded tracked => ?find
      case find =>
        rw [answers_dryRun (succeeds_untilUnit_iff.mp hadded)]
        exact traces_findFlags p options workspace tracked registered
      case added =>
        rw [untilUnit, untilUnit]
        refine Traces.bind_lift ?header fun header => recorded_addUnit p digest workspace _ header
        rw [untilHeader_eq, untilHeader_eq, recorded_untilTarget, ← List.nil_append (ite _ _ _)]
        refine (traces_lift _ _ _).bind_call fun _ cloned hcloned tracked => ?_
        rw [answers_settings (succeeds_untilTarget_iff.mp hcloned)]
        exact traces_askHeaderPath p options workspace tracked cloned

/-- The calls are the first ones of the protocol, one for each stage to which the run comes. -/
theorem callsOf_prefix : let calls := p.callsOf digest options workspace s
    calls <+: (p.answers digest options workspace s).calls p options workspace ∧
      (1 ≤ calls.length ↔ ∃ cloned, HasCloned p options workspace s cloned) ∧
      (2 ≤ calls.length ↔ ∃ registered, HasAddedUnit p digest options workspace s registered) ∧
      (3 ≤ calls.length ↔ ∃ flags found, HasFoundFlags p digest options workspace s flags found) ∧
      (4 ≤ calls.length ↔
        ∃ flags rewritten, HasPreprocessed p digest options workspace s flags rewritten) := by
  have hcloned : (resultOf (p.untilTarget options workspace) s).isOk ↔
      ∃ cloned, HasCloned p options workspace s cloned :=
    isOk_resultOf_unit_iff.trans (exists_congr fun _ => succeeds_untilTarget_iff)
  have hadded : (resultOf (p.untilUnit digest options workspace) s).isOk ↔
      ∃ registered, HasAddedUnit p digest options workspace s registered :=
    isOk_resultOf_unit_iff.trans (exists_congr fun _ => succeeds_untilUnit_iff)
  have hfound : (resultOf (p.untilFlags digest options workspace) s).isOk ↔
      ∃ flags found, HasFoundFlags p digest options workspace s flags found := by
    simp only [isOk_resultOf_iff, succeeds_untilFlags_iff]
  have hpreprocessed : (resultOf (p.untilPreprocessed digest options workspace) s).isOk ↔
      ∃ flags rewritten, HasPreprocessed p digest options workspace s flags rewritten := by
    simp only [isOk_resultOf_iff, succeeds_untilPreprocessed_iff]
  rw [← hcloned, ← hadded, ← hfound, ← hpreprocessed]
  refine calls_prefix ?_ ?_ ?_ _ _ _ _
  · rw [hadded, hcloned]
    rintro ⟨_, hcloned, -⟩
    exact ⟨_, hcloned⟩
  · rw [hfound, hadded]
    rintro ⟨_, _, hadded, -⟩
    exact ⟨_, hadded⟩
  · rw [hpreprocessed, hfound]
    rintro ⟨_, _, hfound, -⟩
    exact ⟨_, _, hfound⟩

/-- The run succeeds with the interface that is responded to the request. -/
theorem resultOf_steps_eq_ok_iff {text : String} :
    resultOf (p.steps digest options workspace) s = .ok text ↔ ∃ flags rewritten,
      HasPreprocessed p digest options workspace s flags rewritten ∧ ∃ members,
        p.responseTo workspace flags rewritten = .ok members ∧
        members.lookup "key.sourcetext" = some (.string text) ∧
        text.toList.all Text.isBlank = false := by
  simp only [← succeeds_untilPreprocessed_iff]
  rw [steps_eq, resultOf]
  constructor
  · intro h
    obtain ⟨flags, tracked, rewritten, hend, hrequest⟩ := exists_of_endOf_bind_ok h
    exact ⟨flags, rewritten, ⟨tracked, hend⟩, (result_requestInterface_eq_ok_iff ..).mp hrequest⟩
  · rintro ⟨flags, rewritten, ⟨tracked, hend⟩, hrequest⟩
    rw [endOf_bind_of_ok hend]
    exact (result_requestInterface_eq_ok_iff ..).mpr hrequest

/-- The steps keep to the protocol, whatever the host does. -/
theorem callProtocol_steps : CallProtocol p digest options workspace s
    (p.callsOf digest options workspace s) (resultOf (p.steps digest options workspace) s)
    (p.answers digest options workspace s) := by
  obtain ⟨horder, hone, htwo, hthree, hfour⟩ := p.callsOf_prefix digest options workspace s
  have hall : (p.callsOf digest options workspace s).length = 4 ↔
      ∃ flags rewritten, HasPreprocessed p digest options workspace s flags rewritten := by
    rw [← hfour]
    exact ⟨Nat.le_of_eq ∘ Eq.symm, fun h => Nat.le_antisymm horder.length_le h⟩
  have hcall {index : Nat} {call : Call}
      (h : (p.callsOf digest options workspace s)[index]? = some call) :
      ((p.answers digest options workspace s).calls p options workspace)[index]? = some call := by
    obtain ⟨hindex, rfl⟩ := List.getElem?_eq_some_iff.mp h
    rw [horder.getElem hindex]
    exact List.getElem?_eq_getElem _
  exact
    { order := horder
      asksSettings := by
        intro c outcome h
        cases hcall h
        exact ⟨rfl, List.prefix_refl _⟩
      asksDryRun := by
        intro c outcome h
        cases hcall h
        refine ⟨rfl, ?_⟩
        simp only [BuildTool.dryRun, List.append_assoc]
        exact List.prefix_append _ _
      passesFlags := by
        intro c outcome h
        cases hcall h
        exact ⟨rfl, List.suffix_append _ _⟩
      settings_iff := hone
      dryRun_iff := htwo
      preprocessor_iff := hthree
      request_iff := hfour
      settings := fun _ => answers_settings
      dryRun := fun _ => answers_dryRun
      preprocessed := fun _ _ h => ⟨answers_flags h, answers_preprocessed h⟩
      response := fun _ _ => answers_request
      settings_ok := by
        intro h
        obtain ⟨_, hadded⟩ := htwo.mp h
        exact answers_settings_ok hadded
      dryRun_ok := by
        intro h
        obtain ⟨_, _, hfound⟩ := hthree.mp h
        exact answers_dryRun_ok hfound
      preprocessed_ok := by
        intro h
        obtain ⟨_, _, hpreprocessed⟩ := hfour.mp h
        exact answers_preprocessed_ok hpreprocessed
      result_iff := by
        intro text
        rw [hall, resultOf_steps_eq_ok_iff]
        constructor
        · rintro ⟨flags, rewritten, h, hresponse⟩
          rw [← (answers_request h).2] at hresponse
          exact ⟨⟨flags, rewritten, h⟩, hresponse⟩
        · rintro ⟨⟨flags, rewritten, h⟩, hresponse⟩
          rw [(answers_request h).2] at hresponse
          exact ⟨flags, rewritten, h, hresponse⟩ }

end Protocol

/-- The place of a run: the project under its absolute path, and what is made beside it. -/
def place (options : GenerateOptions) : Work m (Path × Workspace) := do
  let seed ← match options.seed with
    | some seed => pure seed
    | none => (Host.random Workspace.seedRange : m Nat)
  let project ← (Files.absolute options.project : m Path)
  return (project, ← MonadExcept.ofExcept (Workspace.ofProject project seed))

theorem run_eq [LawfulMonad m] (p : Pipeline m) (digest : Digest) (options : GenerateOptions) :
    p.run digest options = (do
      let (_, workspace) ← place options
      Temporaries.cleaningUp (p.steps digest options workspace)) := by
  rw [run, place]
  cases options.seed <;> simp

theorem recorded_place {σ : Type} [Host (StateM σ)] (options : GenerateOptions) :
    (place options : Work (Recording (StateM σ)) _) = liftExcept (place options) := by
  unfold place
  cases options.seed <;>
    simp only [absolute_eq, liftExcept_bind, liftExcept_liftM, liftExcept_pure, liftExcept_ofExcept]
  rfl

theorem ofProject_of_place_ok {σ : Type} [Host (StateM σ)] {options : GenerateOptions} {s : σ}
    {project : Path} {workspace : Workspace}
    (h : ((place options : Work (StateM σ) _).run s).1 = .ok (project, workspace)) :
    ∃ seed, Workspace.ofProject project seed = .ok workspace := by
  unfold place at h
  cases hseed : options.seed <;>
  · rw [hseed] at h
    obtain ⟨seed, -, h⟩ := exists_of_bind_ok h
    obtain ⟨project', -, h⟩ := exists_of_bind_ok h
    obtain ⟨workspace', hworkspace, h⟩ := exists_of_bind_ok h
    cases h
    exact ⟨seed, eq_of_ofExcept_ok hworkspace⟩

theorem emits_cleaningUp {σ α : Type} [Host (StateM σ)] {x : Tracking (Recording (StateM σ)) α}
    {y : Tracking (StateM σ) α} {s : σ} {calls : List Call} (h : Traces x y {} s calls) :
    Emits (Temporaries.cleaningUp x).run (Temporaries.cleaningUp y).run s calls := by
  refine Emits.bind_lift h fun ended => ?_
  simp

theorem result_cleaningUp {σ α : Type} [Host (StateM σ)] (x : Tracking (StateM σ) α) (s : σ) :
    ((Temporaries.cleaningUp x).run s).1 = resultOf x s := rfl

/-- A run makes no call if it has no place to work in, and otherwise keeps to the protocol in a
workspace whose clone is not the project, whatever the host does. Writing down the calls changes
nothing else. -/
theorem run_emits_protocol {σ : Type} [Host (StateM σ)] (p : Pipeline (StateM σ)) (digest : Digest)
    (options : GenerateOptions) (s : σ) : ∃ calls,
    Emits (p.recorded.run digest options).run (p.run digest options).run s calls ∧
    match (place options : Work (StateM σ) _).run s with
    | (.error _, _) => calls = []
    | (.ok (project, workspace), s') => workspace.clone.equivalent project = false ∧
      ∃ answers, CallProtocol p digest options workspace s' calls
        ((p.run digest options).run s).1 answers := by
  have hplaced : Emits (place options : Work (Recording (StateM σ)) _).run
      (place options : Work (StateM σ) _).run s [] := by
    rw [recorded_place]
    exact emits_lift _ s
  rcases hplace : (place options : Work (StateM σ) _).run s with ⟨e | ⟨project, workspace⟩, s'⟩
  · refine ⟨[], ?_, rfl⟩
    rw [run_eq, run_eq]
    exact hplaced.bindExcept_error hplace
  · obtain ⟨seed, hproject⟩ := ofProject_of_place_ok (congrArg Prod.fst hplace)
    refine ⟨p.callsOf digest options workspace s', ?_,
      Workspace.not_equivalent_of_ofProject hproject, p.answers digest options workspace s', ?_⟩
    · rw [run_eq, run_eq, ← List.nil_append (callsOf ..)]
      exact hplaced.bindExcept_ok hplace
        (emits_cleaningUp (p.traces_steps digest options workspace s'))
    · rw [run_eq, run_bind_of_ok hplace, result_cleaningUp]
      exact callProtocol_steps ..

end Pipeline

end BridgingHeader
