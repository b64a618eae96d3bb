import BridgingHeader.Proofs.FirstItem
import BridgingHeader.Proofs.Project.FailedAdditions

/-!
# What an addition requires

An addition asks six things of a project, the target, the file and the lists that it inserts into.
It succeeds if all of them hold, and it fails with what tells of the first one that does not. The
last two are looked at when the project has changed already, and what they find does not depend on
that.
-/

namespace BridgingHeader

namespace Project

/-! ### What the questions ask -/

section Questions

variable (p : Project)

/-- An identifier names an object with a string under a key. -/
def Holds (key text id : String) : Prop :=
  ∃ object, p.object? id = some object ∧ object.getString? key = some text

/-- The first identifier among the targets that names an object with that name. -/
def IsTarget (target id : String) : Prop := IsFirst (p.Holds "name" target) p.targetIds id

/-- The identifier that the root object gives for the main group names an object. -/
def IsMainGroup (group : String) : Prop :=
  ∃ root object, p.rootObject? = some root ∧ root.getString? "mainGroup" = some group ∧
    p.object? group = some object

/-- The identifiers among the build phases of an object. -/
def phaseIds (id : String) : List String :=
  (p.listOf id "buildPhases").filterMap PropertyList.asString?

/-- The first identifier among the build phases of the target that names a sources phase. -/
def IsSourcesPhaseOf (target phase : String) : Prop :=
  ∃ id, p.IsTarget target id ∧
    IsFirst (p.Holds "isa" "PBXSourcesBuildPhase") (p.phaseIds id) phase

/-- An identifier names an object that has a list under a key, or nothing. -/
def AbsentOrList (key id : String) : Prop :=
  ∃ object, p.object? id = some object ∧
    (object.get? key = none ∨ ∃ items, object.get? key = some (.array items))

end Questions

variable {p : Project}

theorem findTarget?_eq_some_iff {target id : String} :
    p.findTarget? target = some id ↔ p.IsTarget target id := by
  classical
  have hholds : ∀ other, p.nameOf? other = some target ↔ p.Holds "name" target other :=
    fun other => Option.bind_eq_some_iff
  rw [IsTarget, ← find?_eq_some_iff_isFirst, findTarget?]
  simp only [hholds]

theorem isSourcesPhase_iff {phase : String} :
    p.isSourcesPhase phase = true ↔ p.Holds "isa" "PBXSourcesBuildPhase" phase := by
  rw [isSourcesPhase, decide_eq_true_iff]
  exact Option.bind_eq_some_iff

theorem sourcesPhase?_eq_find? (target : String) :
    p.sourcesPhase? target = (p.phaseIds target).find? p.isSourcesPhase := by
  rw [sourcesPhase?, phaseIds, listOf]
  rcases p.object? target with _ | object
  · rfl
  · rcases h : object.getArray? "buildPhases" with _ | items
    · simp [h]
    · simp [h]

theorem phaseOf?_eq_some_iff {target phase : String} :
    p.phaseOf? target = some phase ↔ p.IsSourcesPhaseOf target phase := by
  classical
  rw [phaseOf?, Option.bind_eq_some_iff]
  refine exists_congr fun id => and_congr findTarget?_eq_some_iff ?_
  rw [sourcesPhase?_eq_find?, ← find?_eq_some_iff_isFirst]
  simp only [← isSourcesPhase_iff, Bool.decide_eq_true]

theorem IsMainGroup.unique {group other : String} (h : p.IsMainGroup group)
    (hother : p.IsMainGroup other) : group = other :=
  Option.some.inj ((mainGroup?_eq_some_iff.mpr h).symm.trans (mainGroup?_eq_some_iff.mpr hother))

theorem IsSourcesPhaseOf.unique {target phase other : String} (h : p.IsSourcesPhaseOf target phase)
    (hother : p.IsSourcesPhaseOf target other) : phase = other :=
  Option.some.inj ((phaseOf?_eq_some_iff.mpr h).symm.trans (phaseOf?_eq_some_iff.mpr hother))

/-- Something that can be inserted into is a list already, or absent. -/
theorem absentOrList_iff {id key : String} {object : Dictionary PropertyList}
    (hobject : p.object? id = some object) :
    p.AbsentOrList key id ↔ (object.list? key).isSome := by
  simp only [AbsentOrList, hobject, Option.some.injEq, exists_eq_left']
  unfold Dictionary.list?
  rcases object.get? key with _ | ⟨text | items | contents⟩
  · simp
  · simp [PropertyList.asArray?]
  · simp [PropertyList.asArray?]
  · simp [PropertyList.asArray?]

/-! ### The requirements -/

/-- A requirement of an addition. -/
inductive Requirement where
  | target
  | mainGroup
  | file
  | sourcesPhase
  | children
  | files
  deriving DecidableEq, Repr

namespace Requirement

/-- The requirements in the order in which an addition finds out about them. -/
def inOrder : List Requirement := [.target, .mainGroup, .file, .sourcesPhase, .children, .files]

/-- What a requirement asks. -/
def Met (p : Project) (target : String) (file : FileReference) : Requirement → Prop
  | .target => ∃ id ∈ p.targetIds, p.Holds "name" target id
  | .mainGroup => ∃ group, p.IsMainGroup group
  | .file => file.name ≠ "" ∧ file.path ≠ ""
  | .sourcesPhase => ∃ id, p.IsTarget target id ∧
      ∃ phase ∈ p.phaseIds id, p.Holds "isa" "PBXSourcesBuildPhase" phase
  | .children => ∃ group, p.IsMainGroup group ∧ p.AbsentOrList "children" group
  | .files => ∃ phase, p.IsSourcesPhaseOf target phase ∧ p.AbsentOrList "files" phase

/-- A failure tells that a requirement is not met. -/
def Tells (p : Project) (target : String) (file : FileReference) : Requirement → Failure → Prop
  | .target, failure => failure = .targetNotFound target
  | .mainGroup, failure => failure = .mainGroupNotFound
  | .file, failure => failure = .invalidFileReference
      (if file.name = "" then .noFileName file.path else .noPath file.name)
  | .sourcesPhase, failure => failure = .sourcesPhaseNotFound target
  | .children, failure => ∃ group, p.IsMainGroup group ∧
      failure = .invalidFileReference (.notList "children" group)
  | .files, failure => ∃ phase, p.IsSourcesPhaseOf target phase ∧
      failure = .invalidFileReference (.notList "files" phase)

variable {target : String} {file : FileReference}

/-- Only one failure tells of a requirement. -/
theorem Tells.unique {requirement : Requirement} {failure other : Failure}
    (h : requirement.Tells p target file failure)
    (hother : requirement.Tells p target file other) : failure = other := by
  cases requirement with
  | target => exact Eq.trans h (Eq.symm hother)
  | mainGroup => exact Eq.trans h (Eq.symm hother)
  | file => exact Eq.trans h (Eq.symm hother)
  | sourcesPhase => exact Eq.trans h (Eq.symm hother)
  | children =>
      obtain ⟨group, hgroup, rfl⟩ := h
      obtain ⟨group', hgroup', rfl⟩ := hother
      rw [hgroup.unique hgroup']
  | files =>
      obtain ⟨phase, hphase, rfl⟩ := h
      obtain ⟨phase', hphase', rfl⟩ := hother
      rw [hphase.unique hphase']

theorem met_target_iff :
    Met p target file .target ↔ ∃ id, p.findTarget? target = some id := by
  simp only [Met, findTarget?_eq_some_iff]
  exact exists_isFirst_iff.symm

theorem met_mainGroup_iff :
    Met p target file .mainGroup ↔ ∃ group, p.mainGroup? = some group :=
  exists_congr fun _ => mainGroup?_eq_some_iff.symm

theorem met_sourcesPhase_iff :
    Met p target file .sourcesPhase ↔ ∃ phase, p.phaseOf? target = some phase := by
  simp only [Met, phaseOf?_eq_some_iff, IsSourcesPhaseOf]
  rw [exists_comm]
  simp only [exists_and_left, exists_isFirst_iff]

theorem met_children_iff {group : String} (hgroup : p.IsMainGroup group) :
    Met p target file .children ↔ p.AbsentOrList "children" group := by
  constructor
  · rintro ⟨other, hother, hlist⟩
    rwa [hgroup.unique hother]
  · exact fun hlist => ⟨group, hgroup, hlist⟩

theorem met_files_iff {phase : String} (hphase : p.IsSourcesPhaseOf target phase) :
    Met p target file .files ↔ p.AbsentOrList "files" phase := by
  constructor
  · rintro ⟨other, hother, hlist⟩
    rwa [hphase.unique hother]
  · exact fun hlist => ⟨phase, hphase, hlist⟩

theorem validate_of_met (h : Met p target file .file) : file.validate = .ok () := by
  rw [FileReference.validate, if_neg h.1, if_neg h.2]
  rfl

theorem validate_of_not_met (h : ¬ Met p target file .file) :
    file.validate = .error (.invalidFileReference
      (if file.name = "" then .noFileName file.path else .noPath file.name)) := by
  rw [FileReference.validate]
  by_cases hname : file.name = ""
  · rw [if_pos hname, if_pos hname]
    rfl
  · have hpath : file.path = "" := not_not.mp fun hpath => h ⟨hname, hpath⟩
    rw [if_neg hname, if_pos hpath, if_neg hname]
    rfl

end Requirement

/-! ### The changes of an addition -/

/-- The result of an edit. -/
def Edit.result {α : Type} (edit : Edit α) (p : Project) : Except Failure α := (edit.outcome p).1

section Results

variable {α β : Type} {edit : Edit α} {next : α → Edit β}

theorem result_bind_of_ok {q : Project} {a : α} (h : edit.outcome p = (.ok a, q)) :
    (edit >>= next).result p = (next a).result q := by
  rw [Edit.result, outcome_bind, h]
  rfl

theorem result_bind_of_error {failure : Failure} (h : edit.result p = .error failure) :
    (edit >>= next).result p = .error failure := by
  rcases houtcome : edit.outcome p with ⟨failure' | a, q⟩
  · rw [Edit.result, houtcome] at h
    cases h
    rw [Edit.result, outcome_bind, houtcome]
  · rw [Edit.result, houtcome] at h
    cases h

end Results

section Changes

variable {digest : Digest} {target : String} {file : FileReference}

/-- An insertion into an object succeeds if there is a list or nothing, and fails otherwise. -/
theorem outcome_insertId_cases {owner key : String} {object : Dictionary PropertyList}
    (hobject : p.object? owner = some object) (id : String) (index : Nat) :
    (p.AbsentOrList key owner ∧ ∃ q, (insertId owner key id index).outcome p = (.ok (), q)) ∨
    (¬ p.AbsentOrList key owner ∧ (insertId owner key id index).result p =
      .error (.invalidFileReference (.notList key owner))) := by
  rw [absentOrList_iff hobject, Edit.result, outcome_insertId, hobject]
  simp only
  cases object.list? key with
  | none => exact Or.inr ⟨by simp, rfl⟩
  | some items => exact Or.inl ⟨by simp, _, rfl⟩

/-- A list to which growth adds nothing is still what it was. -/
theorem Grows.absentOrList_iff {q : Project} {objects : List (String × Dictionary PropertyList)}
    {items : String → String → List String} (h : Grows p q objects items) {id key : String}
    {object : Dictionary PropertyList} (hobject : p.object? id = some object)
    (hitems : items id key = []) : q.AbsentOrList key id ↔ p.AbsentOrList key id := by
  obtain ⟨object', hobject', hgrows⟩ := h.grown id object hobject
  rw [Project.absentOrList_iff hobject', Project.absentOrList_iff hobject,
    Dictionary.list?_congr (hgrows.kept key hitems)]

/-- The changes succeed, or they stop at the first of the two lists that is none. -/
theorem placeSource_result {group phase : String} {groupObject phaseObject : Dictionary PropertyList}
    (hgroup : p.object? group = some groupObject) (hphase : p.object? phase = some phaseObject)
    (hfile : file.validate = .ok ())
    (hreference : HasFreeId digest (referencePurpose file) p.ids)
    (hbuild : HasFreeId digest (buildFilePurpose (freshId digest p (referencePurpose file)))
      (p.ids ++ [freshId digest p (referencePurpose file)])) :
    (p.AbsentOrList "children" group ∧ p.AbsentOrList "files" phase ∧
      ∃ added, (placeSource digest group phase file).result p = .ok added) ∨
    (¬ p.AbsentOrList "children" group ∧ (placeSource digest group phase file).result p =
      .error (.invalidFileReference (.notList "children" group))) ∨
    (p.AbsentOrList "children" group ∧ ¬ p.AbsentOrList "files" phase ∧
      (placeSource digest group phase file).result p =
        .error (.invalidFileReference (.notList "files" phase))) := by
  obtain ⟨objects, hobjects⟩ := exists_objects_of_object? hgroup
  obtain ⟨id, hid⟩ : ∃ id, id = freshId digest p (referencePurpose file) := ⟨_, rfl⟩
  rw [← hid] at hbuild
  obtain ⟨p₁, hcreate₁⟩ : ∃ p₁, (createFileReference digest file).outcome p = (.ok id, p₁) := by
    rw [outcome_createFileReference, hfile, ← hid]
    exact ⟨_, rfl⟩
  have hgrows₁ := grows_createFileReference hobjects hreference hcreate₁
  obtain ⟨_, hgroup₁, -⟩ := hgrows₁.grown group groupObject hgroup
  have hchildren : p₁.AbsentOrList "children" group ↔ p.AbsentOrList "children" group :=
    hgrows₁.absentOrList_iff hgroup rfl
  rw [placeSource, result_bind_of_ok hcreate₁, ← hchildren]
  rcases outcome_insertId_cases hgroup₁ id 0 with ⟨hlist₁, p₂, hchild⟩ | ⟨hlist₁, hchild⟩
  case inr => exact Or.inr (Or.inl ⟨hlist₁, result_bind_of_error hchild⟩)
  have hgrows₂ := hgrows₁.trans (grows_insertId hchild) fun _ _ hitems =>
    exists_object_of_single hgroup hitems
  have hids : p₂.ids = p.ids ++ [id] := hgrows₂.ids
  obtain ⟨buildFile, p₃, hcreate₂⟩ : ∃ buildFile p₃,
      (createBuildFile digest id).outcome p₂ = (.ok buildFile, p₃) := by
    rw [outcome_createBuildFile, hgrows₂.added _ (.head _)]
    exact ⟨_, _, rfl⟩
  have hgrows₃ := hgrows₂.trans (grows_createBuildFile (hids ▸ hbuild) hcreate₂) (by simp)
  obtain ⟨_, hphase₃, -⟩ := hgrows₃.grown phase phaseObject hphase
  -- The group may be the phase, but the child has not gone into its files.
  have hfiles : p₃.AbsentOrList "files" phase ↔ p.AbsentOrList "files" phase :=
    hgrows₃.absentOrList_iff hphase (by simp)
  rw [insertGroupChild, result_bind_of_ok hchild, result_bind_of_ok hcreate₂, ← hfiles]
  rcases outcome_insertId_cases hphase₃ buildFile 0 with ⟨hlist₃, p₄, hlast⟩ | ⟨hlist₃, hlast⟩
  · exact Or.inl ⟨hlist₁, hlist₃, _, result_bind_of_ok hlast⟩
  · exact Or.inr (Or.inr ⟨hlist₁, hlist₃, result_bind_of_error hlast⟩)

/-- A requirement is the first one that is not met, and the addition fails with what tells of it. -/
def FailsAt (digest : Digest) (p : Project) (target : String) (file : FileReference)
    (r : Requirement) (failure : Failure) : Prop :=
  IsFirst (fun r : Requirement => ¬ r.Met p target file) Requirement.inOrder r ∧
    r.Tells p target file failure ∧ (addSource digest target file).result p = .error failure

/-- An addition fails at one of its checks, or they pass and it changes the project. -/
theorem addSource_checks (digest : Digest) (p : Project) (target : String) (file : FileReference) :
    (∃ r failure, FailsAt digest p target file r failure) ∨
    (∀ r ∈ [Requirement.target, .mainGroup, .file, .sourcesPhase], r.Met p target file) ∧
      file.validate = .ok () ∧ ∃ group phase, p.mainGroup? = some group ∧
        p.phaseOf? target = some phase ∧
        (addSource digest target file).result p = (placeSource digest group phase file).result p := by
  have hchecked := checked_checkAddition p target file
  have hresult : (addSource digest target file).result p =
      p.checkAddition target file >>= fun found =>
        (placeSource digest found.1 found.2 file).result p := by
    rw [Edit.result, outcome_addSource]
    rcases p.checkAddition target file with failure | ⟨group, phase⟩ <;> rfl
  generalize p.checkAddition target file = found at hresult hchecked
  have htargetMet : ∀ {id}, p.findTarget? target = some id → Requirement.Met p target file .target :=
    fun htarget => Requirement.met_target_iff.mpr ⟨_, htarget⟩
  have hgroupMet : ∀ {id}, p.mainGroup? = some id → Requirement.Met p target file .mainGroup :=
    fun hgroup => Requirement.met_mainGroup_iff.mpr ⟨_, hgroup⟩
  have hfileMet : file.validate = .ok () → Requirement.Met p target file .file :=
    fun hfile => not_not.mp fun hnot => by simp [Requirement.validate_of_not_met hnot] at hfile
  cases hchecked with
  | noTarget htarget =>
      have hnot : ¬ Requirement.Met p target file .target := by
        simp [Requirement.met_target_iff, htarget]
      exact Or.inl ⟨.target, _, ⟨[], _, rfl, hnot, by simp⟩, rfl, hresult⟩
  | noGroup htarget hgroup =>
      have hnot : ¬ Requirement.Met p target file .mainGroup := by
        simp [Requirement.met_mainGroup_iff, hgroup]
      exact Or.inl ⟨.mainGroup, _, ⟨[.target], _, rfl, hnot, by simp [htargetMet htarget]⟩, rfl,
        hresult⟩
  | badFile htarget hgroup hfile =>
      have hnot : ¬ Requirement.Met p target file .file := by
        intro hmet
        rw [Requirement.validate_of_met hmet] at hfile
        cases hfile
      rw [Requirement.validate_of_not_met hnot] at hfile
      cases hfile
      exact Or.inl ⟨.file, _, ⟨[.target, .mainGroup], _, rfl, hnot,
        by simp [htargetMet htarget, hgroupMet hgroup]⟩, rfl, hresult⟩
  | noPhase htarget hgroup hfile hphase =>
      have hnot : ¬ Requirement.Met p target file .sourcesPhase := by
        simp [Requirement.met_sourcesPhase_iff, phaseOf?, htarget, hphase]
      exact Or.inl ⟨.sourcesPhase, _, ⟨[.target, .mainGroup, .file], _, rfl, hnot,
        by simp [htargetMet htarget, hgroupMet hgroup, hfileMet hfile]⟩, rfl, hresult⟩
  | @passed _ group phase htarget hgroup hfile hphase =>
      have hphaseOf : p.phaseOf? target = some phase := by simp [phaseOf?, htarget, hphase]
      have hphaseMet : Requirement.Met p target file .sourcesPhase :=
        Requirement.met_sourcesPhase_iff.mpr ⟨phase, hphaseOf⟩
      refine Or.inr ⟨?_, hfile, group, phase, hgroup, hphaseOf, hresult⟩
      simp [htargetMet htarget, hgroupMet hgroup, hfileMet hfile, hphaseMet]

/-- An addition fails at the first requirement that is not met, or it meets all of them and
succeeds. -/
theorem addSource_result_cases (target : String)
    (hreference : HasFreeId digest (referencePurpose file) p.ids)
    (hbuild : HasFreeId digest (buildFilePurpose (freshId digest p (referencePurpose file)))
      (p.ids ++ [freshId digest p (referencePurpose file)])) :
    (∃ r failure, FailsAt digest p target file r failure) ∨
    (∀ r : Requirement, r.Met p target file) ∧
      ∃ added, (addSource digest target file).result p = .ok added := by
  rcases addSource_checks digest p target file with
    hfails | ⟨hmet, hvalid, group, phase, hgroup, hphase, hresult⟩
  case inl => exact Or.inl hfails
  have hisGroup : p.IsMainGroup group := mainGroup?_eq_some_iff.mp hgroup
  have hisPhase : p.IsSourcesPhaseOf target phase := phaseOf?_eq_some_iff.mp hphase
  obtain ⟨_, groupObject, -, -, hgroupObject⟩ := mainGroup?_eq_some_iff.mp hgroup
  obtain ⟨targetId, -, hphaseOf⟩ := Option.bind_eq_some_iff.mp hphase
  obtain ⟨phaseObject, hphaseObject⟩ :=
    exists_object_of_isSourcesPhase (isSourcesPhase_of_sourcesPhase? hphaseOf)
  rcases placeSource_result hgroupObject hphaseObject hvalid hreference hbuild with
    ⟨hchildren, hfiles, hadded⟩ | ⟨hchildren, herror⟩ | ⟨hchildren, hfiles, herror⟩
  · refine Or.inr ⟨?_, hresult ▸ hadded⟩
    intro r
    cases r
    case children => exact (Requirement.met_children_iff hisGroup).mpr hchildren
    case files => exact (Requirement.met_files_iff hisPhase).mpr hfiles
    all_goals exact hmet _ (by simp)
  · have hnot : ¬ Requirement.Met p target file .children :=
      mt (Requirement.met_children_iff hisGroup).mp hchildren
    exact Or.inl ⟨.children, _,
      ⟨[.target, .mainGroup, .file, .sourcesPhase], _, rfl, hnot,
        fun r hr => not_not.mpr (hmet r hr)⟩,
      ⟨group, hisGroup, rfl⟩, hresult.trans herror⟩
  · have hnot : ¬ Requirement.Met p target file .files :=
      mt (Requirement.met_files_iff hisPhase).mp hfiles
    refine Or.inl ⟨.files, _,
      ⟨[.target, .mainGroup, .file, .sourcesPhase] ++ [.children], _, rfl, hnot, ?_⟩,
      ⟨phase, hisPhase, rfl⟩, hresult.trans herror⟩
    intro r hr
    rw [not_not]
    rcases List.mem_append.mp hr with hcheck | hlast
    · exact hmet r hcheck
    · rw [List.mem_singleton.mp hlast]
      exact (Requirement.met_children_iff hisGroup).mpr hchildren

/-- An addition succeeds exactly if all its requirements are met, and its failures are those that
tell of the first requirement that is not. -/
theorem addSource_result_iff
    (hreference : HasFreeId digest (referencePurpose file) p.ids)
    (hbuild : HasFreeId digest (buildFilePurpose (freshId digest p (referencePurpose file)))
      (p.ids ++ [freshId digest p (referencePurpose file)])) :
    ((∃ added, (addSource digest target file).result p = .ok added) ↔
      ∀ r : Requirement, r.Met p target file) ∧
    ∀ failure, (addSource digest target file).result p = .error failure ↔
      ∃ r, IsFirst (fun r : Requirement => ¬ r.Met p target file) Requirement.inOrder r ∧
        r.Tells p target file failure := by
  rcases addSource_result_cases target hreference hbuild with
    ⟨r, told, hfirst, htells, hresult⟩ | ⟨hmet, added, hresult⟩
  · rw [hresult]
    constructor
    · refine iff_of_false (fun hadded => ?_) (fun hmet => hfirst.property (hmet r))
      obtain ⟨_, hadded⟩ := hadded
      cases hadded
    · intro failure
      constructor
      · intro h
        cases h
        exact ⟨r, hfirst, htells⟩
      · rintro ⟨r', hfirst', htells'⟩
        cases hfirst.unique hfirst'
        rw [htells.unique htells']
  · rw [hresult]
    constructor
    · exact iff_of_true ⟨added, rfl⟩ hmet
    · intro failure
      refine iff_of_false (fun h => ?_) (fun htold => ?_)
      · cases h
      · obtain ⟨r, hfirst, -⟩ := htold
        exact hfirst.property (hmet r)

end Changes

/-- An addition with files that are no list meets every requirement but the last. -/
theorem addSource_result_iff_of_unlistedFiles :
    HasFreeId .sha256 (referencePurpose strandedFile) unlistedFiles.ids ∧
    HasFreeId .sha256 (buildFilePurpose "6E476EB6C80BA6EF51392294")
      (unlistedFiles.ids ++ ["6E476EB6C80BA6EF51392294"]) ∧
    IsFirst (fun r : Requirement => ¬ r.Met unlistedFiles "App" strandedFile)
      Requirement.inOrder .files := by
  have hid : freshId .sha256 unlistedFiles (referencePurpose strandedFile) =
      "6E476EB6C80BA6EF51392294" := by decide +kernel
  have hreference : HasFreeId .sha256 (referencePurpose strandedFile) unlistedFiles.ids :=
    ⟨0, by decide, by decide +kernel⟩
  have hbuild : HasFreeId .sha256 (buildFilePurpose "6E476EB6C80BA6EF51392294")
      (unlistedFiles.ids ++ ["6E476EB6C80BA6EF51392294"]) := ⟨0, by decide, by decide +kernel⟩
  refine ⟨hreference, hbuild, ?_⟩
  have hresult : (addSource .sha256 "App" strandedFile).result unlistedFiles =
      .error (.invalidFileReference (.notList "files" "S")) :=
    congrArg Prod.fst outcome_addSource_strandedFile
  obtain ⟨r, hfirst, htells⟩ :=
    ((addSource_result_iff hreference (hid ▸ hbuild)).2 _).mp hresult
  cases r with
  | files => exact hfirst
  | children =>
      obtain ⟨_, -, hfailure⟩ := htells
      simp at hfailure
  | target => cases htells
  | mainGroup => cases htells
  | file => cases htells
  | sourcesPhase => cases htells

end Project

end BridgingHeader
