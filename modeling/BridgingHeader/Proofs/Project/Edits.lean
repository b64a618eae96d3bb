import BridgingHeader.Proofs.Project.Objects

/-!
# What edits do

Each edit is described by its outcome: the result, and the project that it leaves behind. A
successful addition of a source is two new objects, each followed by an insertion into a list.
-/

namespace BridgingHeader.Project

variable {α β : Type}

/-! ### Outcomes -/

/-- The result of an edit and the project after it. -/
def Edit.outcome (edit : Edit α) (p : Project) : Except Failure α × Project := edit.run.run p

/-- The project after an edit, whether it succeeded or not. -/
def Edit.after (edit : Edit α) (p : Project) : Project := (edit.outcome p).2

theorem outcome_pure (a : α) (p : Project) : (pure a : Edit α).outcome p = (.ok a, p) := rfl

theorem outcome_throw (failure : Failure) (p : Project) :
    (throw failure : Edit α).outcome p = (.error failure, p) := rfl

theorem outcome_get_bind (next : Project → Edit β) (p : Project) :
    (get >>= next).outcome p = (next p).outcome p := rfl

/-- The second edit of a sequence runs only if the first one succeeds. -/
theorem outcome_bind (edit : Edit α) (next : α → Edit β) (p : Project) :
    (edit >>= next).outcome p =
      match edit.outcome p with
      | (.ok a, q) => (next a).outcome q
      | (.error failure, q) => (.error failure, q) := by
  simp only [Edit.outcome, ExceptT.run_bind, StateT.run_bind]
  rcases h : edit.run.run p with ⟨result, q⟩
  cases result <;> rfl

theorem outcome_bind_eq_ok_iff {edit : Edit α} {next : α → Edit β} {p r : Project} {b : β} :
    (edit >>= next).outcome p = (.ok b, r) ↔
      ∃ a q, edit.outcome p = (.ok a, q) ∧ (next a).outcome q = (.ok b, r) := by
  rw [outcome_bind]
  rcases edit.outcome p with ⟨result, q⟩
  cases result <;> simp

theorem outcome_ofExcept (result : Except Failure α) (p : Project) :
    (MonadExcept.ofExcept result : Edit α).outcome p = (result, p) := by
  cases result <;> rfl

/-! ### The primitive edits -/

theorem outcome_addObject (digest : Digest) (purpose : String)
    (object : Dictionary PropertyList) (p : Project) :
    (addObject digest purpose object).outcome p =
      (.ok (freshId digest p purpose), p.setObject (freshId digest p purpose) object) := rfl

/-- The object that stands for a file. -/
def referenceObject (file : FileReference) : Dictionary PropertyList :=
  ⟨[("isa", .string "PBXFileReference"), ("lastKnownFileType", .string file.fileType),
    ("name", .string file.name), ("path", .string file.path), ("sourceTree", .string "<group>")]⟩

/-- What the identifier of a file reference is for. -/
def referencePurpose (file : FileReference) : String :=
  s!"PBXFileReference:{file.name}:{file.path}"

theorem outcome_createFileReference (digest : Digest) (file : FileReference) (p : Project) :
    (createFileReference digest file).outcome p =
      match file.validate with
      | .ok () =>
        (.ok (freshId digest p (referencePurpose file)),
          p.setObject (freshId digest p (referencePurpose file)) (referenceObject file))
      | .error failure => (.error failure, p) := by
  rw [createFileReference, outcome_bind, outcome_ofExcept]
  cases file.validate <;> rfl

/-- The object that lets a build phase use a file reference. -/
def buildFileObject (fileReference : String) : Dictionary PropertyList :=
  ⟨[("isa", .string "PBXBuildFile"), ("fileRef", .string fileReference)]⟩

/-- What the identifier of a build file is for. -/
def buildFilePurpose (fileReference : String) : String := s!"PBXBuildFile:{fileReference}"

theorem outcome_createBuildFile (digest : Digest) (fileReference : String) (p : Project) :
    (createBuildFile digest fileReference).outcome p =
      if (p.object? fileReference).isSome then
        (.ok (freshId digest p (buildFilePurpose fileReference)),
          p.setObject (freshId digest p (buildFilePurpose fileReference))
            (buildFileObject fileReference))
      else (.error (.invalidFileReference (.noObject fileReference)), p) := by
  rw [createBuildFile, outcome_get_bind]
  cases p.object? fileReference <;> rfl

theorem outcome_insertId (owner key id : String) (index : Nat) (p : Project) :
    (insertId owner key id index).outcome p =
      match p.object? owner with
      | none => (.error (.invalidFileReference (.noObject owner)), p)
      | some object =>
        match object.list? key with
        | none => (.error (.invalidFileReference (.notList key owner)), p)
        | some items =>
          (.ok (), p.setObject owner (object.insert key
            (.array (items.insertIdx (min index items.length) (.string id))))) := by
  rw [insertId, outcome_get_bind]
  cases p.object? owner with
  | none => rfl
  | some object =>
      simp only [Dictionary.list?]
      cases object.get? key with
      | none => rfl
      | some value => cases value <;> rfl

/-- An object stays an object when an identifier is inserted into a list. -/
theorem exists_object?_insertId {owner key id other : String} {index : Nat} {p q : Project}
    {object : Dictionary PropertyList} (h : (insertId owner key id index).outcome p = (.ok (), q))
    (hother : p.object? other = some object) : ∃ object', q.object? other = some object' := by
  rw [outcome_insertId] at h
  rcases hobject : p.object? owner with _ | object
  · rw [hobject] at h
    cases h
  · simp only [hobject] at h
    rcases hlist : object.list? key with _ | items
    · rw [hlist] at h
      cases h
    · simp only [hlist] at h
      cases h
      exact exists_object?_setObject hother _ _

/-! ### Additions -/

/-- The main group and the sources phase that an addition finds before it changes anything. -/
def checkAddition (p : Project) (target : String) (file : FileReference) :
    Except Failure (String × String) := do
  let some targetId := p.findTarget? target | throw (.targetNotFound target)
  let some group := p.mainGroup? | throw .mainGroupNotFound
  file.validate
  let some phase := p.sourcesPhase? targetId | throw (.sourcesPhaseNotFound target)
  return (group, phase)

/-- The part of an addition that changes the project. -/
def placeSource (digest : Digest) (group phase : String) (file : FileReference) :
    Edit AddedSource := do
  let fileReference ← createFileReference digest file
  insertGroupChild group fileReference 0
  let buildFile ← createBuildFile digest fileReference
  insertPhaseFile phase buildFile 0
  return { fileReference, buildFile }

/-- How the checks of an addition end. -/
inductive Checked (p : Project) (target : String) (file : FileReference) :
    Except Failure (String × String) → Prop
  | noTarget (htarget : p.findTarget? target = none) :
      Checked p target file (.error (.targetNotFound target))
  | noGroup {targetId : String} (htarget : p.findTarget? target = some targetId)
      (hgroup : p.mainGroup? = none) : Checked p target file (.error .mainGroupNotFound)
  | badFile {targetId group : String} {failure : Failure}
      (htarget : p.findTarget? target = some targetId) (hgroup : p.mainGroup? = some group)
      (hfile : file.validate = .error failure) : Checked p target file (.error failure)
  | noPhase {targetId group : String} (htarget : p.findTarget? target = some targetId)
      (hgroup : p.mainGroup? = some group) (hfile : file.validate = .ok ())
      (hphase : p.sourcesPhase? targetId = none) :
      Checked p target file (.error (.sourcesPhaseNotFound target))
  | passed {targetId group phase : String} (htarget : p.findTarget? target = some targetId)
      (hgroup : p.mainGroup? = some group) (hfile : file.validate = .ok ())
      (hphase : p.sourcesPhase? targetId = some phase) :
      Checked p target file (.ok (group, phase))

theorem checked_checkAddition (p : Project) (target : String) (file : FileReference) :
    Checked p target file (p.checkAddition target file) := by
  unfold checkAddition
  rcases htarget : p.findTarget? target with _ | targetId
  · exact .noTarget htarget
  dsimp only
  rcases hgroup : p.mainGroup? with _ | group
  · exact .noGroup htarget hgroup
  dsimp only
  rcases hfile : file.validate with failure | _
  · exact .badFile htarget hgroup hfile
  dsimp only [bind, Except.bind]
  rcases hphase : p.sourcesPhase? targetId with _ | phase
  · exact .noPhase htarget hgroup hfile hphase
  · exact .passed htarget hgroup hfile hphase

/-- An addition changes a project only after all checks. -/
theorem outcome_addSource (digest : Digest) (target : String) (file : FileReference)
    (p : Project) : (addSource digest target file).outcome p =
      match p.checkAddition target file with
      | .ok (group, phase) => (placeSource digest group phase file).outcome p
      | .error failure => (.error failure, p) := by
  rw [addSource, outcome_get_bind, checkAddition]
  rcases p.findTarget? target with _ | targetId
  · rfl
  dsimp only
  rw [outcome_get_bind]
  rcases p.mainGroup? with _ | group
  · rfl
  dsimp only
  rw [outcome_bind, outcome_ofExcept]
  rcases file.validate with failure | _
  · rfl
  dsimp only
  rw [outcome_get_bind]
  rcases p.sourcesPhase? targetId with _ | phase
  · rfl
  · rfl

end BridgingHeader.Project
