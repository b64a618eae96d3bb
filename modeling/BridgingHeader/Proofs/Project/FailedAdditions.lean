import BridgingHeader.Proofs.Project.Additions
import BridgingHeader.Proofs.Project.Reachable
import Mathlib.Tactic.TFAE

/-!
# Additions that fail

An addition checks its target, the main group, the file and the sources phase before it changes
anything, and a failure of these checks leaves the project as it was. It does not check that the
children of the group and the files of the phase are lists. Finding out later is the one way to fail
with the project changed.
-/

namespace BridgingHeader.Project

section Outcomes

variable {α β : Type} {p r : Project} {failure : Failure}

/-- A sequence fails if its first edit does, or if the second one does after it. -/
theorem outcome_bind_eq_error_iff {edit : Edit α} {next : α → Edit β} :
    (edit >>= next).outcome p = (.error failure, r) ↔ edit.outcome p = (.error failure, r) ∨
      ∃ a q, edit.outcome p = (.ok a, q) ∧ (next a).outcome q = (.error failure, r) := by
  rw [outcome_bind]
  rcases edit.outcome p with ⟨result, q⟩
  cases result <;> simp

/-- Setting an object keeps all identifiers. -/
theorem mem_ids_setObject {id : String} (hid : id ∈ p.ids) (other : String)
    (object : Dictionary PropertyList) : id ∈ (p.setObject other object).ids := by
  cases hobjects : p.objects? with
  | none =>
      have hsame : p.setObject other object = p := by simp [setObject, hobjects]
      rwa [hsame]
  | some objects =>
      by_cases hother : other ∈ p.ids
      · rwa [ids_setObject_of_mem hobjects other object hother]
      · rw [ids_setObject_of_not_mem hobjects other object hother]
        exact List.mem_append_left _ hid

/-- A failed check of a file has nothing to do with lists. -/
theorem validate_ne_notList (file : FileReference) (key owner : String) :
    file.validate ≠ .error (.invalidFileReference (.notList key owner)) := by
  unfold FileReference.validate
  split_ifs <;> simp [throw, throwThe, MonadExceptOf.throw, pure, Except.pure]

end Outcomes

/-- An insertion into an object fails only if the list is none, and changes nothing then. -/
theorem outcome_insertId_eq_error {owner key id : String} {index : Nat} {p q : Project}
    {object : Dictionary PropertyList} {failure : Failure} (hobject : p.object? owner = some object)
    (h : (insertId owner key id index).outcome p = (.error failure, q)) :
    q = p ∧ failure = .invalidFileReference (.notList key owner) := by
  rw [outcome_insertId, hobject] at h
  cases hlist : object.list? key with
  | none =>
      simp only [hlist] at h
      cases h
      exact ⟨rfl, rfl⟩
  | some items =>
      simp only [hlist] at h
      cases h

/-! ### The two ways to fail -/

section Failure

variable {digest : Digest} {target : String} {file : FileReference} {p q : Project}
  {failure : Failure}

/-- Once the file reference has been made, an addition fails only at a list, and the reference
stays. -/
theorem outcome_placeSource_eq_error {group phase : String}
    {groupObject phaseObject : Dictionary PropertyList}
    (hgroup : p.object? group = some groupObject) (hphase : p.object? phase = some phaseObject)
    (hfile : file.validate = .ok ())
    (h : (placeSource digest group phase file).outcome p = (.error failure, q)) :
    (∃ key owner, failure = .invalidFileReference (.notList key owner)) ∧
      freshId digest p (referencePurpose file) ∈ q.ids := by
  obtain ⟨objects, hobjects⟩ := exists_objects_of_object? hgroup
  obtain ⟨id, hid⟩ : ∃ id, id = freshId digest p (referencePurpose file) := ⟨_, rfl⟩
  rw [← hid]
  have hcreate : (createFileReference digest file).outcome p =
      (.ok id, p.setObject id (referenceObject file)) := by
    rw [outcome_createFileReference, hfile, ← hid]
  rw [placeSource, outcome_bind, hcreate] at h
  -- The reference is an object from here on, and the group and the phase still are.
  have hnew : (p.setObject id (referenceObject file)).object? id = some (referenceObject file) := by
    rw [object?_setObject hobjects, if_pos rfl]
  obtain ⟨_, hgroup₁⟩ := exists_object?_setObject hgroup id (referenceObject file)
  obtain ⟨_, hphase₁⟩ := exists_object?_setObject hphase id (referenceObject file)
  rcases outcome_bind_eq_error_iff.mp h with hchild | ⟨_, p₂, hchild, h⟩
  · obtain ⟨rfl, rfl⟩ := outcome_insertId_eq_error hgroup₁ hchild
    exact ⟨⟨_, _, rfl⟩, mem_ids_of_object? hnew⟩
  obtain ⟨_, hnew₂⟩ := exists_object?_insertId hchild hnew
  obtain ⟨_, hphase₂⟩ := exists_object?_insertId hchild hphase₁
  rw [outcome_bind, outcome_createBuildFile, hnew₂, Option.isSome_some, if_pos rfl] at h
  obtain ⟨_, hphase₃⟩ := exists_object?_setObject hphase₂
    (freshId digest p₂ (buildFilePurpose id)) (buildFileObject id)
  rcases outcome_bind_eq_error_iff.mp h with hfiles | ⟨_, _, _, h⟩
  · obtain ⟨rfl, rfl⟩ := outcome_insertId_eq_error hphase₃ hfiles
    exact ⟨⟨_, _, rfl⟩, mem_ids_setObject (mem_ids_of_object? hnew₂) _ _⟩
  · cases h

/-- What an addition checks before it changes anything. -/
structure Addable (p : Project) (target : String) (file : FileReference) : Prop where
  phase : ∃ phase, p.phaseOf? target = some phase
  group : ∃ group, p.mainGroup? = some group
  file : file.validate = .ok ()

/-- An addition that fails has changed nothing, or it has passed its checks, made the file reference
and stopped at something that should be a list. -/
theorem outcome_addSource_eq_error
    (h : (addSource digest target file).outcome p = (.error failure, q)) :
    (¬ p.Addable target file ∧ q = p ∧
      ∀ key owner, failure ≠ .invalidFileReference (.notList key owner)) ∨
    (p.Addable target file ∧ freshId digest p (referencePurpose file) ∈ q.ids ∧
      ∃ key owner, failure = .invalidFileReference (.notList key owner)) := by
  have hchecked := checked_checkAddition p target file
  rw [outcome_addSource] at h
  generalize p.checkAddition target file = found at h hchecked
  cases hchecked with
  | noTarget htarget =>
      cases h
      refine Or.inl ⟨fun hadd => ?_, rfl, by simp⟩
      obtain ⟨phase, hphase⟩ := hadd.phase
      simp [phaseOf?, htarget] at hphase
  | noGroup _ hgroup =>
      cases h
      refine Or.inl ⟨fun hadd => ?_, rfl, by simp⟩
      obtain ⟨group, hgroup'⟩ := hadd.group
      simp [hgroup] at hgroup'
  | badFile _ _ hfile =>
      cases h
      refine Or.inl ⟨fun hadd => ?_, rfl, fun key owner hf => ?_⟩
      · simp [hadd.file] at hfile
      · exact validate_ne_notList file key owner (hf ▸ hfile)
  | noPhase htarget _ _ hphase =>
      cases h
      refine Or.inl ⟨fun hadd => ?_, rfl, by simp⟩
      obtain ⟨phase, hphase'⟩ := hadd.phase
      simp [phaseOf?, htarget, hphase] at hphase'
  | @passed _ group phase htarget hgroup hfile hphase =>
      obtain ⟨_, _, -, -, hgroupObject⟩ := mainGroup?_eq_some_iff.mp hgroup
      obtain ⟨_, hphaseObject⟩ :=
        exists_object_of_isSourcesPhase (isSourcesPhase_of_sourcesPhase? hphase)
      obtain ⟨hlist, hnew⟩ := outcome_placeSource_eq_error hgroupObject hphaseObject hfile h
      have hphaseOf : p.phaseOf? target = some phase := by simp [phaseOf?, htarget, hphase]
      exact Or.inr ⟨⟨⟨phase, hphaseOf⟩, ⟨group, hgroup⟩, hfile⟩, hnew, hlist⟩

end Failure

/-- A parsed project is told by its text among those that edits can reach. -/
theorem Reachable.print_eq_iff {digest : Digest} {p q : Project} (hp : Reachable digest p)
    (hq : Reachable digest q) : q.print = p.print ↔ q = p := by
  constructor
  · intro h
    have hq' := hq.loadable.parse_print
    rw [h, hp.loadable.parse_print] at hq'
    exact (Except.ok.inj hq').symm
  · rintro rfl
    rfl

/-- A failed addition to a parsed project leaves it as it was, with the same text, exactly when one
of the checks fails, and the failure tells this: it is about something that should be a list
otherwise. -/
theorem addSource_failure_tfae {digest : Digest} {text target : String} {file : FileReference}
    {p q : Project} {failure : Failure} (hp : parse text = .ok p)
    (hfree : HasFreeId digest (referencePurpose file) p.ids)
    (h : (addSource digest target file).outcome p = (.error failure, q)) :
    [q = p, q.print = p.print, ¬ p.Addable target file,
      ∀ key owner, failure ≠ .invalidFileReference (.notList key owner)].TFAE := by
  have hreachable : Reachable digest p := .parsed hp
  have hq : Reachable digest q := by
    have hedited := hreachable.edited (.addSource target file)
    rwa [Operation.apply, Edit.after, h] at hedited
  tfae_have 2 ↔ 1 := hreachable.print_eq_iff hq
  rcases outcome_addSource_eq_error h with ⟨hadd, hsame, hnot⟩ | ⟨hadd, hnew, key, owner, hlist⟩
  · tfae_have 1 ↔ 3 := iff_of_true hsame hadd
    tfae_have 1 ↔ 4 := iff_of_true hsame hnot
    tfae_finish
  · have hchanged : q ≠ p := by
      rintro rfl
      exact freshId_not_mem hfree hnew
    tfae_have 1 ↔ 3 := iff_of_false hchanged (not_not.mpr hadd)
    tfae_have 1 ↔ 4 := iff_of_false hchanged fun hnot => hnot key owner hlist
    tfae_finish

/-! ### An addition that ends half-way -/

/-- A file that passes all checks of a project whose phase has files that are no list. -/
def strandedFile : FileReference := ⟨"a.m", "a.m", "sourcecode.c.objc"⟩

/-- What the addition of that file leaves behind: two new objects and a new child of the group. -/
def strandedFiles : Project :=
  let reference := "6E476EB6C80BA6EF51392294"
  let buildFile := "49B57949B402CF62A087B6AD"
  (((unlistedFiles.setObject reference (referenceObject strandedFile)).setObject "G"
    ⟨[("children", .array [.string reference])]⟩).setObject buildFile (buildFileObject reference))

theorem parse_unlistedFilesText : parse unlistedFilesText = .ok unlistedFiles := by
  decide +kernel

theorem outcome_addSource_strandedFile :
    (addSource .sha256 "App" strandedFile).outcome unlistedFiles =
      (.error (.invalidFileReference (.notList "files" "S")), strandedFiles) := by
  decide +kernel

theorem addSource_failure_tfae_of_unlistedFiles :
    parse unlistedFilesText = .ok unlistedFiles ∧ unlistedFiles.Addable "App" strandedFile ∧
      HasFreeId .sha256 (referencePurpose strandedFile) unlistedFiles.ids ∧
      (addSource .sha256 "App" strandedFile).outcome unlistedFiles =
        (.error (.invalidFileReference (.notList "files" "S")), strandedFiles) ∧
      strandedFiles ≠ unlistedFiles := by
  have hadd : unlistedFiles.Addable "App" strandedFile :=
    ⟨⟨"S", by decide +kernel⟩, ⟨"G", by decide +kernel⟩, rfl⟩
  have hfree : HasFreeId .sha256 (referencePurpose strandedFile) unlistedFiles.ids :=
    ⟨0, by decide, by decide +kernel⟩
  have hiff := (addSource_failure_tfae parse_unlistedFilesText hfree
    outcome_addSource_strandedFile).out 0 2 rfl rfl
  exact ⟨parse_unlistedFilesText, hadd, hfree, outcome_addSource_strandedFile,
    fun hsame => hiff.mp hsame hadd⟩

/-- An addition can fail and leave a project with another text. -/
theorem exists_failed_addition_print_ne :
    ∃ p q failure, parse unlistedFilesText = .ok p ∧
      (addSource .sha256 "App" strandedFile).outcome p = (.error failure, q) ∧
      q.print ≠ p.print := by
  refine ⟨_, _, _, parse_unlistedFilesText, outcome_addSource_strandedFile, fun hprint => ?_⟩
  have hp : Reachable .sha256 unlistedFiles := .parsed parse_unlistedFilesText
  have hq := hp.edited (.addSource "App" strandedFile)
  rw [Operation.apply, Edit.after, outcome_addSource_strandedFile] at hq
  exact absurd ((hp.print_eq_iff hq).mp hprint) (by decide +kernel)

end BridgingHeader.Project
