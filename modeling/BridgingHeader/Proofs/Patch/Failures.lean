import BridgingHeader.Proofs.Patch.Confinement
import BridgingHeader.Proofs.Patch.Original

/-!
# Failed patches

A patch that fails leaves all files as they were. In place, nothing is changed before the descriptor
is written. At another path, whatever was made of the clone stands where that path leads, and it is
removed from there, unless nothing could be made at that path in the first place.
-/

namespace BridgingHeader

open FileTree (Clearable HasWay Plain origin placeOf steps)

/-! ### In place -/

/-- Work that leaves a machine as it is if it fails there. -/
def FailsCleanly {ε α : Type} (start : Machine) (x : ExceptT ε Simulation α) : Prop :=
  ∀ e, (x.run start).1 = .error e → (x.run start).2 = start

namespace FailsCleanly

variable {ε α β : Type} {start : Machine}

/-- What follows reading may rely on what was read. -/
theorem bind {x : ExceptT ε Simulation α} {f : α → ExceptT ε Simulation β}
    (hx : (x.run start).2 = start) (hf : ∀ a, (x.run start).1 = .ok a → FailsCleanly start (f a)) :
    FailsCleanly start (x >>= f) := by
  intro e he
  rcases hrun : x.run start with ⟨e' | a, after⟩
  · rw [hrun] at hx
    rw [run_bind_of_error hrun]
    exact hx
  · rw [hrun] at hx hf
    obtain rfl : after = start := hx
    rw [run_bind_of_ok hrun] at he ⊢
    exact hf a rfl e he

/-- Nothing fails any more after the last step. -/
theorem bind_pure {x : ExceptT ε Simulation α} (hx : FailsCleanly start x) (f : α → β) :
    FailsCleanly start (x >>= fun a => pure (f a)) := by
  intro e he
  rcases hrun : x.run start with ⟨e' | a, after⟩
  · rw [run_bind_of_error hrun]
    have hafter := hx e' (congrArg Prod.fst hrun)
    rwa [hrun] at hafter
  · rw [run_bind_of_ok hrun] at he
    cases he

theorem run_at_change (path : Path) (operation : FileTree → Place → Except Cause FileTree) :
    FailsCleanly start (Task.at path (Machine.change operation)) := by
  intro e he
  have hrun : (Task.at path (Machine.change operation)).run start =
      ((Machine.change operation start).1.mapError (Failure.io path),
        (Machine.change operation start).2) := rfl
  rw [hrun] at he ⊢
  unfold Machine.change at he ⊢
  split at he
  · cases he
  · rfl

theorem within {task : Task Simulation α} (h : FailsCleanly start task) (context : String) :
    FailsCleanly start (task.toWork.within context) := by
  intro e he
  rw [run_toWork_within] at he ⊢
  cases hrun : (task.run start).1 with
  | error failure => exact h failure hrun
  | ok a =>
    rw [hrun] at he
    cases he

end FailsCleanly

namespace Project

variable {start : Machine} {bundle : Path} {p : Project}

/-- The descriptor of a project that was loaded stands where there is a way. -/
theorem hasWay_of_load (hplain : Plain start.tree)
    (h : ((load (m := Simulation) bundle).run start).1 = .ok p) :
    HasWay start.tree start.directory bundle := by
  obtain ⟨⟨contents, hread⟩, -⟩ := exists_read_of_load_ok h
  obtain ⟨_, hopen, -⟩ := bind_eq_ok_iff.mp hread
  obtain ⟨_, hfind, -⟩ := bind_eq_ok_iff.mp hopen
  obtain ⟨_, hresolve, -⟩ := bind_eq_ok_iff.mp hfind
  exact (HasWay.of_resolve hplain isName_descriptor hresolve).1

/-- Saving a project where there is a way does nothing but write the descriptor. -/
theorem failsCleanly_save (hplain : Plain start.tree)
    (hway : HasWay start.tree start.directory bundle) :
    FailsCleanly start (save (m := Simulation) p bundle) := by
  have hbundle : Preserves (· = start)
      (Files.ensureDirectory bundle : Task Simulation Unit).run := by
    refine .ensureDirectory_of_exists ?_
    rintro machine rfl
    exact FileTree.find_cases_of_pass hplain hway.passed
  have hparent : Preserves (· = start)
      (Files.ensureParent (descriptorOf bundle) : Task Simulation Unit).run := by
    refine .ensureParent_of_hasWay isName_descriptor ?_
    rintro machine rfl
    exact ⟨hplain, hway⟩
  refine .bind (hbundle start rfl) fun _ _ => .bind_pure (.bind (hparent start rfl) fun _ _ => ?_) _
  exact .run_at_change _ _

/-- A source that is not registered in a project leaves it as it was. -/
theorem failsCleanly_registerSource (digest : Digest) (bundle : Path) (target : String)
    (file : FileReference) (hplain : Plain start.tree) :
    FailsCleanly start (registerSource (m := Simulation) digest bundle target file bundle) := by
  intro e he
  cases hload : ((load (m := Simulation) bundle).run start).1 with
  | error failure => rw [registerSource_of_load_error hload]
  | ok p =>
    rw [registerSource_of_load_ok hload] at he ⊢
    rcases hadd : (addSource digest target file).outcome p with ⟨failure | added, q⟩
    · rfl
    · rw [hadd] at he
      have hsave := (failsCleanly_save (p := q) hplain (hasWay_of_load hplain hload)).within
        s!"cannot save project to {bundle.text}"
      exact hsave.bind_pure (fun _ => added) e he

end Project

/-! ### Failed patches -/

/-- A path starts in a directory and leads to one. The empty path leads to where it starts. -/
def Machine.HasDirectory (machine : Machine) (path : Path) : Prop :=
  machine.tree.isDirectoryAt (origin machine.directory path) = true ∧
    (path.text = "" ∨ ∃ place sub,
      machine.find .target path = .ok (place, sub) ∧ sub.isDirectory = true)

theorem Machine.HasDirectory.pass {machine : Machine} {path : Path} (h : machine.HasDirectory path)
    (hplain : Plain machine.tree) :
    machine.tree.pass (origin machine.directory path) (steps path) =
      .ok (placeOf machine.directory path) := by
  obtain ⟨-, hempty | ⟨place, sub, hfind, hsub⟩⟩ := h
  · have hsteps : steps path = [] := by
      rw [steps, hempty]
      rfl
    rw [placeOf, hsteps]
    rfl
  · exact FileTree.pass_of_find hplain (by decide) hfind hsub

/-- If a path leads nowhere although its parent is there, then nothing can be made there at all, or
an entry can be made and removed. -/
theorem Machine.HasDirectory.cases_of_lacks {machine : Machine} {output parent : Path}
    (h : machine.HasDirectory parent) (hplain : Plain machine.tree)
    (hparent : output.parent? = some parent) (hlacks : machine.Lacks output) :
    (∃ cause, machine.find .entry output = .error cause ∧ cause ≠ .noEntry) ∨
      machine.tree.Beyond machine.directory output ∨
      ∃ base name, Opening machine output base name := by
  obtain ⟨cause, hfind⟩ := hlacks
  by_cases hmissing : cause = .noEntry
  · subst hmissing
    have htext : output.text ≠ "" := Path.text_ne_empty_of_parent? hparent
    obtain ⟨haccepted, hfollow⟩ := FileTree.endsNowhere_of_find htext hfind
    obtain ⟨front, name, after, hsteps, hgap⟩ :=
      FileTree.exists_gap hplain hparent h.1 (h.pass hplain) hfollow
    by_cases hafter : after = []
    · rw [hafter] at hsteps
      obtain ⟨base, hentry, hway, hnone⟩ := hgap.exists_isEntry hsteps haccepted
      refine .inr (.inr ⟨base, name,
        { hentry with way := hway, isDirectoryAt := ?_, missing := hnone }⟩)
      rw [← hentry.origin_eq, origin, ← (Path.steps_parent?_prefix hparent).1]
      exact h.1
    · exact .inr (.inl ⟨front, name, after, hgap, hsteps, hafter⟩)
  · exact .inl ⟨cause, hfind, hmissing⟩

namespace Project

/-- A patch that failed did so in place, or it removed what stood at the output in the end. -/
theorem exists_of_patch_error {digest : Digest} {options : PatchOptions} {output : Path}
    {machine after : Machine} {report : Report}
    (houtput : options.output.getD options.project = output)
    (h : (patch (m := Simulation) digest options).run machine = (.error report, after)) :
    (samePlace (m := Simulation) output options.project machine).1 = true ∧
      (addition digest options output).run machine = (.error report, after) ∨
    (samePlace (m := Simulation) output options.project machine).1 = false ∧ ∃ left,
      after = ((Files.removeIfPresent output : Task Simulation Unit).run left).2 ∧
      ((clone (m := Simulation) options.project output).run machine = (.error report, left) ∨
        ∃ made, (clone (m := Simulation) options.project output).run machine = (.ok (), made) ∧
          (addition digest options output).run made = (.error report, left)) := by
  rw [run_patch digest houtput] at h
  cases hsame : (samePlace (m := Simulation) output options.project machine).1 with
  | true =>
    rw [hsame, if_pos rfl] at h
    exact .inl ⟨rfl, h⟩
  | false =>
    rw [hsame, if_neg Bool.false_ne_true] at h
    refine .inr ⟨rfl, ?_⟩
    rcases hclone : (clone (m := Simulation) options.project output).run machine with
      ⟨failure | ⟨⟩, made⟩
    · rw [hclone] at h
      cases h
      exact ⟨made, rfl, .inl rfl⟩
    · rw [hclone] at h
      rcases hadded : (addition digest options output).run made with ⟨failure | added, left⟩
      · simp only [hadded] at h
        cases h
        exact ⟨left, rfl, .inr ⟨made, rfl, hadded⟩⟩
      · simp only [hadded] at h
        cases h

theorem samePlace_self (path : Path) (machine : Machine) :
    (samePlace (m := Simulation) path path machine).1 = true := by
  have hreads : ((Files.normalize path : Simulation Path) machine).2 = machine :=
    Preserves.normalize (I := (· = machine)) path machine rfl
  change Path.equivalent ((Files.normalize path : Simulation Path) machine).1
    ((Files.normalize path : Simulation Path)
      ((Files.normalize path : Simulation Path) machine).2).1 = true
  rw [hreads, Path.equivalent]
  exact decide_eq_true rfl

/-- A patch in place that fails changes nothing. -/
theorem failsCleanly_addition (digest : Digest) (options : PatchOptions) (output : Path)
    {start : Machine} (hplain : Plain start.tree) :
    FailsCleanly start (addition digest options output) := by
  have hreference : Preserves (· = start) (referenceTo (m := Simulation) output options.source) :=
    .referenceTo output options.source
  refine .bind (hreference.liftM start rfl) fun file _ => ?_
  exact .bind_pure (failsCleanly_registerSource digest output options.target file hplain) _

/-- A patch that fails leaves all files as they were: in place, and also at another path if nothing
was there, the parent of that path was there, and whatever is there can be removed. -/
theorem failed_patch_leaves_no_trace (digest : Digest) (options : PatchOptions)
    {machine after : Machine} {report : Report} (hplain : Plain machine.tree)
    (hclear : Clearable machine.tree) (hfree : ∀ place, machine.held place = false)
    (houtput : ∀ output, options.output = some output → machine.Lacks output ∧
      ∃ parent, output.parent? = some parent ∧ machine.HasDirectory parent)
    (h : (patch (m := Simulation) digest options).run machine = (.error report, after))
    (place : Place) : after.tree.node? place = machine.tree.node? place := by
  obtain ⟨-, hrun⟩ | ⟨hother, left, rfl, hrun⟩ := exists_of_patch_error rfl h
  · have hclean := failsCleanly_addition digest options _ hplain _ (congrArg Prod.fst hrun)
    rw [hrun] at hclean
    rw [show after = machine from hclean]
  cases hoption : options.output with
  | none =>
    rw [hoption, Option.getD_none, samePlace_self] at hother
    cases hother
  | some output =>
    rw [hoption, Option.getD_some] at hrun
    rw [Option.getD_some]
    obtain ⟨hlacks, parent, hparent, hthere⟩ := houtput output hoption
    -- If nothing can be made at the output, then nothing is removed there, either.
    have hunmade : (∃ report, (clone (m := Simulation) options.project output).run machine =
        (.error report, machine)) →
        ((Files.removeIfPresent output : Task Simulation Unit).run left).2 = machine := by
      rintro ⟨report', hclone⟩
      obtain rfl : left = machine := by
        rcases hrun with hrun | ⟨made, hmade, -⟩
        · rw [hclone] at hrun
          exact (congrArg Prod.snd hrun).symm
        · rw [hclone] at hmade
          cases hmade
      obtain ⟨cause, hfind⟩ := hlacks
      rw [removeIfPresent_of_error hfind]
    rcases hthere.cases_of_lacks hplain hparent hlacks with ⟨cause, hfind, hcause⟩ | hbeyond |
      ⟨base, name, hopen⟩
    · rw [hunmade (clone_of_error hfind fun hmissing => absurd hmissing hcause)]
    · rw [hunmade (clone_of_beyond hplain hbeyond hparent (hthere.pass hplain) _)]
    · have hsandbox := Confined.sandbox hopen
      have hconfined := hopen.confined hplain hclear hfree
      have hleft : Confined machine output left := by
        have hclone := hsandbox.clone options.project machine hconfined
        rcases hrun with hrun | ⟨made, hmade, hrun⟩
        · rwa [hrun] at hclone
        · rw [hmade] at hclone
          have hadded := hsandbox.addition digest options made hclone
          rwa [hrun] at hadded
      obtain ⟨hremoved, hnone⟩ := Confined.removeIfPresent hopen hleft
      exact hremoved.node?_eq hopen hnone place

/-- A patch of the bundle in a directory for a target that it does not have. -/
def patchMissingTarget : PatchOptions :=
  { patchNested ⟨"work/Patched.xcodeproj"⟩ with target := "Tests" }

/-- The clone that was made beside the bundle is gone after the target was not found. -/
theorem failed_patch_leaves_no_trace_of_missing_target : ∃ after,
    (patch (m := Simulation) .sha256 patchMissingTarget).run nestedBundle =
      (.error ⟨["cannot add ../a.m to project\navailable targets: App"],
        .failed (.targetNotFound "Tests")⟩, after) ∧
    ∀ place, after.tree.node? place = nestedBundle.tree.node? place := by
  have hrun : ((patch (m := Simulation) .sha256 patchMissingTarget).run nestedBundle).1 =
      .error ⟨["cannot add ../a.m to project\navailable targets: App"],
        .failed (.targetNotFound "Tests")⟩ := by decide +kernel
  have hlacks : nestedBundle.Lacks ⟨"work/Patched.xcodeproj"⟩ := ⟨.noEntry, rfl⟩
  have hparent : nestedBundle.HasDirectory ⟨"work"⟩ := ⟨rfl, .inr ⟨["work"], _, rfl, rfl⟩⟩
  rcases hended : (patch (m := Simulation) .sha256 patchMissingTarget).run nestedBundle with
    ⟨result, after⟩
  rw [hended] at hrun
  subst hrun
  refine ⟨after, rfl, failed_patch_leaves_no_trace .sha256 patchMissingTarget plain_nestedBundle
    (FileTree.clearable_iff_emptied.mpr rfl) (fun _ => rfl) ?_ hended⟩
  rintro output houtput
  cases houtput
  exact ⟨hlacks, ⟨"work"⟩, by decide, hparent⟩

end Project

end BridgingHeader
