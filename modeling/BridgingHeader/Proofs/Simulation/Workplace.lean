import BridgingHeader.Proofs.Simulation.Preservation

/-!
# Work beside a path

A run makes entries under a few names in one directory. Wherever it stops, the machine is as it was
at the start but for what stands under these names, and removing them one after the other leaves
nothing behind, as long as the way to the directory does not lead through them.
-/

namespace BridgingHeader

open FileTree (Plain Clearable Changed IsName HasWay Spares placeOf removedPlace origin relative)

/-- A machine on which entries with some names can be made and removed in one directory. -/
structure Site (start : Machine) (base : Path) (names : List String) : Prop where
  way : HasWay start.tree start.directory base
  spares : ∀ name ∈ names, Spares start.directory base name
  isName : ∀ name ∈ names, IsName name
  /-- A directory that is named from the working directory does not move with it. -/
  anchored : base.isAbsolute = true ∨ removedPlace start.directory = start.directory

/-- A machine is as another one was at the start, but for what stands under some names in one
directory. -/
structure Tidy (start : Machine) (base : Path) (names : List String) (machine : Machine) : Prop where
  plain : Plain machine.tree
  clearable : Clearable machine.tree
  free : ∀ place, machine.held place = false
  programs : machine.programs = start.programs
  environment : machine.environment = start.environment
  stdout : machine.stdout = start.stdout
  directory : machine.directory = start.directory ∨ machine.directory = removedPlace start.directory
  nodes : ∀ place, (∀ name ∈ names, ¬ placeOf start.directory base ++ [name] <+: place) →
    machine.tree.node? place = start.tree.node? place

/-- Nothing is at a path. -/
def Machine.Lacks (machine : Machine) (path : Path) : Prop :=
  ∃ cause, machine.find .entry path = .error cause

namespace Tidy

variable {start machine : Machine} {base : Path} {names all : List String} {name : String}

theorem refl (hplain : Plain start.tree) (hclear : Clearable start.tree)
    (hfree : ∀ place, start.held place = false) : Tidy start base names start :=
  ⟨hplain, hclear, hfree, rfl, rfl, rfl, .inl rfl, fun _ _ => rfl⟩

theorem mono {more : List String} (h : Tidy start base names machine)
    (hsub : ∀ name ∈ names, name ∈ more) : Tidy start base more machine :=
  { h with
    nodes := fun place hplace => h.nodes place fun name hname => hplace name (hsub name hname) }

theorem origin_eq (h : Tidy start base names machine) (hsite : Site start base all) :
    origin machine.directory base = origin start.directory base := by
  rcases hsite.anchored with habsolute | hremoved
  · rw [origin, origin, if_pos habsolute, if_pos habsolute]
  · rcases h.directory with hsame | hgone
    · rw [hsame]
    · rw [hgone, hremoved]

theorem placeOf_eq (h : Tidy start base names machine) (hsite : Site start base all) :
    placeOf machine.directory base = placeOf start.directory base := by
  rw [placeOf, placeOf, h.origin_eq hsite]

/-- The working directory stays where it is, unless it is removed. -/
theorem directory_withTree (h : Tidy start base names machine) (tree : FileTree) :
    (machine.withTree tree).directory = start.directory ∨
      (machine.withTree tree).directory = removedPlace start.directory := by
  have hdirectory : (machine.withTree tree).directory = if tree.isDirectoryAt machine.directory
    then machine.directory else removedPlace machine.directory := rfl
  rw [hdirectory]
  split
  · exact h.directory
  · right
    rcases h.directory with hsame | hgone
    · rw [hsame]
    · rw [hgone, removedPlace, removedPlace, List.dropLast_concat]

/-- The directory can still be reached. -/
theorem way (h : Tidy start base names machine) (hsite : Site start base all)
    (hsub : ∀ name ∈ names, name ∈ all) : HasWay machine.tree machine.directory base := by
  have hway : HasWay machine.tree start.directory base := hsite.way.congr fun front hfront =>
    h.nodes _ fun name hname => hsite.spares name (hsub name hname) front hfront
  exact hway.of_origin_eq (h.origin_eq hsite)

theorem spares (h : Tidy start base names machine) (hsite : Site start base all)
    (hname : name ∈ all) : Spares machine.directory base name := by
  intro front hfront
  rw [h.origin_eq hsite, h.placeOf_eq hsite]
  exact hsite.spares name hname front hfront

theorem withTree (h : Tidy start base names machine) {tree : FileTree} {changed : Place}
    (htree : Changed machine.tree changed tree) (hname : name ∈ names)
    (hchanged : placeOf start.directory base ++ [name] <+: changed) :
    Tidy start base names (machine.withTree tree) where
  plain := htree.plain
  clearable := htree.clearable h.clearable
  free := h.free
  programs := h.programs
  environment := h.environment
  stdout := h.stdout
  directory := h.directory_withTree tree
  nodes place hplace := by
    rw [← h.nodes place hplace]
    exact htree.entries place fun hprefix => hplace name hname (hchanged.trans hprefix)

/-- What is beside the entries does not notice changes under tracked names. -/
theorem bears (hsite : Site start base all) (hsub : ∀ name ∈ names, name ∈ all)
    (hname : name ∈ names) : Bears (Tidy start base names) (base.join ⟨name⟩) where
  plain _ h := h.plain
  withTree machine tree below h htree := by
    refine h.withTree htree hname ?_
    rw [FileTree.placeOf_join_name _ _ (hsite.isName name (hsub name hname)), h.placeOf_eq hsite]
    exact List.prefix_append _ below

/-- Directories are only made under a tracked name. -/
theorem makeAllDirectories (hsite : Site start base all) (hsub : ∀ name ∈ names, name ∈ all)
    (hname : name ∈ names) {path : Path} (hpath : Under (base.join ⟨name⟩) path) :
    Preserves (Tidy start base names)
      (Files.makeAllDirectories path : Task Simulation Unit).run := by
  have hisName := hsite.isName name (hsub name hname)
  refine .run_at (.makeDirectories (R := Under (base.join ⟨name⟩))
    (fun path hpath => (bears hsite hsub hname).makeDirectory hpath)
    (fun path parent machine hpath h hmissing hparent => ?_) _ hpath)
  refine (hpath.parent? hisName hparent).resolve_left fun hend => ?_
  have htext : path.text ≠ "" := by
    intro hempty
    refine FileTree.text_join_ne_empty base hisName ?_
    rw [← hend, FileTree.withoutEndSlashes, hempty]
    rfl
  refine (h.way hsite hsub).makeDirectory_ne_noEntry h.plain hisName htext hend ?_
  cases hmade : machine.tree.makeDirectory machine.directory path with
  | ok tree =>
    simp only [Host.makeDirectory, Machine.change, hmade] at hmissing
    cases hmissing
  | error cause =>
    simp only [Host.makeDirectory, Machine.change, hmade] at hmissing
    cases hmissing
    rfl

theorem sandbox (hsite : Site start base all) (hsub : ∀ name ∈ names, name ∈ all)
    (hname : name ∈ names) : Sandbox (Tidy start base names) (base.join ⟨name⟩) := by
  refine (bears hsite hsub hname).sandbox (fun _ => makeAllDirectories hsite hsub hname) ?_
  have hparent : (Project.descriptorOf (base.join ⟨name⟩)).parent? = some (base.join ⟨name⟩) := by
    have hisName := hsite.isName name (hsub name hname)
    exact Path.parent?_join (FileTree.getLast?_segments_join base hisName) hisName
      isName_descriptor
  rw [Files.ensureParent, Files.namedParent?, hparent]
  split
  · next parent hnamed =>
    cases (Option.filter_eq_some_iff.mp hnamed).1
    exact .ensureDirectory (makeAllDirectories hsite hsub hname (.inl rfl))
  · exact .pure _

end Tidy

/-- Nothing is made at a path that is refused. -/
theorem Preserves.makeDirectories_of_refusal {I : Machine → Prop} {path : Path} {cause : Cause}
    (h : FileTree.refusal? path = some cause) (depth : Nat) :
    Preserves I (Files.makeDirectories depth path) := by
  cases depth with
  | zero => exact .pure _
  | succ depth =>
    unfold Files.makeDirectories
    split
    · exact .pure _
    next htext =>
    have hmade : ∀ machine, (Host.makeDirectory path : Simulation _) machine =
        (.error cause, machine) := fun machine => by
      simp only [Host.makeDirectory, Machine.change, FileTree.makeDirectory, FileTree.locate, h]
      rfl
    refine .bind_of (Q := fun result => result = .error cause)
      (.of_reads fun machine => by rw [hmade]) (fun machine _ => by rw [hmade])
      fun result hresult => ?_
    subst hresult
    split
    · exact .pure _
    · next hcause =>
      cases hcause
      exact absurd h (FileTree.refusal?_ne_noEntry htext)
    · refine (Preserves.isDirectory path).bind fun found => ?_
      split <;> exact .pure _

/-- Nothing has to be made at a path if it leads somewhere whenever it is not refused. -/
theorem Preserves.ensureDirectory_of_exists {I : Machine → Prop} {path : Path}
    (h : ∀ machine, I machine → (∃ cause, FileTree.refusal? path = some cause) ∨
      ∃ found, machine.find .target path = .ok found) :
    Preserves I (Files.ensureDirectory path : Task Simulation Unit).run := by
  cases hrefusal : FileTree.refusal? path with
  | some cause => exact .ensureDirectory (.run_at (.makeDirectories_of_refusal hrefusal _))
  | none =>
    refine .run_liftM_bind (Q := fun found => found = true) (Preserves.exist path)
      (fun machine hI => ?_) fun found hfound => ?_
    · rcases h machine hI with ⟨cause, hrefused⟩ | ⟨found, hfind⟩
      · rw [hrefusal] at hrefused
        cases hrefused
      · change ((machine.find .target path).map _).isOk = true
        rw [hfind]
        rfl
    · rw [hfound, if_pos rfl]
      exact .pure _

/-- Nothing has to be made before a file is written where a way leads. -/
theorem Preserves.ensureParent_of_hasWay {I : Machine → Prop} {base : Path} {name : String}
    (hname : IsName name) (h : ∀ machine, I machine →
      Plain machine.tree ∧ HasWay machine.tree machine.directory base) :
    Preserves I (Files.ensureParent (base.join ⟨name⟩) : Task Simulation Unit).run := by
  unfold Files.ensureParent
  split
  · next parent hnamed =>
    refine .ensureDirectory_of_exists fun machine hI => ?_
    obtain ⟨hplain, hway⟩ := h machine hI
    exact hway.parent_cases hplain hname (Option.filter_eq_some_iff.mp hnamed).1
  · exact .pure _

/-! ### Removing -/

section Removing

variable {machine : Machine} {path : Path}

theorem run_linkKind (path : Path) (machine : Machine) :
    (liftM (Host.linkKind path : Simulation _) : Task Simulation _).run machine =
      (.ok ((machine.find .entry path).map fun found => found.2.kind), machine) := rfl

theorem run_kind (path : Path) (machine : Machine) :
    (liftM (Host.kind path : Simulation _) : Task Simulation _).run machine =
      (.ok ((machine.find .target path).map fun found => found.2.kind), machine) := rfl

theorem run_isFile (path : Path) (machine : Machine) :
    (liftM (Files.isFile path : Simulation Bool) : Task Simulation Bool).run machine =
      (.ok ((Files.isFile path : Simulation Bool) machine).1, machine) := by
  rw [run_liftM]
  exact congrArg _ (Preserves.isFile (I := (· = machine)) path machine rfl)

theorem removeIfPresent_of_error {cause : Cause} (h : machine.find .entry path = .error cause) :
    (Files.removeIfPresent path : Task Simulation Unit).run machine =
      (if cause = .noEntry then .ok () else .error (.io path cause), machine) := by
  rw [Files.removeIfPresent, run_bind_of_ok (run_linkKind path machine), h]
  cases cause <;> rfl

theorem holds_eq_false {place : Place} {sub : FileTree}
    (h : machine.find .entry path = .ok (place, sub)) (hfree : ∀ place, machine.held place = false) :
    machine.holds path = false := by
  simp only [Machine.holds, h, hfree]

theorem removeIfPresent_of_directory {place : Place} {sub : FileTree}
    (h : machine.find .entry path = .ok (place, sub)) (hdirectory : sub.isDirectory = true)
    (hfree : ∀ place, machine.held place = false) :
    ((Files.removeIfPresent path : Task Simulation Unit).run machine).2 =
      machine.withTree (machine.tree.removeTree machine.directory path).1 := by
  have hkind : sub.kind = .directory := by simpa [FileTree.isDirectory] using hdirectory
  rw [Files.removeIfPresent, run_bind_of_ok (run_linkKind path machine), h, Except.map, hkind]
  change ((Host.removeTree path : Simulation _) machine).2 = _
  simp only [Host.removeTree, holds_eq_false h hfree]
  rfl

theorem removeIfPresent_of_file {place : Place} {sub tree : FileTree}
    (h : machine.find .entry path = .ok (place, sub)) (hfile : sub.isDirectory = false)
    (hfree : ∀ place, machine.held place = false)
    (hremoved : machine.tree.removeFile machine.directory path = .ok tree) :
    ((Files.removeIfPresent path : Task Simulation Unit).run machine).2 = machine.withTree tree := by
  have hrun : (Files.removeIfPresent path : Task Simulation Unit).run machine =
      (Task.at path (Host.removeFile path : Simulation _)).run machine := by
    rw [Files.removeIfPresent, run_bind_of_ok (run_linkKind path machine), h]
    cases sub with
    | directory _ _ => cases hfile
    | file _ _ => rfl
    | link _ => rfl
  rw [hrun]
  change ((Host.removeFile path : Simulation _) machine).2 = _
  simp only [Host.removeFile, holds_eq_false h hfree, Machine.change, hremoved]
  rfl

end Removing

namespace Tidy

variable {start machine : Machine} {base : Path} {names all : List String} {name : String}

/-- The machine is a place to work from, too. -/
theorem site (h : Tidy start base names machine) (hsite : Site start base all)
    (hsub : ∀ name ∈ names, name ∈ all) : Site machine base all where
  way := h.way hsite hsub
  spares _ hname := h.spares hsite hname
  isName := hsite.isName
  anchored := by
    refine hsite.anchored.imp_right fun hremoved => ?_
    rcases h.directory with hsame | hgone
    · rw [hsame, hremoved]
    · rw [hgone, hremoved, hremoved]

theorem lacks_iff (h : Tidy start base names machine) (hsite : Site start base all)
    (hsub : ∀ name ∈ names, name ∈ all) (hname : name ∈ all) :
    machine.Lacks (base.join ⟨name⟩) ↔
      FileTree.refusal? (base.join ⟨name⟩) ≠ none ∨ FileTree.nameLimit < name.utf8ByteSize ∨
        machine.tree.node? (placeOf start.directory base ++ [name]) = none := by
  rw [← h.placeOf_eq hsite]
  exact (h.way hsite hsub).find_error_iff h.plain (hsite.isName name hname) .entry

/-- What a name stood for is gone if nothing stands there any more. -/
theorem lacks_of_node? (h : Tidy start base names machine) (hsite : Site start base all)
    (hsub : ∀ name ∈ names, name ∈ all) (hname : name ∈ all)
    (hnone : machine.tree.get? (placeOf start.directory base ++ [name]) = none) :
    machine.Lacks (base.join ⟨name⟩) := by
  refine (h.lacks_iff hsite hsub hname).mpr (.inr (.inr ?_))
  rw [FileTree.node?, hnone]
  rfl

/-- What was not there at the start and is not tracked is not there. -/
theorem lacks_of_not_mem (hsite : Site start base all) (hsub : ∀ name ∈ names, name ∈ all)
    (h : Tidy start base names machine) (hstart : Tidy start base [] start) (hname : name ∈ all)
    (hnot : name ∉ names) (hlacks : start.Lacks (base.join ⟨name⟩)) :
    machine.Lacks (base.join ⟨name⟩) := by
  rw [h.lacks_iff hsite hsub hname, h.nodes]
  · exact (hstart.lacks_iff hsite (by simp) hname).mp hlacks
  · intro changed hchanged hprefix
    rw [List.prefix_append_right_inj] at hprefix
    have hsame : [changed] = [name] := hprefix.eq_of_length rfl
    exact hnot (List.singleton_inj.mp hsame ▸ hchanged)

section Removed

variable (hsite : Site start base all) (h : Tidy start base [] start) (hname : name ∈ all)
include hsite h hname

/-- The machine after an entry was removed. -/
theorem removed : Tidy start base [name]
    ((Files.removeIfPresent (base.join ⟨name⟩) : Task Simulation Unit).run start).2 :=
  (bears hsite (by simpa using hname) (by simp)).removeIfPresent start (h.mono nofun)

/-- Nothing is left where an entry was removed. -/
theorem lacks_removed : ((Files.removeIfPresent (base.join ⟨name⟩) :
    Task Simulation Unit).run start).2.Lacks (base.join ⟨name⟩) := by
  have hisName := hsite.isName name hname
  have hremoved := removed hsite h hname
  have hsub : ∀ other ∈ [name], other ∈ all := by simpa using hname
  cases hfind : start.find .entry (base.join ⟨name⟩) with
  | error cause =>
    rw [removeIfPresent_of_error hfind]
    exact ⟨cause, hfind⟩
  | ok found =>
    obtain ⟨place, sub⟩ := found
    refine hremoved.lacks_of_node? hsite hsub hname ?_
    by_cases hdirectory : sub.isDirectory = true
    · obtain ⟨tree, htree, hnone⟩ := hsite.way.removeTree_eq_ok h.plain h.clearable hisName
        (hsite.spares name hname) hfind hdirectory
      rw [removeIfPresent_of_directory hfind hdirectory h.free, htree]
      exact hnone
    · have hfile : sub.isDirectory = false := by simpa using hdirectory
      obtain ⟨tree, htree, hnone⟩ :=
        hsite.way.removeFile_eq_ok h.plain h.clearable hisName hfind hfile
      rw [removeIfPresent_of_file hfind hfile h.free htree]
      exact hnone

/-- What is not there does not appear when another entry is removed. -/
theorem lacks_removed_of_lacks {other : String} (hother : other ∈ all)
    (hlacks : start.Lacks (base.join ⟨other⟩)) : ((Files.removeIfPresent (base.join ⟨name⟩) :
      Task Simulation Unit).run start).2.Lacks (base.join ⟨other⟩) := by
  by_cases heq : other = name
  · rw [heq]
    exact lacks_removed hsite h hname
  · exact lacks_of_not_mem hsite (by simpa using hname) (removed hsite h hname) h hother
      (by simpa using heq) hlacks

end Removed

/-- After removing some of the tracked entries, one after the other, none of them is there, and
nothing has appeared. -/
theorem removeAll (hsite : Site start base all) (hsub : ∀ name ∈ names, name ∈ all)
    {removed : List String} (hremoved : ∀ name ∈ removed, name ∈ names)
    (h : Tidy start base names machine) :
    let ended := (((removed.map fun name => base.join ⟨name⟩).forM Temporaries.removeQuietly :
      Simulation PUnit) machine).2
    Tidy start base names ended ∧ (∀ name ∈ removed, ended.Lacks (base.join ⟨name⟩)) ∧
      ∀ name ∈ all, machine.Lacks (base.join ⟨name⟩) → ended.Lacks (base.join ⟨name⟩) := by
  induction removed generalizing machine with
  | nil => exact ⟨h, nofun, fun _ _ hlacks => hlacks⟩
  | cons name rest ih =>
    have hname := hremoved name List.mem_cons_self
    let after := ((Files.removeIfPresent (base.join ⟨name⟩) : Task Simulation Unit).run machine).2
    have hafter : Tidy start base names after :=
      (bears hsite hsub hname).removeIfPresent machine h
    have hhere := h.site hsite hsub
    have hrefl : Tidy machine base [] machine := .refl h.plain h.clearable h.free
    obtain ⟨hended, hgone, hkept⟩ := ih (fun n hn => hremoved n (List.mem_cons_of_mem _ hn)) hafter
    refine ⟨hended, fun other hother => ?_, fun other hother hlacks => ?_⟩
    · rcases List.mem_cons.mp hother with rfl | hother
      · exact hkept _ (hsub _ hname) (lacks_removed hhere hrefl (hsub _ hname))
      · exact hgone other hother
    · exact hkept other hother (lacks_removed_of_lacks hhere hrefl (hsub _ hname) hother hlacks)

end Tidy

/-! ### Out of reach -/

theorem run_within_of_error {σ α : Type} {context : String} {task : Task (StateM σ) α} {s s' : σ}
    {failure : Failure} (h : task.run s = (.error failure, s')) :
    (task.toWork.within context).run s =
      (.error ((Report.ofFailure failure).within context), s') := by
  rw [run_toWork_within, h]
  rfl

theorem isFile_of_error {machine : Machine} {path : Path} {cause : Cause}
    (h : machine.find .target path = .error cause) :
    (Files.isFile path : Simulation Bool) machine = (false, machine) := by
  have hkind : (Host.kind path : Simulation _) machine = (.error cause, machine) := by
    simp only [Host.kind, h]
    rfl
  simp only [Files.isFile, bind, StateT.bind, hkind]
  rfl

theorem copyAll_of_error {machine : Machine} {source : Path} (target : Path)
    (h : ∀ aim ≠ .output, ∃ other, machine.find aim source = .error other) :
    ∃ failure, (Files.copyAll source target : Task Simulation Unit).run machine =
      (.error failure, machine) := by
  obtain ⟨cause, htarget⟩ := h .target (by decide)
  obtain ⟨other, hentry⟩ := h .entry (by decide)
  refine ⟨.io source (.walking source other), ?_⟩
  rw [Files.copyAll, run_bind_of_ok (run_isFile source machine), isFile_of_error htarget,
    if_neg (by simp), run_bind_of_ok (run_linkKind source machine), hentry]
  rfl

/-- A bundle is not cloned to a path that leads nowhere, unless nothing is there and something can
be copied. -/
theorem clone_of_error {machine : Machine} {source target : Path} {cause : Cause}
    (htarget : machine.find .entry target = .error cause)
    (hcopy : cause = .noEntry → ∃ failure,
      (Files.copyAll source target : Task Simulation Unit).run machine =
        (.error failure, machine)) :
    ∃ report, (Project.clone source target : Work Simulation Unit).run machine =
      (.error report, machine) := by
  have hremoved := removeIfPresent_of_error htarget
  by_cases hmissing : cause = .noEntry
  · obtain ⟨failure, hcopied⟩ := hcopy hmissing
    rw [if_pos hmissing] at hremoved
    exact ⟨_, run_within_of_error ((run_bind_of_ok hremoved _).trans (run_bind_of_error hcopied _))⟩
  · rw [if_neg hmissing] at hremoved
    exact ⟨_, run_within_of_error (run_bind_of_error hremoved _)⟩

end BridgingHeader
