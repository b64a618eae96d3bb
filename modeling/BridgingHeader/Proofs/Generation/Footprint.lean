import BridgingHeader.Digest.Sha256
import BridgingHeader.Proofs.Generation.Calls
import BridgingHeader.Proofs.Simulation.Commands

/-!
# What a run leaves behind

Generating an interface makes up to three artifacts beside the project. Whatever the tools answer,
and wherever the run ends, the artifacts that it has come to are gone afterwards, everything else is
as it was, and only then is anything emitted. This takes that the way to the project does not lead
through an artifact, because clean-up walks it again for each of them.
-/

namespace BridgingHeader

open FileTree (Plain Clearable Changed IsName HasWay Spares placeOf removedPlace origin steps)
open Recording (resultOf)
open Temporaries (Tracking)
open Temporaries.Tracking

/-- The paths that a run uses for what it makes. -/
def Workspace.artifacts (workspace : Workspace) : List Path :=
  [workspace.clone, workspace.unit, workspace.header]

/-- The workspace whose artifacts have some names in one directory. -/
def Workspace.beside (base : Path) (clone unit header : String) : Workspace where
  clone := base.join ⟨clone⟩
  unit := base.join ⟨unit⟩
  header := base.join ⟨header⟩

/-- A machine has the programs of another one, and the same entries outside of some paths. -/
structure Machine.SameBeside (start : Machine) (paths : List Path) (machine : Machine) : Prop where
  programs : machine.programs = start.programs
  environment : machine.environment = start.environment
  directory : machine.directory = start.directory ∨ machine.directory = removedPlace start.directory
  nodes : ∀ place, (∀ path ∈ paths, ¬ placeOf start.directory path <+: place) →
    machine.tree.node? place = start.tree.node? place

namespace Pipeline

/-! ### Artifacts that are reached -/

section Reached

variable {σ : Type} [Host (StateM σ)] (p : Pipeline (StateM σ)) (digest : Digest)
  (options : GenerateOptions) (workspace : Workspace)

/-- The artifacts whose step is reached: the clone, the unit once the path of the header was read,
and the preprocessed header once the flags were found. -/
def reachedIn (s : σ) : List Path :=
  [workspace.clone] ++
    (if (resultOf (p.untilHeader options workspace) s).isOk then [workspace.unit] else []) ++
    (if (resultOf (p.untilFlags digest options workspace) s).isOk then [workspace.header] else [])

theorem adds_untilHeader : Adds [workspace.clone] (p.untilHeader options workspace) :=
  .bind (.bind (.liftM_bind _ fun _ => .track_bind _ fun _ => .ofWork _) fun _ => .ofWork _)
    fun _ => .ofWork _

theorem adds_addUnit (target header : String) :
    Adds [workspace.unit] (p.addUnit digest target header workspace) :=
  .track_bind _ fun _ => .bind (.ofWork _) fun _ => .bind (.ofWork _) fun _ =>
    .bind (.ofWork _) fun _ => .pure _

theorem adds_findFlags : Adds [] (p.findFlags options workspace) :=
  .bind (.ofWork _) fun _ => .bind (.ofWork _) fun _ => .bind (.ofWork _) fun _ => .ofWork _

theorem adds_preprocess (flags : List String) :
    Adds [workspace.header] (p.preprocess options workspace flags) :=
  .liftM_bind _ fun _ => .track_bind _ fun _ => .bind (.ofWork _) fun _ => by
    split
    · exact .ofWork _
    · exact .pure _

theorem adds_requestInterface (flags : List String) :
    Adds [] (p.requestInterface workspace flags) := by
  refine .bind (.ofWork _) fun _ => .bind (.ofWork _) fun _ => .bind (.ofWork _) fun response => ?_
  split
  · exact .pure _
  · exact .throw _

/-- A run tracks the artifacts that it reaches. -/
theorem paths_steps (s : σ) :
    (endOf (p.steps digest options workspace) {} s).1.2.paths =
      p.reachedIn digest options workspace s := by
  have hsteps : p.steps digest options workspace = (do
      let flags ← p.untilFlags digest options workspace
      p.preprocess options workspace flags
      p.requestInterface workspace flags) := by
    simp only [steps_eq, untilPreprocessed, bind_assoc, pure_bind]
  have hrest (flags : List String) := (adds_preprocess p options workspace flags).bind fun _ =>
    adds_requestInterface p workspace flags
  rw [hsteps, Adds.paths_bind _ hrest, untilFlags,
    Adds.paths_bind _ fun _ => adds_findFlags p options workspace, untilUnit,
    Adds.paths_bind _ (adds_addUnit p digest workspace options.target), adds_untilHeader, ite_self,
    List.append_nil]
  rfl

theorem mem_artifacts_of_mem_reachedIn {s : σ} {path : Path}
    (h : path ∈ p.reachedIn digest options workspace s) : path ∈ workspace.artifacts := by
  simp only [reachedIn, List.mem_append, List.mem_ite_nil_right, List.mem_singleton] at h
  rcases h with (h | ⟨-, h⟩) | ⟨-, h⟩ <;> simp [Workspace.artifacts, h]

/-- The artifacts that a run may make. There are none if it has no place to work in. -/
def artifacts (s : σ) : List Path :=
  ((place options : Work (StateM σ) _).run s).1.toOption.elim [] fun placed => placed.2.artifacts

/-- The artifacts whose step is reached by a run. -/
def reached (s : σ) : List Path :=
  ((place options : Work (StateM σ) _).run s).1.toOption.elim [] fun placed =>
    p.reachedIn digest options placed.2 ((place options : Work (StateM σ) _).run s).2

end Reached

/-! ### Steps beside the project -/

/-- The tools and the service of a run change nothing, except that the preprocessor may write its
output. -/
structure Harmless (p : Pipeline Simulation) (options : GenerateOptions) (workspace : Workspace)
    (start : Machine) : Prop where
  showSettings : ∀ machine, start.SameBeside workspace.artifacts machine →
    (machine.run (BuildTool.showSettings p.buildTool workspace.clone options.target)).2.tree =
      machine.tree
  dryRun : ∀ machine, start.SameBeside workspace.artifacts machine →
    (machine.run (BuildTool.dryRun p.buildTool workspace.clone options.target
      options.dryRun)).2.tree = machine.tree
  preprocess : ∀ machine flags, start.SameBeside workspace.artifacts machine →
    let after := (machine.run (Preprocessor.command p.preprocessor workspace.unit
      workspace.header flags)).2
    after.tree = machine.tree ∨ ∃ contents,
      machine.tree.write machine.directory workspace.header contents = .ok after.tree
  service : ∀ machine request, start.SameBeside workspace.artifacts machine →
    Quiet machine ((p.service request).run machine).2

/-- Entries with some names are tracked, and nothing else was made. -/
def Tracks (start : Machine) (base : Path) (names : List String) (tracked : Temporaries)
    (machine : Machine) : Prop :=
  tracked.paths = names.map (fun name => base.join ⟨name⟩) ∧ Tidy start base names machine

/-- The first of some entries are tracked, and nothing else was made. -/
def TracksSome (start : Machine) (base : Path) (all : List String) (tracked : Temporaries)
    (machine : Machine) : Prop :=
  ∃ names, names <+: all ∧ Tracks start base names tracked machine

variable {start : Machine} {base : Path} {names all : List String} {name : String} {α : Type}

theorem leads_ofWork (hnames : names <+: all) {work : Work Simulation α}
    (h : Preserves (Tidy start base names) work.run) :
    Leads (Tracks start base names) (Tracks start base names) (TracksSome start base all)
      (ofWork work) :=
  .ofWork (fun _ machine htracks => ⟨htracks.1, h machine htracks.2⟩)
    fun _ _ htracks => ⟨names, hnames, htracks⟩

theorem leads_track {F : Temporaries → Machine → Prop} :
    Leads (Tracks start base names) (Tracks start base (names ++ [name])) F
      (track (base.join ⟨name⟩)) := by
  refine .track fun tracked machine htracks => ⟨?_, htracks.2.mono fun _ hmem => by simp [hmem]⟩
  rw [Temporaries.track, htracks.1, List.map_append]
  rfl

section Steps

variable {clone unit header : String} (hsite : Site start base [clone, unit, header])
  {p : Pipeline Simulation} {digest : Digest} {options : GenerateOptions}
include hsite

theorem sameBeside_of_tidy (hsub : ∀ name ∈ names, name ∈ [clone, unit, header]) {machine : Machine}
    (h : Tidy start base names machine) :
    start.SameBeside (Workspace.beside base clone unit header).artifacts machine where
  programs := h.programs
  environment := h.environment
  directory := h.directory
  nodes place hplace := by
    refine h.nodes place fun name hname => ?_
    rw [← FileTree.placeOf_join_name _ _ (hsite.isName name (hsub name hname))]
    exact hplace _ (List.mem_map_of_mem (f := fun name => base.join ⟨name⟩) (hsub name hname))

theorem leads_cloneProject : Leads (Tracks start base []) (Tracks start base [clone])
    (TracksSome start base [clone, unit, header])
    (p.cloneProject options (Workspace.beside base clone unit header)) := by
  have hsandbox : Sandbox (Tidy start base [clone]) (base.join ⟨clone⟩) :=
    Tidy.sandbox hsite (by simp) (by simp)
  refine .bind (leads_ofWork List.nil_prefix (.liftM (Tidy.tell _ _ _))) fun _ => ?_
  exact .bind leads_track fun _ => leads_ofWork (by simp) (hsandbox.clone _)

variable (hharmless : p.Harmless options (Workspace.beside base clone unit header) start)
include hharmless

theorem leads_readHeaderPath : Leads (Tracks start base [clone]) (Tracks start base [clone])
    (TracksSome start base [clone, unit, header])
    (p.readHeaderPath options.target (Workspace.beside base clone unit header)) := by
  have hasked : Preserves (Tidy start base [clone]) (Host.run (BuildTool.showSettings p.buildTool
      (Workspace.beside base clone unit header).clone options.target) : Simulation _) :=
    Tidy.preserves_of_quiet fun machine h =>
      .run (hharmless.showSettings machine (sameBeside_of_tidy hsite (by simp) h))
  refine .bind (leads_ofWork (by simp) (.liftM (Tidy.tell _ _ _))) fun _ => ?_
  exact leads_ofWork (by simp) (.within _ (.toWork (.readSetting _ hasked)))

omit hharmless in
theorem leads_addUnit (path : String) : Leads (Tracks start base [clone])
    (Tracks start base [clone, unit]) (TracksSome start base [clone, unit, header])
    (p.addUnit digest options.target path (Workspace.beside base clone unit header)) := by
  have hsub : ∀ name ∈ [clone, unit], name ∈ [clone, unit, header] := by simp
  have hwritten := Tidy.writeText hsite hsub (show unit ∈ [clone, unit] by simp)
    (ImportUnit.importing path)
  have hsandbox : Sandbox (Tidy start base [clone, unit]) (base.join ⟨clone⟩) :=
    Tidy.sandbox hsite hsub (by simp)
  refine .bind leads_track fun _ => ?_
  refine .bind (leads_ofWork (by simp) (.within _ (.toWork hwritten))) fun _ => ?_
  refine .bind (leads_ofWork (by simp) (.liftM (Tidy.tell _ _ _))) fun _ => ?_
  exact .bind (leads_ofWork (by simp) (hsandbox.registerSource _ _ _ _)) fun _ => .pure _

theorem leads_findFlags : Leads (Tracks start base [clone, unit]) (Tracks start base [clone, unit])
    (TracksSome start base [clone, unit, header])
    (p.findFlags options (Workspace.beside base clone unit header)) := by
  have hran : Preserves (Tidy start base [clone, unit]) (Host.run (BuildTool.dryRun p.buildTool
      (Workspace.beside base clone unit header).clone options.target options.dryRun) :
        Simulation _) :=
    Tidy.preserves_of_quiet fun machine h =>
      .run (hharmless.dryRun machine (sameBeside_of_tidy hsite (by simp) h))
  refine .bind (leads_ofWork (by simp) (.run_bind (.liftM (Tidy.tell _ _ _)) fun _ =>
    .liftM (.of_reads fun _ => rfl))) fun started => ?_
  refine .bind (leads_ofWork (by simp) (.within _ (.toWork
    (.run_bind hran.executeChecked fun _ => .pure _)))) fun log => ?_
  refine .bind (leads_ofWork (by simp) (.liftM (.tellDuration _ _ fun _ _ =>
    Tidy.tell _ _ _))) fun _ => ?_
  exact leads_ofWork (by simp) (.within _ (.toWork
    (.run_bind (Preserves.normalize _).liftM fun _ => .ofExcept _)))

theorem leads_preprocess (flags : List String) : Leads (Tracks start base [clone, unit])
    (Tracks start base [clone, unit, header]) (TracksSome start base [clone, unit, header])
    (p.preprocess options (Workspace.beside base clone unit header) flags) := by
  have hsub : ∀ name ∈ [clone, unit, header], name ∈ [clone, unit, header] := by simp
  have hran : Preserves (Tidy start base [clone, unit, header]) (Host.run (Preprocessor.command
      p.preprocessor (Workspace.beside base clone unit header).unit
      (Workspace.beside base clone unit header).header flags) : Simulation _) := fun machine h =>
    Tidy.run_of_write hsite hsub (show header ∈ [clone, unit, header] by simp) h
      (hharmless.preprocess machine flags (sameBeside_of_tidy hsite hsub h))
  refine .bind (leads_ofWork (by simp) (.liftM (Tidy.tell _ _ _))) fun _ => ?_
  refine .bind leads_track fun _ => ?_
  refine .bind (leads_ofWork List.prefix_rfl (.within _ (.toWork
    (.run_bind hran.executeChecked fun _ => .pure _)))) fun _ => ?_
  split
  · exact leads_ofWork List.prefix_rfl (.within _ (.toWork (.run_bind (.readText _) fun _ =>
      Tidy.writeText hsite hsub (by simp) _)))
  · exact .pure _

theorem leads_requestInterface (flags : List String) :
    Leads (Tracks start base [clone, unit, header]) (Tracks start base [clone, unit, header])
      (TracksSome start base [clone, unit, header])
      (p.requestInterface (Workspace.beside base clone unit header) flags) := by
  have hrequest : Preserves (Tidy start base [clone, unit, header])
      (Interface.request (Workspace.beside base clone unit header).header flags :
        Simulation InterfaceRequest) :=
    .bind (Tidy.preserves_of_quiet fun machine _ => .random _ machine) fun _ => .pure _
  have hserved (request : InterfaceRequest) :
      Preserves (Tidy start base [clone, unit, header]) (p.service request).run :=
    Tidy.preserves_of_quiet fun machine h =>
      hharmless.service machine request (sameBeside_of_tidy hsite (by simp) h)
  refine .bind (leads_ofWork List.prefix_rfl (.liftM (Tidy.tell _ _ _))) fun _ => ?_
  refine .bind (leads_ofWork List.prefix_rfl hrequest.liftM) fun request => ?_
  refine .bind (leads_ofWork List.prefix_rfl (.within _ (hserved request))) fun response => ?_
  split
  · exact .pure _
  · exact .throw (fun _ _ htracks => ⟨_, List.prefix_rfl, htracks⟩) _

/-- Wherever the steps end, what was reached is tracked and nothing else was made. -/
theorem leads_steps : Leads (Tracks start base []) (Tracks start base [clone, unit, header])
    (TracksSome start base [clone, unit, header])
    (p.steps digest options (Workspace.beside base clone unit header)) :=
  .bind (leads_cloneProject hsite) fun _ =>
  .bind (leads_readHeaderPath hsite hharmless) fun path =>
  .bind (leads_addUnit hsite path) fun _ =>
  .bind (leads_findFlags hsite hharmless) fun flags =>
  .bind (leads_preprocess hsite hharmless flags) fun _ =>
  leads_requestInterface hsite hharmless flags

end Steps

/-! ### Clean-up -/

/-- A machine after a run that came to some of its artifacts: these are gone, and everything else is
as it was at the start. -/
structure Restored (start : Machine) (artifacts reached : List Path) (machine : Machine) :
    Prop where
  nodes : ∀ place, (∀ path ∈ reached, ¬ placeOf start.directory path <+: place) →
    machine.tree.node? place = start.tree.node? place
  gone : ∀ path ∈ reached, machine.Lacks path
  /-- What was not there is still not there. -/
  lacks : ∀ path ∈ artifacts, start.Lacks path → machine.Lacks path
  stdout : machine.stdout = start.stdout

/-- Clean-up starts where the work ends. -/
theorem snd_cleaningUp (work : Tracking Simulation α) (machine : Machine) :
    ((Temporaries.cleaningUp work).run machine).2 =
      (((endOf work {} machine).1.2.cleanUp : Simulation Temporaries) (endOf work {} machine).2).2 :=
  rfl

theorem snd_cleanUp (tracked : Temporaries) (machine : Machine) :
    ((tracked.cleanUp : Simulation Temporaries) machine).2 =
      ((tracked.paths.reverse.forM Temporaries.removeQuietly : Simulation PUnit) machine).2 := rfl

section Ends

variable {clone unit header : String} {p : Pipeline Simulation} {digest : Digest}
  {options : GenerateOptions}

/-- Where there is a way to the artifacts, they are removed one after the other. -/
theorem restored_of_site (hsite : Site start base [clone, unit, header])
    (hharmless : p.Harmless options (Workspace.beside base clone unit header) start)
    (hstart : Tidy start base [] start) :
    Restored start (Workspace.beside base clone unit header).artifacts
      (p.reachedIn digest options (Workspace.beside base clone unit header) start)
      ((Temporaries.cleaningUp
        (p.steps digest options (Workspace.beside base clone unit header))).run start).2 := by
  rw [snd_cleaningUp, snd_cleanUp, ← paths_steps]
  have hsteps : Leads (Tracks start base []) (Tracks start base [clone, unit, header])
      (TracksSome start base [clone, unit, header])
      (p.steps digest options (Workspace.beside base clone unit header)) :=
    leads_steps hsite hharmless
  have htracks := hsteps.ended (fun _ _ htracks => ⟨_, List.prefix_rfl, htracks⟩)
    (show Tracks start base [] {} start from ⟨rfl, hstart⟩)
  generalize endOf (p.steps digest options (Workspace.beside base clone unit header)) {} start =
    ended at htracks ⊢
  obtain ⟨names, hprefix, hpaths, htidy⟩ := htracks
  have hsub : ∀ name ∈ names, name ∈ [clone, unit, header] := fun _ hname => hprefix.subset hname
  obtain ⟨hended, hgone, -⟩ := htidy.removeAll hsite hsub
    (show ∀ name ∈ names.reverse, name ∈ names by simp)
  rw [hpaths, ← List.map_reverse]
  refine ⟨fun place hplace => hended.nodes place fun name hname => ?_, fun path hpath => ?_,
    fun path hpath hlacks => ?_, hended.stdout⟩
  · rw [← FileTree.placeOf_join_name _ _ (hsite.isName name (hsub name hname))]
    exact hplace _ (List.mem_map_of_mem (f := fun name => base.join ⟨name⟩) hname)
  · obtain ⟨name, hname, rfl⟩ := List.mem_map.mp hpath
    exact hgone name (List.mem_reverse.mpr hname)
  · obtain ⟨name, hname, rfl⟩ : ∃ name ∈ [clone, unit, header], base.join ⟨name⟩ = path :=
      List.mem_map.mp hpath
    by_cases htracked : name ∈ names
    · exact hgone name (List.mem_reverse.mpr htracked)
    · exact hended.lacks_of_not_mem hsite hsub hstart hname htracked hlacks

end Ends

/-! ### Out of reach -/

/-- A machine has the files of another one, in the same working directory. -/
structure Still (start machine : Machine) : Prop where
  tree : machine.tree = start.tree
  directory : machine.directory = start.directory
  stdout : machine.stdout = start.stdout

namespace Still

variable {machine : Machine}

theorem find_eq (h : Still start machine) (aim : FileTree.Aim) (path : Path) :
    machine.find aim path = start.find aim path := by
  rw [Machine.find, Machine.find, h.tree, h.directory]

theorem tell (shell : Shell) (status : Status) (text : String) :
    Preserves (Still start) (shell.tell status text : Simulation Unit) := by
  intro machine h
  obtain ⟨stderr, htold⟩ := exists_stderr_of_tell shell status text machine
  rw [htold]
  exact ⟨h.tree, h.directory, h.stdout⟩

end Still

section Unreached

variable (p : Pipeline Simulation) (digest : Digest) {options : GenerateOptions}
  (workspace : Workspace) {cause : Cause}
  (hclone : start.find .entry workspace.clone = .error cause)
include hclone

/-- If the clone is out of reach, and so the project, the first step is the last. -/
theorem leads_steps_of_unreached (hproject : cause = .noEntry →
      ∀ aim ≠ .output, ∃ other, start.find aim options.project = .error other) :
    let J tracked machine := (∀ path ∈ tracked.paths, path = workspace.clone) ∧ Still start machine
    Leads J (fun _ _ => False) J (p.steps digest options workspace) := by
  intro J
  refine .bind (K := fun _ _ => False) ?_ fun _ tracked machine hfalse => hfalse.elim
  refine .bind (K := J) (.ofWork (fun tracked machine hJ =>
    ⟨hJ.1, Still.tell _ _ _ machine hJ.2⟩) fun _ _ hJ => hJ) fun _ => ?_
  refine .bind (K := J) (.track fun tracked machine hJ => ⟨?_, hJ.2⟩) fun _ => ?_
  · simpa [Temporaries.track, or_imp, forall_and] using hJ.1
  · intro tracked machine hJ
    have htarget : machine.find .entry workspace.clone = .error cause :=
      (hJ.2.find_eq _ _).trans hclone
    have hcopy : cause = .noEntry → ∃ failure, (Files.copyAll options.project workspace.clone :
        Task Simulation Unit).run machine = (.error failure, machine) := by
      intro hmissing
      refine copyAll_of_error _ fun aim haim => ?_
      rw [hJ.2.find_eq]
      exact hproject hmissing aim haim
    obtain ⟨report, hrun⟩ := clone_of_error htarget hcopy
    rw [endOf_ofWork, hrun]
    exact ⟨nofun, fun _ => hJ⟩

/-- Nothing is made where nothing can be reached. -/
theorem restored_of_unreached (artifacts : List Path) (hproject : cause = .noEntry →
      ∀ aim ≠ .output, ∃ other, start.find aim options.project = .error other) :
    Restored start artifacts (p.reachedIn digest options workspace start)
      ((Temporaries.cleaningUp (p.steps digest options workspace)).run start).2 := by
  rw [snd_cleaningUp, ← paths_steps]
  have hended := (leads_steps_of_unreached p digest workspace hclone hproject).ended
    (fun _ _ => False.elim) (show (∀ path ∈ ({} : Temporaries).paths, path = workspace.clone) ∧
      Still start start from ⟨nofun, rfl, rfl, rfl⟩)
  generalize endOf (p.steps digest options workspace) {} start = ended at hended ⊢
  obtain ⟨hpaths, hstill⟩ := hended
  have hkept : Still start ((ended.1.2.cleanUp : Simulation Temporaries) ended.2).2 := by
    refine Preserves.cleanUp (fun path hpath machine h => ?_) _ hstill
    have hfind : machine.find .entry path = .error cause := by
      rw [h.find_eq, hpaths path hpath, hclone]
    rw [removeIfPresent_of_error hfind]
    exact h
  refine ⟨fun place _ => by rw [hkept.tree], fun path hpath => ?_, fun path _ hlacks => ?_,
    hkept.stdout⟩
  · exact ⟨cause, (hkept.find_eq _ _).trans (hpaths path hpath ▸ hclone)⟩
  · obtain ⟨other, hfind⟩ := hlacks
    exact ⟨other, (hkept.find_eq _ _).trans hfind⟩

end Unreached

section Way

variable {cause : Cause} (hway : ∀ aim name, IsName name →
    start.tree.follow start.directory aim (base.join ⟨name⟩) = .error cause)
include hway

/-- Without a way to some entries, each of them is lacking. -/
theorem exists_find_error (hname : IsName name) : ∃ other,
    start.find .entry (base.join ⟨name⟩) = .error other ∧ (other = .noEntry → cause = .noEntry) := by
  rw [Machine.find, FileTree.find, FileTree.resolve, hway .entry name hname]
  cases hrefusal : FileTree.refusal? (base.join ⟨name⟩) with
  | some refused =>
    refine ⟨refused, rfl, ?_⟩
    rintro rfl
    exact absurd hrefusal (FileTree.refusal?_ne_noEntry (FileTree.text_join_ne_empty base hname))
  | none => exact ⟨cause, rfl, id⟩

end Way

/-! ### Whole runs -/

section Placed

variable {options : GenerateOptions} {machine : Machine}

/-- Finding the place of a run uses a number, at most. -/
theorem exists_used_of_place (options : GenerateOptions) (machine : Machine) :
    ∃ used, ((place options : Work Simulation _).run machine).2 = { machine with used } := by
  suffices h : Preserves (fun after => ∃ used, after = { machine with used })
      (place options : Work Simulation _).run from h machine ⟨_, rfl⟩
  unfold place
  cases options.seed <;> refine .run_bind ?_ fun seed => .run_bind (.liftM (.absolute _))
    fun project => .run_bind (.ofExcept _) fun workspace => .pure _
  case some seed => exact .pure _
  case none =>
    refine .liftM fun after hafter => ?_
    obtain ⟨used, rfl⟩ := hafter
    exact ⟨_, rfl⟩

theorem absolute_eq (path : Path) (machine : Machine) :
    ((Files.absolute path : Simulation Path) machine).1 =
      if path.isAbsolute = false ∧ machine.tree.isDirectoryAt machine.directory = true then
        (FileTree.pathOf machine.directory).join path
      else path := by
  unfold Files.absolute
  cases path.isAbsolute with
  | true => rfl
  | false =>
    cases hdirectory : machine.tree.isDirectoryAt machine.directory <;>
    · simp [bind, StateT.bind, Host.workingDirectory, hdirectory]
      rfl

/-- A path is taken as it is if it starts at the root or there is no working directory. -/
theorem absolute_cases (path : Path) (machine : Machine) :
    ((Files.absolute path : Simulation Path) machine).1 = path ∧
      (path.isAbsolute = true ∨ machine.tree.isDirectoryAt machine.directory = false) ∨
    path.isAbsolute = false ∧ machine.tree.isDirectoryAt machine.directory = true ∧
      ((Files.absolute path : Simulation Path) machine).1 =
        (FileTree.pathOf machine.directory).join path := by
  rw [absolute_eq]
  cases habsolute : path.isAbsolute <;>
    cases hdirectory : machine.tree.isDirectoryAt machine.directory <;> simp

theorem absolute_with_used (path : Path) (machine : Machine) (used : Nat) :
    ((Files.absolute path : Simulation Path) { machine with used }).1 =
      ((Files.absolute path : Simulation Path) machine).1 := by
  rw [absolute_eq, absolute_eq]

/-- The workspace of a run is made for the project under its absolute path. -/
theorem exists_of_place_ok {project : Path} {workspace : Workspace}
    (h : ((place options : Work Simulation _).run machine).1 = .ok (project, workspace)) :
    (∃ seed, Workspace.ofProject project seed = .ok workspace) ∧
      ((Files.absolute options.project : Simulation Path) machine).1 = project := by
  unfold place at h
  cases hseed : options.seed <;>
  · rw [hseed] at h
    obtain ⟨seed, -, h⟩ := exists_of_bind_ok h
    obtain ⟨project', hproject, h⟩ := exists_of_bind_ok h
    obtain ⟨workspace', hworkspace, h⟩ := exists_of_bind_ok h
    cases h
    exact ⟨⟨seed, eq_of_ofExcept_ok hworkspace⟩,
      (absolute_with_used _ machine _).symm.trans (Except.ok.inj hproject)⟩

end Placed

/-- What is made beside a project is not the project, unless its extension is that of a unit or a
header. -/
theorem not_prefix_of_ofProject {project : Path} {seed : Nat} {workspace : Workspace}
    (hproject : Workspace.ofProject project seed = .ok workspace)
    (hunit : project.extension? ≠ some "m") (hheader : project.extension? ≠ some "h")
    {directory place : Place} (hplace : placeOf directory project <+: place) {artifact : Path}
    (hartifact : artifact ∈ workspace.artifacts) : ¬ placeOf directory artifact <+: place := by
  obtain ⟨name, base, hname, hbase, rfl⟩ := Workspace.exists_of_ofProject hproject
  have hisName := (Path.exists_parent?_of_fileName? hname).1
  have hother : ∃ other, IsName other ∧ other ≠ name ∧ artifact = base.join ⟨other⟩ := by
    rw [Path.extension?, hname] at hunit hheader
    simp only [Workspace.artifacts, List.mem_cons, List.not_mem_nil, or_false] at hartifact
    rcases hartifact with rfl | rfl | rfl
    · exact ⟨_, Workspace.isName_cloneName hisName seed, Workspace.cloneName_ne name seed, rfl⟩
    · refine ⟨_, Workspace.isName_unitName seed, ?_, rfl⟩
      rintro rfl
      exact hunit (Workspace.extension_unitName seed)
    · refine ⟨_, Workspace.isName_headerName seed, ?_, rfl⟩
      rintro rfl
      exact hheader (Workspace.extension_headerName seed)
  obtain ⟨other, hisOther, hne, rfl⟩ := hother
  rw [FileTree.placeOf_of_fileName? directory hname hbase] at hplace
  rw [FileTree.placeOf_join_name _ _ hisOther]
  intro hprefix
  have hsame := List.prefix_of_prefix_length_le hprefix hplace (by simp)
  rw [List.prefix_append_right_inj] at hsame
  exact hne (List.singleton_inj.mp (hsame.eq_of_length rfl))

/-- What is done with an interface once a run has made it. -/
def publish {m : Type → Type} [Monad m] [Host m] (p : Pipeline m) (options : GenerateOptions)
    (interface : String) : Work m Unit := do
  Interface.emit interface options.output
  match options.output with
  | some path => ExceptT.lift (p.shell.tell .finished s!"wrote {path.text}" : m Unit)
  | none => return ()

/-- Generating an interface is a run, and whatever it makes is published. -/
theorem generate_eq {m : Type → Type} [Monad m] [Host m] (p : Pipeline m) (digest : Digest)
    (options : GenerateOptions) :
    p.generate digest options = p.run digest options >>= p.publish options := rfl

section Run

variable (p : Pipeline Simulation) (digest : Digest) (options : GenerateOptions)

variable (start) in
/-- A run beside a project leaves the machine as it was but for what it reached, which is gone. -/
theorem restored_of_ofProject (hplain : Plain start.tree) (hclear : Clearable start.tree)
    (hfree : ∀ place, start.held place = false)
    (hsettled : start.tree.isDirectoryAt start.directory = true ∨
      removedPlace start.directory = start.directory) {project : Path} {workspace : Workspace}
    {seed : Nat} (hproject : Workspace.ofProject project seed = .ok workspace)
    (hfound : ((Files.absolute options.project : Simulation Path) start).1 = project)
    (hharmless : p.Harmless options workspace start)
    (hspares : ∀ base ∈ project.parent?, ∀ artifact ∈ workspace.artifacts,
      ∀ name ∈ artifact.fileName?, Spares start.directory base name) :
    Restored start workspace.artifacts (p.reachedIn digest options workspace start)
      ((Temporaries.cleaningUp (p.steps digest options workspace)).run start).2 := by
  obtain ⟨name, base, hname, hbase, rfl⟩ := Workspace.exists_of_ofProject hproject
  obtain ⟨hisName, base', hbase', habsolute, -⟩ := Path.exists_parent?_of_fileName? hname
  obtain rfl : base' = base := Option.some.inj (hbase'.symm.trans hbase)
  let names := [Workspace.cloneName name seed, Workspace.unitName seed, Workspace.headerName seed]
  have hnames : ∀ other ∈ names, IsName other := by
    simp [names, Workspace.isName_cloneName hisName, Workspace.isName_unitName,
      Workspace.isName_headerName]
  have hcases := absolute_cases options.project start
  rw [hfound] at hcases
  rcases FileTree.hasWay_or_error hplain start.directory base' with hway | ⟨cause, hway, hmissing⟩
  · have hsite : Site start base' names := by
      refine ⟨hway, fun other hother => ?_, hnames, ?_⟩
      · exact hspares base' hbase (base'.join ⟨other⟩)
          (List.mem_map_of_mem (f := fun name => base'.join ⟨name⟩) hother) other
          (Path.fileName?_join base' (hnames other hother))
      · rw [habsolute]
        rcases hcases with ⟨rfl, hroot | hgone⟩ | ⟨hrelative, -, rfl⟩
        · exact .inl hroot
        · refine .inr (hsettled.resolve_left ?_)
          rw [hgone]
          nofun
        · left
          rw [FileTree.isAbsolute_join _ hrelative, FileTree.isAbsolute_pathOf]
    exact restored_of_site hsite hharmless (.refl hplain hclear hfree)
  · obtain ⟨other, hother, hcause⟩ :=
      exists_find_error hway (Workspace.isName_cloneName hisName seed)
    refine restored_of_unreached p digest (.beside base' _ _ _) hother _ fun hnone aim haim => ?_
    refine FileTree.find_error_of_missing hplain ?_ hname hbase (hmissing (hcause hnone)) haim
    exact hcases.imp And.left id

variable {machine : Machine}

theorem Harmless.with_used {workspace : Workspace} (h : p.Harmless options workspace machine)
    (used : Nat) : p.Harmless options workspace { machine with used } where
  showSettings other hother :=
    h.showSettings other ⟨hother.programs, hother.environment, hother.directory, hother.nodes⟩
  dryRun other hother :=
    h.dryRun other ⟨hother.programs, hother.environment, hother.directory, hother.nodes⟩
  preprocess other flags hother :=
    h.preprocess other flags ⟨hother.programs, hother.environment, hother.directory, hother.nodes⟩
  service other request hother :=
    h.service other request ⟨hother.programs, hother.environment, hother.directory, hother.nodes⟩

/-- Whatever harmless tools and services answer, and wherever a run ends: the artifacts whose step
was reached are gone, the other ones are there only if they were, and everything else is as it was,
the project included. Only then an interface is published, if all went well. -/
theorem run_restores (hplain : Plain machine.tree) (hclear : Clearable machine.tree)
    (hfree : ∀ place, machine.held place = false)
    (hsettled : machine.tree.isDirectoryAt machine.directory = true ∨
      removedPlace machine.directory = machine.directory)
    (hharmless : ∀ project workspace,
      ((place options : Work Simulation _).run machine).1 = .ok (project, workspace) →
        p.Harmless options workspace machine)
    (hspares : ∀ project workspace,
      ((place options : Work Simulation _).run machine).1 = .ok (project, workspace) →
        ∀ base ∈ project.parent?, ∀ artifact ∈ workspace.artifacts,
          ∀ name ∈ artifact.fileName?, Spares machine.directory base name) :
    let ended := (p.run digest options).run machine
    Restored machine (artifacts options machine) (p.reached digest options machine) ended.2 ∧
    (∀ project workspace,
      ((place options : Work Simulation _).run machine).1 = .ok (project, workspace) →
        project.extension? ≠ some "m" → project.extension? ≠ some "h" →
          ∀ place, placeOf machine.directory project <+: place →
            ended.2.tree.node? place = machine.tree.node? place) ∧
    (∀ report, ended.1 = .error report →
      (p.generate digest options).run machine = (.error report, ended.2)) ∧
    ∀ interface, ended.1 = .ok interface →
      (p.generate digest options).run machine = (p.publish options interface).run ended.2 := by
  intro ended
  have hrestored : Restored machine (artifacts options machine) (p.reached digest options machine)
      ended.2 := by
    obtain ⟨used, hused⟩ := exists_used_of_place options machine
    unfold artifacts reached
    simp only [ended, run_eq]
    rcases hplace : (place options : Work Simulation _).run machine with
      ⟨report | ⟨project, workspace⟩, after⟩
    · obtain rfl : after = { machine with used } := by rw [← hused, hplace]
      rw [run_bind_of_error hplace]
      exact ⟨fun _ _ => rfl, nofun, nofun, rfl⟩
    · have hok := congrArg Prod.fst hplace
      obtain ⟨⟨seed, hproject⟩, hfound⟩ := exists_of_place_ok hok
      obtain rfl : after = { machine with used } := by rw [← hused, hplace]
      rw [run_bind_of_ok hplace]
      have hrestored : Restored { machine with used } workspace.artifacts
          (p.reachedIn digest options workspace { machine with used }) _ :=
        restored_of_ofProject { machine with used } p digest options hplain hclear hfree hsettled
          hproject ((absolute_with_used _ machine used).trans hfound)
          ((hharmless project workspace hok).with_used p options used)
          (hspares project workspace hok)
      exact ⟨hrestored.nodes, hrestored.gone, hrestored.lacks, hrestored.stdout⟩
  refine ⟨hrestored, fun project workspace hplace hunit hheader place hbelow => ?_,
    fun report hreport => ?_, fun interface hinterface => ?_⟩
  · refine hrestored.nodes place fun path hpath => ?_
    obtain ⟨⟨seed, hproject⟩, -⟩ := exists_of_place_ok hplace
    refine not_prefix_of_ofProject hproject hunit hheader hbelow ?_
    rw [reached, hplace] at hpath
    exact mem_artifacts_of_mem_reachedIn p digest options workspace hpath
  · rw [generate_eq]
    exact run_bind_of_error (Prod.ext hreport rfl) _
  · rw [generate_eq]
    exact run_bind_of_ok (Prod.ext hinterface rfl) _

end Run

/-! ### A stale unit -/

/-- A program that shows a bridging header, whatever it is asked. -/
def showingHeader : Program where
  name := "xcodebuild"
  run _ tree := (tree, ⟨some 0, "SWIFT_OBJC_BRIDGING_HEADER = B.h\n".toUTF8, .empty⟩)

/-- A descriptor of a project with one target. -/
@[irreducible] def oneTarget : ByteArray :=
  ("\x7bobjects=\x7bP=\x7bmainGroup=G;targets=(T);\x7d;G=\x7bchildren=();\x7d;" ++
    "T=\x7bname=App;buildPhases=(S);\x7d;" ++
    "S=\x7bisa=PBXSourcesBuildPhase;files=();\x7d;\x7d;rootObject=P;\x7d").toUTF8

/-- A machine on which a directory stands where a unit would be written. -/
def staleUnit : Machine where
  tree := .directory {} [
    ("App.xcodeproj", .directory {} [("project.pbxproj", .file .plain oneTarget)]),
    ("Bridging-7.m", .directory {} []), ("xcodebuild", .file {} .empty)]
  programs _ := some showingHeader

/-- A pipeline whose service does not answer. -/
def unanswered : Pipeline Simulation where
  shell := .quiet
  buildTool := ⟨"/xcodebuild"⟩
  preprocessor := ⟨"/clang"⟩
  service _ := throw (.ofRemark "no answer")

def seventhRun (project : Path) : GenerateOptions where
  project := project
  target := "App"
  seed := some 7

theorem plain_staleUnit : Plain staleUnit.tree :=
  .cons (by decide) (.cons (by decide) (.file _ _) (.nil _))
    (.cons (by decide) (.nil _) (.cons (by decide) (.file _ _) (.nil _)))

theorem harmless_staleUnit (options : GenerateOptions) (workspace : Workspace) :
    unanswered.Harmless options workspace staleUnit := by
  have htree (machine : Machine) (h : machine.programs = staleUnit.programs) (command : Command) :
      (machine.run command).2.tree = machine.tree := by
    rcases machine.run_cases command with hsame | ⟨contents, program, invocation, hprogram, hran⟩
    · rw [hsame]
    · rw [h] at hprogram
      cases hprogram
      rw [hran]
      rfl
  exact ⟨fun machine h => htree machine h.programs _, fun machine h => htree machine h.programs _,
    fun machine _ h => .inl (htree machine h.programs _), fun machine _ _ => .refl machine⟩

theorem place_staleUnit :
    ((place (seventhRun ⟨"App.xcodeproj"⟩) : Work Simulation _).run staleUnit).1 =
      .ok (⟨"/App.xcodeproj"⟩, ⟨⟨"/App-7.xcodeproj"⟩, ⟨"/Bridging-7.m"⟩, ⟨"/Bridging-7.h"⟩⟩) := rfl

theorem reached_staleUnit : unanswered.reached .sha256 (seventhRun ⟨"App.xcodeproj"⟩) staleUnit =
    [⟨"/App-7.xcodeproj"⟩, ⟨"/Bridging-7.m"⟩] := by
  decide +kernel

theorem run_restores_of_staleUnit : Plain staleUnit.tree ∧ Clearable staleUnit.tree ∧
    Restored staleUnit [⟨"/App-7.xcodeproj"⟩, ⟨"/Bridging-7.m"⟩, ⟨"/Bridging-7.h"⟩]
      [⟨"/App-7.xcodeproj"⟩, ⟨"/Bridging-7.m"⟩]
      ((unanswered.run .sha256 (seventhRun ⟨"App.xcodeproj"⟩)).run staleUnit).2 := by
  have hclear : Clearable staleUnit.tree := FileTree.clearable_iff_emptied.mpr rfl
  refine ⟨plain_staleUnit, hclear, ?_⟩
  have hrestored := (run_restores unanswered .sha256 (seventhRun ⟨"App.xcodeproj"⟩) plain_staleUnit
    hclear (fun _ => rfl) (.inl rfl) (fun _ workspace _ => harmless_staleUnit _ workspace)
    fun project workspace hplace base hbase artifact _ name _ front hfront => ?_).1
  · rw [reached_staleUnit, artifacts, place_staleUnit] at hrestored
    exact hrestored
  · rw [place_staleUnit] at hplace
    cases hplace
    obtain rfl : base = ⟨"/"⟩ := (Option.some.inj hbase).symm
    rw [List.prefix_nil.mp (hfront : front <+: [])]
    intro hprefix
    simpa using List.prefix_nil.mp hprefix

/-- If the path of the project leads through the stale unit, the clone is out of reach once that is
removed, and left behind. -/
theorem exists_run_leaving_clone : ∃ project,
    staleUnit.tree.isDirectoryAt ["App-7.xcodeproj"] = false ∧
      ((unanswered.run .sha256 (seventhRun project)).run staleUnit).2.tree.isDirectoryAt
        ["App-7.xcodeproj"] = true :=
  ⟨⟨"Bridging-7.m/../App.xcodeproj"⟩, rfl, by decide +kernel⟩

end Pipeline

end BridgingHeader
