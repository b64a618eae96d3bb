import BridgingHeader.Proofs.Effects
import BridgingHeader.Proofs.FileTree.Clearing
import BridgingHeader.Proofs.Tracking
import BridgingHeader.Simulation.Machine

/-!
# Properties that work keeps

Work on a machine keeps a property if each of its steps does. Reading keeps every property, and what
writes below one path keeps a property that bears the few kinds of writes of which such work is made.
-/

namespace BridgingHeader

open FileTree (Plain Changed IsName relative placeOf)

open Temporaries (Tracking)
open Temporaries.Tracking (track ofWork endOf endOf_bind)

variable {I : Machine → Prop} {α β ε : Type}

/-- A change that is not refused. -/
theorem Machine.exists_of_change {machine after : Machine}
    {operation : FileTree → Place → Except Cause FileTree}
    (h : Machine.change operation machine = (.ok (), after)) :
    ∃ tree, operation machine.tree machine.directory = .ok tree ∧
      after = machine.withTree tree := by
  unfold Machine.change at h
  split at h
  · next tree htree =>
    cases h
    exact ⟨tree, htree, rfl⟩
  · cases h

/-- Work on a machine keeps a property of it. -/
def Preserves (I : Machine → Prop) (x : Simulation α) : Prop :=
  ∀ machine, I machine → I (x machine).2

namespace Preserves

/-- Work that only reads. -/
theorem of_reads {x : Simulation α} (h : ∀ machine, (x machine).2 = machine) : Preserves I x :=
  fun machine hI => (h machine).symm ▸ hI

theorem pure (a : α) : Preserves I (pure a : Simulation α) := of_reads fun _ => rfl

theorem bind {x : Simulation α} {f : α → Simulation β} (hx : Preserves I x)
    (hf : ∀ a, Preserves I (f a)) : Preserves I (x >>= f) :=
  fun machine hI => hf _ _ (hx machine hI)

/-- What follows may rely on what a result shows. -/
theorem bind_of {Q : α → Prop} {x : Simulation α} {f : α → Simulation β} (hx : Preserves I x)
    (hQ : ∀ machine, I machine → Q (x machine).1) (hf : ∀ a, Q a → Preserves I (f a)) :
    Preserves I (x >>= f) :=
  fun machine hI => hf _ (hQ machine hI) _ (hx machine hI)

/-- What comes first may leave more than the property for what follows. -/
theorem bind_through {J : α → Machine → Prop} {x : Simulation α} {f : α → Simulation β}
    (hx : ∀ machine, I machine → J (x machine).1 (x machine).2)
    (hf : ∀ a machine, J a machine → I (f a machine).2) : Preserves I (x >>= f) :=
  fun machine hI => hf _ _ (hx machine hI)

theorem throw (e : ε) : Preserves I (throw e : ExceptT ε Simulation α).run := pure _

theorem run_bind {x : ExceptT ε Simulation α} {f : α → ExceptT ε Simulation β}
    (hx : Preserves I x.run) (hf : ∀ a, Preserves I (f a).run) : Preserves I (x >>= f).run := by
  rw [ExceptT.run_bind]
  refine hx.bind fun result => ?_
  cases result with
  | ok a => exact hf a
  | error e => exact pure _

theorem liftM {x : Simulation α} (hx : Preserves I x) :
    Preserves I (liftM x : ExceptT ε Simulation α).run := by
  change Preserves I (Except.ok <$> x)
  rw [map_eq_pure_bind]
  exact hx.bind fun a => pure _

/-- What follows reading may rely on what is read. -/
theorem run_liftM_bind {Q : α → Prop} {x : Simulation α} {f : α → ExceptT ε Simulation β}
    (hx : Preserves I x) (hQ : ∀ machine, I machine → Q (x machine).1)
    (hf : ∀ a, Q a → Preserves I (f a).run) :
    Preserves I (MonadLift.monadLift x >>= f : ExceptT ε Simulation β).run :=
  fun machine hI => hf _ (hQ machine hI) _ (hx machine hI)

theorem run_forM {items : List α} {f : α → ExceptT ε Simulation PUnit}
    (h : ∀ a ∈ items, Preserves I (f a).run) : Preserves I (items.forM f).run := by
  induction items with
  | nil => exact pure _
  | cons a rest ih =>
    rw [List.forM]
    exact run_bind (h a List.mem_cons_self) fun _ => ih fun b hb => h b (List.mem_cons_of_mem _ hb)

theorem run_at {path : Path} {service : Simulation (Except Cause α)} (h : Preserves I service) :
    Preserves I (Task.at path service).run := h.bind fun _ => pure _

theorem toWork {task : Task Simulation α} (h : Preserves I task.run) :
    Preserves I task.toWork.run := h.bind fun _ => pure _

theorem within {work : Work Simulation α} (context : String) (h : Preserves I work.run) :
    Preserves I (work.within context).run := h.bind fun _ => pure _

/-! ### Reading -/

theorem exist (path : Path) : Preserves I (Files.exist path) := of_reads fun _ => rfl

theorem isFile (path : Path) : Preserves I (Files.isFile path) := by
  unfold Files.isFile
  refine (of_reads fun _ => rfl).bind fun kind => ?_
  split <;> exact pure _

theorem isDirectory (path : Path) : Preserves I (Files.isDirectory path) := by
  unfold Files.isDirectory
  refine (of_reads fun _ => rfl).bind fun kind => ?_
  split <;> exact pure _

theorem normalize (path : Path) : Preserves I (Files.normalize path) := by
  unfold Files.normalize
  refine (of_reads fun _ => rfl).bind fun canonical => ?_
  split <;> exact pure _

theorem absolute (path : Path) : Preserves I (Files.absolute path) := by
  unfold Files.absolute
  split
  · exact pure _
  · refine (of_reads fun _ => rfl).bind fun directory => ?_
    split <;> exact pure _

theorem readText (path : Path) : Preserves I (Files.readText path).run := by
  unfold Files.readText
  refine run_bind (run_at (of_reads fun _ => rfl)) fun contents => ?_
  split
  · exact pure _
  · exact throw _

theorem load (bundle : Path) : Preserves I (Project.load bundle).run := by
  unfold Project.load
  refine run_bind (readText _) fun text => ?_
  split
  · exact pure _
  · exact throw _

theorem samePlace (p q : Path) : Preserves I (Project.samePlace p q) :=
  (normalize p).bind fun _ => (normalize q).bind fun _ => pure _

theorem referenceTo (project source : Path) : Preserves I (Project.referenceTo project source) :=
  (absolute project).bind fun _ => (absolute source).bind fun _ => pure _

/-! ### Writing -/

theorem makeOne {path : Path} (h : Preserves I (Host.makeDirectory path : Simulation _)) :
    Preserves I (Files.makeOne path) := by
  unfold Files.makeOne
  refine h.bind fun result => ?_
  split
  · exact pure _
  · refine (isDirectory path).bind fun found => ?_
    split <;> exact pure _

/-- Making a directory and those that lead to it makes a parent only if that is missing. -/
theorem makeDirectories {R : Path → Prop}
    (hmake : ∀ path, R path → Preserves I (Host.makeDirectory path : Simulation _))
    (hparent : ∀ path parent machine, R path → I machine →
      ((Host.makeDirectory path : Simulation _) machine).1 = .error .noEntry →
      path.parent? = some parent → R parent) (depth : Nat) {path : Path} (h : R path) :
    Preserves I (Files.makeDirectories depth path) := by
  induction depth generalizing path with
  | zero => exact pure _
  | succ depth ih =>
    unfold Files.makeDirectories
    split
    · exact pure _
    refine (hmake path h).bind_of (Q := fun result => ∀ parent, result = .error .noEntry →
      path.parent? = some parent → R parent)
      (fun machine hI parent => hparent path parent machine h hI) fun result hresult => ?_
    split
    · exact pure _
    · split
      · exact pure _
      · next parent hpath =>
        refine (ih (hresult parent rfl hpath)).bind fun made => ?_
        split
        · exact makeOne (hmake path h)
        · exact pure _
    · refine (isDirectory path).bind fun found => ?_
      split <;> exact pure _

theorem ensureDirectory {path : Path} (h : Preserves I (Files.makeAllDirectories path).run) :
    Preserves I (Files.ensureDirectory path).run := by
  unfold Files.ensureDirectory
  refine run_bind (exist path).liftM fun found => ?_
  split
  · exact pure _
  · exact h

end Preserves

/-! ### Tracking -/

/-- Work that tracks paths leads from one property of what is tracked and of the machine to another
one if it succeeds, and to a third one if it ends with a report. -/
def Leads (J K F : Temporaries → Machine → Prop) (work : Tracking Simulation α) : Prop :=
  ∀ tracked machine, J tracked machine →
    ((∃ a, (endOf work tracked machine).1.1 = .ok a) →
      K (endOf work tracked machine).1.2 (endOf work tracked machine).2) ∧
    ((∃ report, (endOf work tracked machine).1.1 = .error report) →
      F (endOf work tracked machine).1.2 (endOf work tracked machine).2)

namespace Leads

variable {J K L F : Temporaries → Machine → Prop}

theorem pure (a : α) : Leads J J F (pure a : Tracking Simulation α) :=
  fun _ _ hJ => ⟨fun _ => hJ, nofun⟩

theorem throw (h : ∀ tracked machine, J tracked machine → F tracked machine) (report : Report) :
    Leads J K F (throw report : Tracking Simulation α) :=
  fun tracked machine hJ => ⟨nofun, fun _ => h tracked machine hJ⟩

theorem bind {work : Tracking Simulation α} {f : α → Tracking Simulation β}
    (hwork : Leads J K F work) (hf : ∀ a, Leads K L F (f a)) : Leads J L F (work >>= f) := by
  intro tracked machine hJ
  obtain ⟨hok, herror⟩ := hwork tracked machine hJ
  rw [endOf_bind]
  rcases hend : endOf work tracked machine with ⟨⟨report | a, tracked'⟩, machine'⟩
  · rw [hend] at herror
    exact ⟨nofun, fun _ => herror ⟨report, rfl⟩⟩
  · rw [hend] at hok
    exact hf a tracked' machine' (hok ⟨a, rfl⟩)

theorem ofWork {work : Work Simulation α} (h : ∀ tracked, Preserves (J tracked) work.run)
    (hF : ∀ tracked machine, J tracked machine → F tracked machine) : Leads J J F (ofWork work) :=
  fun tracked machine hJ => ⟨fun _ => h tracked machine hJ, fun _ => hF _ _ (h tracked machine hJ)⟩

theorem track {path : Path}
    (h : ∀ tracked machine, J tracked machine → K (tracked.track path) machine) :
    Leads J K F (track path) :=
  fun tracked machine hJ => ⟨fun _ => h tracked machine hJ, nofun⟩

/-- Where work leads, whether it succeeds or not. -/
theorem ended {work : Tracking Simulation α} (h : Leads J K F work)
    (hK : ∀ tracked machine, K tracked machine → F tracked machine) {tracked : Temporaries}
    {machine : Machine} (hJ : J tracked machine) :
    F (endOf work tracked machine).1.2 (endOf work tracked machine).2 := by
  obtain ⟨hok, herror⟩ := h tracked machine hJ
  cases hend : (endOf work tracked machine).1.1 with
  | ok a => exact hK _ _ (hok ⟨a, hend⟩)
  | error report => exact herror ⟨report, hend⟩

end Leads

theorem Preserves.cleanUp {tracked : Temporaries} (h : ∀ path ∈ tracked.paths,
    Preserves I (Files.removeIfPresent path : Task Simulation Unit).run) :
    Preserves I (tracked.cleanUp : Simulation Temporaries) := by
  refine .bind ?_ fun _ => .pure _
  suffices hall : ∀ paths : List Path, (∀ path ∈ paths, Preserves I
      (Files.removeIfPresent path : Task Simulation Unit).run) →
      Preserves I (paths.forM Temporaries.removeQuietly : Simulation PUnit) from
    hall _ fun path hpath => h path (List.mem_reverse.mp hpath)
  intro paths
  induction paths with
  | nil => exact fun _ => .pure _
  | cons path rest ih =>
    intro hpaths
    rw [List.forM]
    refine .bind (.bind (hpaths path List.mem_cons_self) fun _ => .pure _) fun _ => ?_
    exact ih fun other hother => hpaths other (List.mem_cons_of_mem _ hother)

/-- Work that cleans up when it fails keeps what its tracking keeps, if removing what is tracked
does. -/
theorem Preserves.cleaningUpOnFailure {J : Temporaries → Machine → Prop}
    {work : Tracking Simulation α} (hwork : Leads J J J work)
    (hstart : ∀ machine, I machine → J {} machine)
    (hend : ∀ tracked machine, J tracked machine → I machine ∧ ∀ path ∈ tracked.paths,
      Preserves I (Files.removeIfPresent path : Task Simulation Unit).run) :
    Preserves I (Temporaries.cleaningUpOnFailure work).run := by
  refine .bind_through (J := fun ended => J ended.2)
    (fun machine hI => hwork.ended (fun _ _ h => h) (hstart machine hI)) fun ended machine hJ => ?_
  obtain ⟨hmachine, hpaths⟩ := hend ended.2 machine hJ
  rcases ended with ⟨a | report, tracked⟩
  · exact Preserves.bind (Preserves.cleanUp hpaths) (fun _ => .pure _) machine hmachine
  · exact hmachine

section CleaningUp

variable {work : Tracking Simulation α} {machine left : Machine} {tracked : Temporaries}
  {result : Except Report α}

theorem run_cleaningUp (h : endOf work {} machine = ((result, tracked), left)) :
    (Temporaries.cleaningUp work).run machine =
      (result, ((tracked.cleanUp : Simulation Temporaries) left).2) := by
  have hrun : (Temporaries.cleaningUp work).run machine = ((endOf work {} machine).1.1,
      (((endOf work {} machine).1.2.cleanUp : Simulation Temporaries)
        (endOf work {} machine).2).2) := rfl
  rw [hrun, h]

theorem run_cleaningUpOnFailure (h : endOf work {} machine = ((result, tracked), left)) :
    (Temporaries.cleaningUpOnFailure work).run machine =
      (result, if result.isOk then left
        else ((tracked.cleanUp : Simulation Temporaries) left).2) := by
  have hbind (f : Except Report α × Temporaries → Simulation (Except Report α)) :
      (work.run.run {} >>= f) machine = f (result, tracked) left := by
    change f (endOf work {} machine).1 (endOf work {} machine).2 = _
    rw [h]
  rw [Temporaries.cleaningUpOnFailure, ExceptT.run_mk, hbind]
  cases result <;> rfl

end CleaningUp

/-! ### Work below one path -/

/-- A path is another one, or follows names from it. -/
def Under (target path : Path) : Prop :=
  path = target ∨ ∃ names, (∀ name ∈ names, IsName name) ∧ path = target.join (relative names)

section Names

variable {target : Path} {names : List String} (hnames : ∀ name ∈ names, IsName name)
  {name : String} (hname : IsName name)
include hnames hname

/-- The last of some names can be followed after the others. -/
theorem join_relative_concat : target.join (relative (names ++ [name])) =
    (if names = [] then target else target.join (relative names)).join ⟨name⟩ := by
  split
  · next hnil => rw [hnil, List.nil_append, relative, String.intercalate_singleton]
  · next hne =>
    rw [← FileTree.relative_join hnames hname]
    refine (Path.join_join target (FileTree.isAbsolute_relative hnames) hname.isAbsolute_eq ?_).symm
    intro hempty
    have hsteps := FileTree.steps_relative hnames
    rw [FileTree.steps, hempty] at hsteps
    exact hne hsteps.symm

/-- The parent of a path that follows names is still below the path that they are followed from. -/
theorem parent?_join_relative {last : String}
    (htarget : (FileTree.segments target.text).getLast? = some last) (hlast : IsName last) :
    (target.join (relative (names ++ [name]))).parent? =
      some (if names = [] then target else target.join (relative names)) := by
  rw [join_relative_concat hnames hname]
  split
  · exact Path.parent?_join htarget hlast hname
  · next hne =>
    obtain ⟨init, second, rfl⟩ := (List.eq_nil_or_concat' names).resolve_left hne
    have hsecond := hnames second (by simp)
    refine Path.parent?_join ?_ hsecond hname
    rw [join_relative_concat (fun n hn => hnames n (by simp [hn])) hsecond,
      FileTree.getLast?_segments_join _ hsecond]

end Names

/-- The parent of a path is below another one, or it is the path itself that is that other one. -/
theorem Under.parent? {base path parent : Path} {name : String} (hname : IsName name)
    (h : Under (base.join ⟨name⟩) path) (hparent : path.parent? = some parent) :
    FileTree.withoutEndSlashes path = base.join ⟨name⟩ ∨ Under (base.join ⟨name⟩) parent := by
  rcases h with rfl | ⟨names, hnames, rfl⟩
  · exact .inl (FileTree.withoutEndSlashes_join base hname)
  rcases List.eq_nil_or_concat' names with rfl | ⟨init, last, rfl⟩
  · exact .inl (FileTree.withoutEndSlashes_join_empty base hname)
  · have hinit : ∀ n ∈ init, IsName n := fun n hn => hnames n (by simp [hn])
    rw [parent?_join_relative hinit (hnames last (by simp))
      (FileTree.getLast?_segments_join base hname) hname, Option.some.injEq] at hparent
    subst hparent
    right
    split
    · exact .inl rfl
    · exact .inr ⟨init, hinit, rfl⟩

theorem isName_descriptorName : ∀ name ∈ ["project.pbxproj"], IsName name := by
  decide

theorem isName_descriptor : IsName "project.pbxproj" := isName_descriptorName _ (by simp)

theorem descriptorOf_eq (bundle : Path) :
    Project.descriptorOf bundle = bundle.join (relative ["project.pbxproj"]) :=
  congrArg bundle.join (by decide)

theorem under_descriptorOf (bundle : Path) : Under bundle (Project.descriptorOf bundle) :=
  .inr ⟨["project.pbxproj"], isName_descriptorName, descriptorOf_eq bundle⟩

theorem placeOf_descriptorOf (directory : Place) (bundle : Path) :
    FileTree.placeOf directory (Project.descriptorOf bundle) =
      FileTree.placeOf directory bundle ++ ["project.pbxproj"] := by
  rw [descriptorOf_eq, FileTree.placeOf_join _ _ isName_descriptorName]

/-- A property bears every change that is made at a path or below it. -/
structure Bears (I : Machine → Prop) (target : Path) : Prop where
  plain : ∀ machine, I machine → Plain machine.tree
  withTree : ∀ machine tree below, I machine →
    Changed machine.tree (placeOf machine.directory target ++ below) tree →
      I (machine.withTree tree)

namespace Bears

variable {target : Path} (h : Bears I target)
include h

theorem change {operation : FileTree → Place → Except Cause FileTree} {path : Path}
    (hpath : Under target path)
    (hoperation : ∀ t t' directory, Plain t → operation t directory = .ok t' →
      Changed t (placeOf directory path) t') : Preserves I (Machine.change operation) := by
  intro machine hI
  unfold Machine.change
  split
  · next tree htree =>
    have hchanged := hoperation _ _ _ (h.plain machine hI) htree
    rcases hpath with rfl | ⟨names, hnames, rfl⟩
    · exact h.withTree machine tree [] hI (by rwa [List.append_nil])
    · rw [FileTree.placeOf_join _ _ hnames] at hchanged
      exact h.withTree machine tree names hI hchanged
  · exact hI

theorem writeFile {path : Path} (hpath : Under target path) (contents : ByteArray) :
    Preserves I (Host.writeFile path contents : Simulation _) :=
  h.change hpath fun _ _ _ hplain => FileTree.write_changed hplain

theorem copyFile (source : Path) {path : Path} (hpath : Under target path) :
    Preserves I (Host.copyFile source path : Simulation _) :=
  h.change hpath fun _ _ _ hplain => FileTree.copyFile_changed hplain

theorem makeDirectory {path : Path} (hpath : Under target path) :
    Preserves I (Host.makeDirectory path : Simulation _) :=
  h.change hpath fun _ _ _ hplain ht => (FileTree.makeDirectory_changed hplain ht).1

theorem removeIfPresent :
    Preserves I (Files.removeIfPresent target : Task Simulation Unit).run := by
  unfold Files.removeIfPresent
  refine .run_bind (Preserves.of_reads fun _ => rfl).liftM fun kind => ?_
  split
  · exact .pure _
  · exact .throw _
  · refine .run_at fun machine hI => ?_
    dsimp only [Host.removeTree]
    split
    · exact hI
    · refine h.withTree machine _ [] hI ?_
      rw [List.append_nil]
      exact FileTree.removeTree_changed (h.plain machine hI)
  · refine .run_at fun machine hI => ?_
    dsimp only [Host.removeFile]
    split
    · exact hI
    · exact h.change (.inl rfl) (fun _ _ _ hplain => FileTree.removeFile_changed hplain) machine hI

end Bears

/-- A property bears all that is done to fill a project bundle, as long as nothing is removed. -/
structure Fillable (I : Machine → Prop) (target : Path) : Prop where
  isName : ∀ machine path items, I machine →
    machine.tree.list machine.directory path = .ok items → ∀ item ∈ items, IsName item.1
  writeFile : ∀ path contents, Under target path →
    Preserves I (Host.writeFile path contents : Simulation _)
  copyFile : ∀ source path, Under target path →
    Preserves I (Host.copyFile source path : Simulation _)
  make : ∀ path, Under target path →
    Preserves I (Files.makeAllDirectories path : Task Simulation Unit).run
  ensure : Preserves I (Files.ensureParent (Project.descriptorOf target) : Task Simulation Unit).run

/-- A property bears all that is done to write a project bundle. -/
structure Sandbox (I : Machine → Prop) (target : Path) : Prop extends Fillable I target where
  removeIfPresent : Preserves I (Files.removeIfPresent target : Task Simulation Unit).run

/-- What bears every change bears the writing of a bundle, if directories can be made for it. -/
theorem Bears.sandbox {target : Path} (h : Bears I target)
    (hmake : ∀ path, Under target path →
      Preserves I (Files.makeAllDirectories path : Task Simulation Unit).run)
    (hensure : Preserves I
      (Files.ensureParent (Project.descriptorOf target) : Task Simulation Unit).run) :
    Sandbox I target where
  isName machine _ _ hI := FileTree.isName_of_list (h.plain machine hI).named
  writeFile _ contents hpath := h.writeFile hpath contents
  copyFile source _ hpath := h.copyFile source hpath
  make := hmake
  ensure := hensure
  removeIfPresent := h.removeIfPresent

namespace Fillable

variable {target : Path} (h : Fillable I target)
include h

theorem copyDirectory (depth : Nat) (directory : Path) {names : List String}
    (hnames : ∀ name ∈ names, IsName name) :
    Preserves I (Files.copyDirectory target depth directory (relative names)).run := by
  induction depth generalizing directory names with
  | zero => exact .throw _
  | succ depth ih =>
    unfold Files.copyDirectory
    refine .run_bind (h.make _ (.inr ⟨names, hnames, rfl⟩)) fun _ => ?_
    refine .run_liftM_bind (Q := fun result => ∀ items, result = .ok items →
      ∀ item ∈ items, IsName item.1) (.of_reads fun _ => rfl)
      (fun machine hI items => h.isName machine directory items hI)
      fun result hresult => ?_
    split
    · exact .throw _
    · next items =>
      refine .run_forM fun item hitem => ?_
      have hname := hresult items rfl item hitem
      dsimp only
      rw [FileTree.relative_join hnames hname]
      have hinner : ∀ name ∈ names ++ [item.1], IsName name := by
        simpa [or_imp, forall_and] using ⟨hnames, hname⟩
      split
      · exact ih _ hinner
      · exact .run_at (h.copyFile _ _ (.inr ⟨_, hinner, rfl⟩))

theorem copyAll (source : Path) : Preserves I (Files.copyAll source target).run := by
  unfold Files.copyAll
  refine .run_bind (Preserves.isFile source).liftM fun file => ?_
  split
  · exact .run_at (h.copyFile source _ (.inl rfl))
  · refine .run_bind (Preserves.of_reads fun _ => rfl).liftM fun kind => ?_
    split
    · exact .throw _
    · have hroot : ∀ name ∈ ([] : List String), IsName name := by simp
      exact h.copyDirectory _ _ hroot
    · refine .run_bind (Preserves.of_reads fun _ => rfl).liftM fun kind => ?_
      split
      · exact .throw _
      · exact .run_at (h.copyFile source _ (.inr ⟨[], by simp, rfl⟩))

theorem save (project : Project) : Preserves I (project.save target).run := by
  unfold Project.save
  refine .run_bind (.ensureDirectory (h.make target (.inl rfl))) fun _ => ?_
  refine .run_bind ?_ fun _ => .pure _
  exact .run_bind h.ensure fun _ => .run_at (h.writeFile _ _ (under_descriptorOf target))

theorem registerSource (digest : Digest) (bundle : Path) (name : String) (file : FileReference) :
    Preserves I (Project.registerSource digest bundle name file target).run := by
  unfold Project.registerSource
  refine .run_bind (.within _ (.toWork (.load bundle))) fun project => ?_
  split
  split
  · exact .throw _
  · exact .run_bind (.within _ (.toWork (h.save _))) fun _ => .pure _

end Fillable

theorem Sandbox.clone {target : Path} (h : Sandbox I target) (source : Path) :
    Preserves I (Project.clone source target).run :=
  .within _ (.toWork (.run_bind h.removeIfPresent fun _ =>
    .run_bind (h.copyAll source) fun _ => .pure _))

end BridgingHeader
