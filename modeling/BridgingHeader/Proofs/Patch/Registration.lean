import BridgingHeader.Proofs.FileTree.Placement
import BridgingHeader.Proofs.Project.Additions
import BridgingHeader.Proofs.Project.Reachable
import BridgingHeader.Proofs.Simulation.Preservation

/-!
# Registering sources

A source is registered all or nothing. Until the addition has succeeded the machine is only read.
After that the project is written to one file, and directories are made only where the path of the
output leads and nothing stood. What was written is the project with the source, and it is loaded
again from there.
-/

namespace BridgingHeader

open FileTree (Plain Furnished IsName Wrote origin placeAfter placeOf removedPlace steps)

/-- The working directory is there, or it stood where nothing can stand any more. -/
def Machine.IsPlaced (machine : Machine) : Prop :=
  machine.tree.isDirectoryAt machine.directory = true ∨
    removedPlace machine.directory = machine.directory

/-- A change of the tree leaves a machine so, wherever its working directory was. -/
theorem Machine.isPlaced_withTree (machine : Machine) (tree : FileTree) :
    (machine.withTree tree).IsPlaced := by
  by_cases hthere : tree.isDirectoryAt machine.directory = true
  · have hdirectory : (machine.withTree tree).directory = machine.directory := if_pos hthere
    left
    rw [hdirectory]
    exact hthere
  · have hdirectory : (machine.withTree tree).directory = removedPlace machine.directory :=
      if_neg hthere
    right
    rw [hdirectory, removedPlace, removedPlace, List.dropLast_concat]

/-- A working directory stays where it is while directories stay. -/
theorem Machine.IsPlaced.directory_withTree {machine : Machine} (h : machine.IsPlaced)
    {tree : FileTree} (hkept : machine.tree.isDirectoryAt machine.directory = true →
      tree.isDirectoryAt machine.directory = true) :
    (machine.withTree tree).directory = machine.directory := by
  have hdirectory : (machine.withTree tree).directory = if tree.isDirectoryAt machine.directory
    then machine.directory else removedPlace machine.directory := rfl
  rw [hdirectory]
  rcases h with hthere | hremoved
  · rw [if_pos (hkept hthere)]
  · rw [hremoved, ite_self]

/-! ### Directories on the way -/

/-- A place through which a path leads. -/
def OnWay (directory : Place) (path : Path) (place : Place) : Prop :=
  ∃ front, front <+: steps path ∧ place = placeAfter (origin directory path) front

/-- A path that starts like another one and takes the first of its steps. -/
def Before (path output : Path) : Prop :=
  path.isAbsolute = output.isAbsolute ∧ steps path <+: steps output

theorem Before.parent? {path output parent : Path} (h : Before path output)
    (hparent : path.parent? = some parent) : Before parent output := by
  obtain ⟨habsolute, hsteps⟩ := Path.steps_parent?_prefix hparent
  exact ⟨habsolute.trans h.1, hsteps.trans h.2⟩

/-- The directory for the descriptor of a bundle is on the way of the bundle. -/
theorem Before.of_parent?_descriptorOf {output parent : Path}
    (h : (Project.descriptorOf output).parent? = some parent) : Before parent output := by
  obtain ⟨habsolute, dots, -, hsteps⟩ := Path.steps_parent?_join output isName_descriptor h
  refine ⟨habsolute, ?_⟩
  rw [hsteps]
  exact List.prefix_append _ _

/-- A machine in which only directories on the way of a path are new. -/
structure Prepared (start : Machine) (output : Path) (machine : Machine) : Prop where
  isPlaced : machine.IsPlaced
  directory : machine.directory = start.directory
  furnished : Furnished (OnWay start.directory output) start.tree machine.tree

namespace Prepared

variable {start machine : Machine} {output path : Path}

theorem makeDirectory (hpath : Before path output) :
    Preserves (Prepared start output) (Host.makeDirectory path : Simulation _) := by
  intro machine h
  change Prepared start output (Machine.change (fun tree directory =>
    tree.makeDirectory directory path) machine).2
  unfold Machine.change
  split
  · next tree htree =>
    have hway : OnWay start.directory output (placeOf machine.directory path) := by
      refine ⟨steps path, hpath.2, ?_⟩
      rw [placeOf, origin, origin, hpath.1, h.directory]
    have hmade := Furnished.makeDirectory h.furnished.plain hway htree
    refine ⟨machine.isPlaced_withTree tree, ?_, h.furnished.trans hmade⟩
    exact (h.isPlaced.directory_withTree hmade.isDirectoryAt).trans h.directory
  · exact h

theorem makeDirectories (depth : Nat) (hpath : Before path output) :
    Preserves (Prepared start output) (Files.makeDirectories depth path) :=
  .makeDirectories (R := (Before · output)) (fun _ h => makeDirectory h)
    (fun _ _ _ hbefore _ _ => hbefore.parent?) depth hpath

theorem makeAllDirectories (hpath : Before path output) :
    Preserves (Prepared start output)
      (Files.makeAllDirectories path : Task Simulation Unit).run :=
  .run_at (makeDirectories _ hpath)

/-- The directory of the descriptor is prepared, too. -/
theorem ensureParent : Preserves (Prepared start output)
    (Files.ensureParent (Project.descriptorOf output) : Task Simulation Unit).run := by
  unfold Files.ensureParent
  split
  · next parent hnamed =>
    exact .ensureDirectory (makeAllDirectories
      (.of_parent?_descriptorOf (Option.filter_eq_some_iff.mp hnamed).1))
  · exact .pure _

end Prepared

/-! ### Saving and loading -/

namespace Project

variable {start after machine : Machine} {bundle output : Path} {p q : Project}

/-- A project that was saved is in the descriptor, behind directories that were prepared for it. -/
theorem exists_wrote_of_save {path : Path} (hplain : Plain start.tree) (hplaced : start.IsPlaced)
    (h : (save (m := Simulation) q output).run start = (.ok path, after)) :
    ∃ made, Prepared start output made ∧ after.directory = start.directory ∧
      Wrote made.tree start.directory output "project.pbxproj" q.print.toUTF8 after.tree := by
  obtain ⟨_, ensured, hensured, h⟩ := exists_of_run_bind_ok h
  obtain ⟨_, written, hwritten, h⟩ := exists_of_run_bind_ok h
  cases h
  obtain ⟨_, made, hmade, hwrite⟩ := exists_of_run_bind_ok hwritten
  have hensure : Preserves (Prepared start output) (Files.ensureDirectory output).run :=
    .ensureDirectory (Prepared.makeAllDirectories ⟨rfl, List.prefix_rfl⟩)
  have hprepared := hensure start ⟨hplaced, rfl, .refl hplain⟩
  rw [hensured] at hprepared
  replace hprepared := Prepared.ensureParent ensured hprepared
  rw [hmade] at hprepared
  obtain ⟨tree, htree, rfl⟩ := Machine.exists_of_change (run_at_eq_ok_iff.mp hwrite)
  rw [hprepared.directory] at htree
  have hwrote := FileTree.wrote_of_write hprepared.furnished.plain isName_descriptor htree
  refine ⟨made, hprepared, ?_, hwrote⟩
  exact (hprepared.isPlaced.directory_withTree hwrote.directories.isDirectoryAt).trans
    hprepared.directory

/-- The bytes of a text are read as that text. -/
theorem fromUTF8?_toUTF8 (text : String) : String.fromUTF8? text.toUTF8 = some text := by
  unfold String.fromUTF8?
  split
  · rfl
  · next hinvalid => exact absurd text.isValidUTF8 hinvalid

theorem run_readText_of_ok {path : Path} {text : String}
    (h : machine.tree.read machine.directory path = .ok text.toUTF8) :
    (Files.readText path : Task Simulation String).run machine = (.ok text, machine) := by
  have hread : (Task.at path (Host.readFile path : Simulation _)).run machine =
      (.ok text.toUTF8, machine) := by
    have hrun : (Task.at path (Host.readFile path : Simulation _)).run machine =
        ((machine.tree.read machine.directory path).mapError (Failure.io path), machine) := rfl
    rw [hrun, h]
    rfl
  rw [Files.readText, run_bind_of_ok hread, fromUTF8?_toUTF8]
  rfl

theorem load_of_read {text : String}
    (h : machine.tree.read machine.directory (descriptorOf bundle) = .ok text.toUTF8)
    (hparse : parse text = .ok p) :
    (load (m := Simulation) bundle).run machine = (.ok p, machine) := by
  rw [load, run_bind_of_ok (run_readText_of_ok h), hparse]
  rfl

/-- Loading changes nothing. -/
theorem run_load (bundle : Path) (machine : Machine) : (load (m := Simulation) bundle).run machine =
    (((load (m := Simulation) bundle).run machine).1, machine) :=
  Prod.ext rfl (Preserves.load (I := (· = machine)) bundle machine rfl)

/-- A project is loaded by reading its descriptor. -/
theorem exists_read_of_load_ok (h : ((load (m := Simulation) bundle).run start).1 = .ok p) :
    (∃ contents, start.tree.read start.directory (descriptorOf bundle) = .ok contents) ∧
      ∃ text, parse text = .ok p := by
  obtain ⟨text, htext, hparsed⟩ := exists_of_bind_ok h
  obtain ⟨contents, hcontents, -⟩ := exists_of_bind_ok htext
  constructor
  · have hrun : ((Task.at (descriptorOf bundle)
        (Host.readFile (descriptorOf bundle) : Simulation _)).run start).1 =
      (start.tree.read start.directory (descriptorOf bundle)).mapError
        (Failure.io (descriptorOf bundle)) := rfl
    rw [hrun] at hcontents
    cases hread : start.tree.read start.directory (descriptorOf bundle) with
    | ok found => exact ⟨found, rfl⟩
    | error cause =>
      rw [hread] at hcontents
      cases hcontents
  · refine ⟨text, ?_⟩
    cases hparse : parse text with
    | ok project =>
      rw [hparse] at hparsed
      cases hparsed
      rfl
    | error defect =>
      rw [hparse] at hparsed
      cases hparsed

/-- A project is loaded from a file that stands where the path of the descriptor leads. -/
theorem exists_of_load_ok (hplain : Plain start.tree)
    (h : ((load (m := Simulation) bundle).run start).1 = .ok p) :
    (∃ permissions contents, start.tree.get? (placeOf start.directory (descriptorOf bundle)) =
      some (.file permissions contents)) ∧ ∃ text, parse text = .ok p := by
  obtain ⟨⟨contents, hread⟩, hparse⟩ := exists_read_of_load_ok h
  obtain ⟨permissions, hfile⟩ := FileTree.exists_file_of_read hplain hread
  exact ⟨⟨permissions, contents, hfile⟩, hparse⟩

/-- What saving a project leaves behind when it succeeds. -/
structure Saved (q : Project) (output : Path) (start after : Machine) : Prop where
  /-- A descriptor that was there before keeps its permissions. -/
  written : after.tree.get? (placeOf start.directory (descriptorOf output)) =
    some (.file (start.tree.permissionsFor (placeOf start.directory (descriptorOf output)))
      q.print.toUTF8)
  reloaded : (start.tree.permissionsFor
      (placeOf start.directory (descriptorOf output))).readable = true →
    (load (m := Simulation) output).run after = (.ok q, after)
  elsewhere : ∀ place ≠ placeOf start.directory (descriptorOf output),
    after.tree.node? place = start.tree.node? place ∨ OnWay start.directory output place ∧
      start.tree.node? place = none ∧ after.tree.node? place = some .empty

theorem saved_of_save {path : Path} (hplain : Plain start.tree) (hplaced : start.IsPlaced)
    (hq : q.Loadable) (h : (save (m := Simulation) q output).run start = (.ok path, after)) :
    Saved q output start after := by
  obtain ⟨made, hprepared, hdirectory, hwrote⟩ := exists_wrote_of_save hplain hplaced h
  have hplace := placeOf_descriptorOf start.directory output
  -- The file was not written where a directory had just been made.
  have hsame : made.tree.node? (placeOf start.directory (descriptorOf output)) =
      start.tree.node? (placeOf start.directory (descriptorOf output)) := by
    rcases hprepared.furnished.entries (placeOf start.directory (descriptorOf output)) with
      hsame | ⟨-, -, hnew⟩
    · exact hsame
    · rw [hplace] at hnew
      obtain ⟨old, hold, hshallow⟩ := Option.map_eq_some_iff.mp hnew
      obtain ⟨permissions, contents, rfl⟩ := hwrote.replaced old hold
      cases hshallow
  have hpermissions := FileTree.permissionsFor_congr hsame
  constructor
  case written =>
    rw [← hpermissions, hplace]
    exact hwrote.written
  case reloaded =>
    intro hreadable
    rw [← hpermissions, hplace] at hreadable
    refine load_of_read ?_ hq.parse_print
    rw [hdirectory]
    exact hwrote.read isName_descriptor hreadable
  case elsewhere =>
    intro place hother
    rw [hplace] at hother
    rw [hwrote.entries place hother]
    exact hprepared.furnished.entries place

/-- A file elsewhere is still the same. -/
theorem Saved.get?_of_file (h : Saved q output start after) {place : Place}
    (hother : place ≠ placeOf start.directory (descriptorOf output))
    {permissions : FileTree.Permissions} {contents : ByteArray}
    (hfile : start.tree.get? place = some (.file permissions contents)) :
    after.tree.get? place = some (.file permissions contents) := by
  have hnode := FileTree.node?_eq_file_iff.mpr hfile
  rcases h.elsewhere place hother with hsame | ⟨-, hnone, -⟩
  · exact FileTree.node?_eq_file_iff.mp (hsame.trans hnode)
  · rw [hnode] at hnone
    cases hnone

/-! ### Registering -/

section Register

variable {digest : Digest} {target : String} {file : FileReference} {failure : Failure}

theorem registerSource_of_load_error
    (h : ((load (m := Simulation) bundle).run start).1 = .error failure) :
    (registerSource (m := Simulation) digest bundle target file output).run start =
      (.error ((Report.ofFailure failure).within s!"cannot load project at {bundle.text}"),
        start) := by
  have hloaded := run_toWork_within s!"cannot load project at {bundle.text}"
    (load (m := Simulation) bundle) start
  rw [run_load, h] at hloaded
  rw [registerSource, run_bind_of_error hloaded]

/-- A project that was loaded gets the source, and it is saved if that succeeds. -/
theorem registerSource_of_load_ok (h : ((load (m := Simulation) bundle).run start).1 = .ok p) :
    (registerSource (m := Simulation) digest bundle target file output).run start =
      match (addSource digest target file).outcome p with
      | (.error failure, q) =>
        (.error ((Report.ofFailure failure).within (additionContext q file failure)), start)
      | (.ok added, q) =>
        (do
          let _ ← (save q output).toWork.within s!"cannot save project to {output.text}"
          return added : Work Simulation AddedSource).run start := by
  have hloaded := run_toWork_within s!"cannot load project at {bundle.text}"
    (load (m := Simulation) bundle) start
  rw [run_load, h] at hloaded
  rw [registerSource, run_bind_of_ok hloaded, ← Edit.outcome]
  rcases (addSource digest target file).outcome p with ⟨failure | added, q⟩
  · rfl
  · rfl

end Register

/-- What a registration leaves behind when it succeeds. -/
structure Registered (digest : Digest) (bundle : Path) (target : String) (file : FileReference)
    (output : Path) (start after : Machine) (added : AddedSource) (p q : Project) : Prop
    extends Saved q output start after where
  loaded : ((load (m := Simulation) bundle).run start).1 = .ok p
  addition : (addSource digest target file).outcome p = (.ok added, q)
  objects : (∃ object, q.object? added.fileReference = some object) ∧
    ∃ object, q.object? added.buildFile = some object
  original : placeOf start.directory bundle ≠ placeOf start.directory output →
    after.tree.get? (placeOf start.directory (descriptorOf bundle)) =
      start.tree.get? (placeOf start.directory (descriptorOf bundle))

section Effect

variable {digest : Digest} {target : String} {file : FileReference} {added : AddedSource}

/-- A registration succeeds by loading, adding and saving. -/
theorem exists_of_registerSource_ok
    (h : (registerSource (m := Simulation) digest bundle target file output).run start =
      (.ok added, after)) :
    ∃ p q path, ((load (m := Simulation) bundle).run start).1 = .ok p ∧
      (addSource digest target file).outcome p = (.ok added, q) ∧
      (save (m := Simulation) q output).run start = (.ok path, after) := by
  obtain ⟨p, q, loaded, hload, hadd, hsaved⟩ := run_registerSource_eq_ok_iff.mp h
  have hrun := run_load_eq_ok_iff.mpr hload
  rw [run_load] at hrun
  obtain ⟨hp, rfl⟩ := Prod.mk.inj hrun
  exact ⟨p, q, _, hp, hadd, run_save_eq_ok_iff.mpr ⟨hsaved, rfl⟩⟩

theorem exists_registered (hplain : Plain start.tree) (hplaced : start.IsPlaced)
    (h : (registerSource (m := Simulation) digest bundle target file output).run start =
      (.ok added, after)) :
    ∃ p q, Registered digest bundle target file output start after added p q := by
  obtain ⟨p, q, path, hload, hadd, hsave⟩ := exists_of_registerSource_ok h
  obtain ⟨⟨permissions, contents, hbundle⟩, text, hparse⟩ := exists_of_load_ok hplain hload
  have hq : q.Loadable := by
    have hafter := safe_addSource digest target file p (loadable_of_parse hparse)
    rwa [Edit.after, hadd] at hafter
  have hsaved := saved_of_save hplain hplaced hq hsave
  refine ⟨p, q, { hsaved with
    loaded := hload
    addition := hadd
    objects := exists_objects_of_addSource hadd
    original := fun hother => ?_ }⟩
  rw [hbundle]
  refine hsaved.get?_of_file (fun hsame => hother ?_) hbundle
  rw [placeOf_descriptorOf, placeOf_descriptorOf] at hsame
  exact List.append_left_inj _ |>.mp hsame

/-- Nothing is changed by a registration that fails because the project cannot be loaded or the
source cannot be added, even if the addition had begun to change the project. A registration that
succeeds changes the output alone. -/
theorem registerSource_all_or_nothing (digest : Digest) (bundle : Path) (target : String)
    (file : FileReference) (output : Path) (hplain : Plain start.tree)
    (hplaced : start.IsPlaced) :
    (∀ failure, ((load (m := Simulation) bundle).run start).1 = .error failure →
      (registerSource (m := Simulation) digest bundle target file output).run start =
        (.error ((Report.ofFailure failure).within s!"cannot load project at {bundle.text}"),
          start)) ∧
    (∀ p q failure, ((load (m := Simulation) bundle).run start).1 = .ok p →
      (addSource digest target file).outcome p = (.error failure, q) →
      (registerSource (m := Simulation) digest bundle target file output).run start =
        (.error ((Report.ofFailure failure).within (additionContext q file failure)), start)) ∧
    ∀ added after, (registerSource (m := Simulation) digest bundle target file output).run start =
        (.ok added, after) →
      ∃ p q, Registered digest bundle target file output start after added p q := by
  refine ⟨fun failure => registerSource_of_load_error, fun p q failure hload hadd => ?_,
    fun added after => exists_registered hplain hplaced⟩
  rw [registerSource_of_load_ok hload, hadd]

end Effect

/-- A machine with a project of one target, and with another descriptor beside it. -/
def twoBundles (permissions : FileTree.Permissions) : Machine where
  tree := .directory {} [
    ("App.xcodeproj", .directory {} [("project.pbxproj", .file .plain
      ("\x7bobjects=\x7bP=\x7bmainGroup=G;targets=(T);\x7d;G=\x7bchildren=();\x7d;" ++
        "T=\x7bname=App;buildPhases=(S);\x7d;" ++
        "S=\x7bisa=PBXSourcesBuildPhase;files=();\x7d;\x7d;rootObject=P;\x7d").toUTF8)]),
    ("Out.xcodeproj", .directory {} [("project.pbxproj", .file permissions "old".toUTF8)])]

/-- A registration of a source of its target. -/
def registerBeside (output : Path) : Work Simulation AddedSource :=
  registerSource .sha256 ⟨"App.xcodeproj"⟩ "App" ⟨"a.m", "a.m", "sourcecode.c.objc"⟩ output

theorem plain_twoBundles (permissions : FileTree.Permissions) :
    Plain (twoBundles permissions).tree :=
  .cons (by decide) (.cons (by decide) (.file _ _) (.nil _))
    (.cons (by decide) (.cons (by decide) (.file _ _) (.nil _)) (.nil _))

/-- The project is saved in a new directory, with the source in it. -/
theorem registerSource_all_or_nothing_of_twoBundles : ∃ after p q,
    Registered .sha256 ⟨"App.xcodeproj"⟩ "App" ⟨"a.m", "a.m", "sourcecode.c.objc"⟩
      ⟨"new/Out.xcodeproj"⟩ (twoBundles .plain) after
      ⟨"6E476EB6C80BA6EF51392294", "49B57949B402CF62A087B6AD"⟩ p q := by
  have hrun : ((registerBeside ⟨"new/Out.xcodeproj"⟩).run (twoBundles .plain)).1 =
      .ok ⟨"6E476EB6C80BA6EF51392294", "49B57949B402CF62A087B6AD"⟩ := by decide +kernel
  rcases hended : (registerBeside ⟨"new/Out.xcodeproj"⟩).run (twoBundles .plain) with
    ⟨result, after⟩
  rw [hended] at hrun
  subst hrun
  exact ⟨after, (registerSource_all_or_nothing .sha256 ⟨"App.xcodeproj"⟩ "App"
    ⟨"a.m", "a.m", "sourcecode.c.objc"⟩ ⟨"new/Out.xcodeproj"⟩ (plain_twoBundles .plain)
    (.inl rfl)).2.2 _ after hended⟩

/-- A descriptor that may be written but not read is overwritten and still may not be read. -/
theorem exists_registration_not_reloaded : ∃ start added after, Plain start.tree ∧
    start.IsPlaced ∧ (registerBeside ⟨"Out.xcodeproj"⟩).run start = (.ok added, after) ∧
      ((load (m := Simulation) ⟨"Out.xcodeproj"⟩).run after).1 =
        .error (.io ⟨"Out.xcodeproj/project.pbxproj"⟩ .permissionDenied) := by
  have hrun : ((registerBeside ⟨"Out.xcodeproj"⟩).run (twoBundles { readable := false })).1 =
      .ok ⟨"6E476EB6C80BA6EF51392294", "49B57949B402CF62A087B6AD"⟩ := by decide +kernel
  have hload : ((load (m := Simulation) ⟨"Out.xcodeproj"⟩).run
      ((registerBeside ⟨"Out.xcodeproj"⟩).run (twoBundles { readable := false })).2).1 =
        .error (.io ⟨"Out.xcodeproj/project.pbxproj"⟩ .permissionDenied) := by decide +kernel
  rcases hended : (registerBeside ⟨"Out.xcodeproj"⟩).run (twoBundles { readable := false }) with
    ⟨result, after⟩
  rw [hended] at hrun hload
  subst hrun
  exact ⟨_, _, after, plain_twoBundles _, .inl rfl, hended, hload⟩

end Project

end BridgingHeader
