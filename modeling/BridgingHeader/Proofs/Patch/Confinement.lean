import BridgingHeader.Proofs.FileTree.Vacancies
import BridgingHeader.Proofs.Patch.Registration
import BridgingHeader.Proofs.Simulation.Workplace

/-!
# Writing where nothing stands

At a path that goes on behind a missing name nothing is copied at all. At a path that ends in such a
name, a bundle is cloned and a project is saved without a change anywhere else, and nothing is left
when it is removed by the same path.
-/

namespace BridgingHeader

open FileTree (Changed Clearable HasWay IsEntry IsName IsSlashed Plain Spares origin placeAfter
  placeOf relative steps)

/-! ### Out of reach -/

section OutOfReach

variable {machine : Machine} {path parent : Path} {front after : List String} {name : String}

/-- Making directories changes nothing where one stands already. -/
theorem makeDirectories_of_pass {last : Place} (hplain : Plain machine.tree)
    (h : machine.tree.pass (origin machine.directory path) (steps path) = .ok last) (depth : Nat) :
    Preserves (· = machine) (Files.makeDirectories depth path) := by
  obtain ⟨cause, hmake, hcause⟩ := FileTree.makeDirectory_of_pass hplain h
  have hrun : (Host.makeDirectory path : Simulation _) machine = (.error cause, machine) := by
    simp only [Host.makeDirectory, Machine.change, hmake]
  refine .makeDirectories (R := (· = path)) ?_ ?_ depth rfl
  · rintro _ rfl _ rfl
    rw [hrun]
  · rintro _ parent _ rfl rfl hmissing hparent
    rw [hrun, Except.error.injEq] at hmissing
    exact absurd hmissing (hcause (Path.text_ne_empty_of_parent? hparent))

/-- Directories are not made at a path whose parent is there if it cannot be made itself. -/
theorem makeDirectories_error {cause cause' : Cause} (htext : path.text ≠ "")
    (hmake : machine.tree.makeDirectory machine.directory path = .error cause)
    (hfind : machine.find .target path = .error cause')
    (hparent : ∀ parent, path.parent? = some parent → ∀ depth,
      Preserves (· = machine) (Files.makeDirectories depth parent)) (depth : Nat) :
    ∃ other, (Files.makeDirectories depth path : Simulation _) machine =
      (.error other, machine) := by
  have hrun : (Host.makeDirectory path : Simulation _) machine = (.error cause, machine) := by
    simp only [Host.makeDirectory, Machine.change, hmake]
  have hdirectory : (Files.isDirectory path : Simulation _) machine = (false, machine) := by
    have hkind : (Host.kind path : Simulation _) machine = (.error cause', machine) := by
      simp only [Host.kind, hfind]
      rfl
    simp only [Files.isDirectory, bind, StateT.bind, hkind]
    rfl
  cases depth with
  | zero => exact ⟨_, rfl⟩
  | succ depth =>
    have hone : (Files.makeOne path : Simulation _) machine = (.error cause, machine) := by
      simp only [Files.makeOne, bind, StateT.bind, hrun, hdirectory]
      rfl
    rw [Files.makeDirectories, if_neg htext]
    simp only [bind, StateT.bind, hrun]
    by_cases hmissing : cause = .noEntry
    · subst hmissing
      cases hpath : path.parent? with
      | none => exact ⟨_, rfl⟩
      | some parent =>
        have hkept := hparent parent hpath depth machine rfl
        rcases hmade : (Files.makeDirectories depth parent : Simulation _) machine with ⟨made, left⟩
        rw [hmade] at hkept
        obtain rfl : left = machine := hkept
        simp only [StateT.bind, hmade]
        cases made with
        | ok _ => exact ⟨_, hone⟩
        | error other => exact ⟨_, rfl⟩
    · refine ⟨cause, ?_⟩
      simp only [StateT.bind, hdirectory]
      cases cause <;> rfl

theorem run_at_of_error {α : Type} {service : Simulation (Except Cause α)} {cause : Cause}
    (h : service machine = (.error cause, machine)) :
    (Task.at path service).run machine = (.error (.io path cause), machine) := by
  have hrun : (Task.at path service).run machine =
      ((service machine).1.mapError (Failure.io path), (service machine).2) := rfl
  rw [hrun, h]
  rfl

/-- A file is not copied to where none may be put out. -/
theorem run_at_copyFile_error {source target : Path} {cause : Cause}
    (h : machine.tree.openOutput machine.directory target = .error cause) :
    ∃ failure, (Task.at path (Host.copyFile source target : Simulation _)).run machine =
      (.error failure, machine) := by
  obtain ⟨other, hcopied⟩ : ∃ other, machine.tree.copyFile machine.directory source target =
      .error other := FileTree.copyFile_of_openOutput_error h
  refine ⟨.io path other, run_at_of_error ?_⟩
  simp only [Host.copyFile, Machine.change, hcopied]

section Beyond

variable {target : Path} {last : Place} (hplain : Plain machine.tree)
  (htarget : machine.tree.Beyond machine.directory target)
  (hparent : target.parent? = some parent)
  (hpass : machine.tree.pass (origin machine.directory parent) (steps parent) = .ok last)
include hplain htarget hparent hpass

/-- No directory is made at a path out of reach whose parent is there. -/
theorem makeAllDirectories_of_beyond : ∃ failure,
    (Files.makeAllDirectories (target.join ⟨""⟩) : Task Simulation Unit).run machine =
      (.error failure, machine) := by
  have htext : target.text ≠ "" := Path.text_ne_empty_of_parent? hparent
  have htext' : (target.join ⟨""⟩).text ≠ "" := by
    rw [Path.join_of_ne_empty rfl htext]
    simpa using fun hempty => absurd hempty htext
  obtain ⟨cause, hmake⟩ := htarget.join_empty.makeDirectory_error hplain
  obtain ⟨cause', hfind⟩ := htarget.join_empty.find_error hplain .target
  obtain ⟨other, hmade⟩ := makeDirectories_error htext' hmake hfind (fun above habove depth => by
    rw [Path.parent?_join_empty htext, hparent, Option.some.injEq] at habove
    exact habove ▸ makeDirectories_of_pass hplain hpass depth)
    ((target.join ⟨""⟩).text.length + 1)
  exact ⟨_, run_at_of_error hmade⟩

/-- Nothing is copied to a path out of reach. -/
theorem copyAll_of_beyond (source : Path) : ∃ failure,
    (Files.copyAll source target : Task Simulation Unit).run machine =
      (.error failure, machine) := by
  obtain ⟨cause, houtput⟩ := htarget.openOutput_error hplain
  obtain ⟨cause', hinner⟩ := htarget.join_empty.openOutput_error hplain
  obtain ⟨failure, hmade⟩ := makeAllDirectories_of_beyond hplain htarget hparent hpass
  rw [Files.copyAll, run_bind_of_ok (run_isFile source machine)]
  split
  · exact run_at_copyFile_error houtput
  · rw [run_bind_of_ok (run_linkKind source machine)]
    cases hentry : machine.find .entry source with
    | error cause => exact ⟨_, rfl⟩
    | ok found =>
      obtain ⟨place, sub⟩ := found
      cases hkind : sub.kind with
      | directory =>
        simp only [Except.map, hkind]
        generalize FileTree.pathLimit = depth
        cases depth with
        | zero => exact ⟨_, rfl⟩
        | succ depth =>
          rw [Files.copyDirectory]
          exact ⟨failure, run_bind_of_error hmade _⟩
      | file | link =>
        simp only [Except.map, hkind]
        rw [run_bind_of_ok (run_kind source machine)]
        cases machine.find .target source with
        | error cause => exact ⟨_, rfl⟩
        | ok found => exact run_at_copyFile_error hinner

theorem clone_of_beyond (source : Path) : ∃ report,
    (Project.clone source target : Work Simulation Unit).run machine =
      (.error report, machine) := by
  obtain ⟨cause, hfind⟩ := htarget.find_error hplain .entry
  exact clone_of_error hfind fun _ => copyAll_of_beyond hplain htarget hparent hpass source

end Beyond

end OutOfReach

/-! ### Below the output -/

/-- Nothing stands at a path, but an entry can be made there. -/
structure Opening (start : Machine) (output base : Path) (name : String) : Prop
    extends IsEntry output base name where
  way : HasWay start.tree start.directory base
  isDirectoryAt : start.tree.isDirectoryAt (origin start.directory base) = true
  missing : start.tree.get? (placeOf start.directory base ++ [name]) = none

/-- A machine is as another one was at the start, but for what stands where a path leads. If there
are slashes at the end of the path, that is a directory. -/
structure Confined (start : Machine) (output : Path) (machine : Machine) : Prop where
  plain : Plain machine.tree
  clearable : Clearable machine.tree
  free : ∀ place, machine.held place = false
  anchored : output.isAbsolute = true ∨ machine.directory = start.directory
  nodes : ∀ place, ¬ placeOf start.directory output <+: place →
    machine.tree.node? place = start.tree.node? place
  slashed : IsSlashed output → ∀ sub,
    machine.tree.get? (placeOf start.directory output) = some sub → sub.isDirectory = true

namespace Opening

variable {start : Machine} {output base : Path} {name : String}

theorem placeOf_output (h : Opening start output base name) :
    placeOf start.directory output = placeOf start.directory base ++ [name] :=
  h.toIsEntry.placeOf_eq start.directory

/-- The way to the output does not lead through it. -/
theorem apart (h : Opening start output base name) {front : List String}
    (hfront : front <+: steps base) :
    ¬ placeOf start.directory output <+: placeAfter (origin start.directory base) front := by
  rw [h.placeOf_output]
  exact h.way.spares h.isDirectoryAt h.missing front hfront

theorem confined (h : Opening start output base name) (hplain : Plain start.tree)
    (hclear : Clearable start.tree) (hfree : ∀ place, start.held place = false) :
    Confined start output start where
  plain := hplain
  clearable := hclear
  free := hfree
  anchored := .inr rfl
  nodes _ _ := rfl
  slashed _ sub hsub := by
    rw [h.placeOf_output, h.missing] at hsub
    cases hsub

end Opening

/-- What comes on the way to something below a path is on the way to that path, or below it. -/
theorem Before.cases_of_under {output base whole path : Path} {name : String}
    (hentry : IsEntry output base name) (hwhole : Under output whole) (hpath : Before path whole) :
    path.isAbsolute = output.isAbsolute ∧ (steps path <+: steps base ∨
      ∃ below, ∀ directory, placeOf directory path = placeOf directory output ++ below) := by
  obtain ⟨names, hnames, habsolute, hsteps⟩ : ∃ names : List String, (∀ name ∈ names, IsName name) ∧
      whole.isAbsolute = output.isAbsolute ∧ steps whole = steps output ++ names := by
    rcases hwhole with rfl | ⟨names, hnames, rfl⟩
    · exact ⟨[], nofun, rfl, (List.append_nil _).symm⟩
    · have hrelative := FileTree.isAbsolute_relative hnames
      refine ⟨names, hnames, FileTree.isAbsolute_join output hrelative, ?_⟩
      rw [FileTree.steps_join output hrelative, FileTree.steps_relative hnames]
  have hpath' := hpath.1.trans habsolute
  refine ⟨hpath', ?_⟩
  obtain ⟨rest, hrest⟩ := hpath.2
  rw [hsteps, hentry.steps_eq, List.append_assoc] at hrest
  rcases List.append_eq_append_iff.mp hrest with ⟨more, hmore, -⟩ | ⟨more, hmore, hnext⟩
  · exact .inl ⟨more, hmore.symm⟩
  cases more with
  | nil => exact .inl ⟨[], by rw [hmore, List.append_nil, List.append_nil]⟩
  | cons first below =>
    obtain ⟨rfl, rfl⟩ := List.cons_eq_cons.mp hnext
    refine .inr ⟨below, fun directory => ?_⟩
    have hbelow : ∀ n ∈ name :: below, IsName n := by
      intro n hn
      rcases List.mem_cons.mp hn with rfl | hn
      · exact hentry.isName
      · exact hnames n (List.mem_append_left _ hn)
    rw [hentry.placeOf_eq, placeOf, origin, hpath', ← origin, hentry.origin_eq, hmore,
      FileTree.placeAfter_append, FileTree.placeAfter_names _ hbelow, List.append_assoc]
    rfl

namespace Confined

variable {start machine : Machine} {output base path : Path} {name : String}

theorem origin_eq (h : Confined start output machine)
    (hpath : path.isAbsolute = output.isAbsolute) :
    origin machine.directory path = origin start.directory path := by
  rcases h.anchored with habsolute | hsame
  · rw [origin, origin, hpath, habsolute]
    rfl
  · rw [hsame]

theorem placeOf_eq (h : Confined start output machine) :
    placeOf machine.directory output = placeOf start.directory output := by
  rw [placeOf, placeOf, h.origin_eq rfl]

variable (hopen : Opening start output base name)
include hopen

/-- The way to the output stays open. -/
theorem way (h : Confined start output machine) :
    HasWay machine.tree machine.directory base := by
  have hway : HasWay machine.tree start.directory base :=
    hopen.way.congr fun front hfront => h.nodes _ (hopen.apart hfront)
  exact hway.of_origin_eq (h.origin_eq hopen.isAbsolute_eq.symm)

theorem isDirectoryAt (h : Confined start output machine) {front : List String}
    (hfront : front <+: steps base) :
    machine.tree.isDirectoryAt (placeAfter (origin start.directory base) front) = true := by
  have hstart := FileTree.isDirectoryAt_of_pass hopen.isDirectoryAt hopen.way.passed hfront
  rw [FileTree.isDirectoryAt_eq] at hstart ⊢
  rw [h.nodes _ (hopen.apart hfront)]
  exact hstart

theorem withTree (h : Confined start output machine) {tree : FileTree} {below : Place}
    (htree : Changed machine.tree (placeOf machine.directory output ++ below) tree)
    (hbelow : below = [] → IsSlashed output → ∀ sub,
      tree.get? (placeOf machine.directory output) = some sub → sub.isDirectory = true) :
    Confined start output (machine.withTree tree) := by
  rw [h.placeOf_eq] at htree hbelow
  have hnodes : ∀ place, ¬ placeOf start.directory output <+: place →
      tree.node? place = start.tree.node? place := by
    intro place hplace
    rw [← h.nodes place hplace]
    exact htree.entries place fun hprefix => hplace ((List.prefix_append _ below).trans hprefix)
  constructor
  case plain => exact htree.plain
  case clearable => exact htree.clearable h.clearable
  case free => exact h.free
  case anchored =>
    by_cases habsolute : output.isAbsolute = true
    · exact .inl habsolute
    · -- The way starts in the working directory, which is still there.
      have hsame := h.anchored.resolve_left habsolute
      have horigin : origin start.directory base = start.directory := by
        rw [← hopen.origin_eq, origin, if_neg habsolute]
      have hapart := hopen.apart (List.nil_prefix : [] <+: steps base)
      have hthere := hopen.isDirectoryAt
      rw [FileTree.placeAfter_nil, horigin] at hapart
      rw [horigin, FileTree.isDirectoryAt_eq, ← hnodes _ hapart, ← FileTree.isDirectoryAt_eq,
        ← hsame] at hthere
      exact .inr ((if_pos hthere).trans hsame)
  case nodes => exact hnodes
  case slashed =>
    intro hslash
    by_cases hnil : below = []
    · exact hbelow hnil hslash
    · intro sub hsub
      change tree.get? (placeOf start.directory output) = some sub at hsub
      have habove : ¬ placeOf start.directory output ++ below <+:
          placeOf start.directory output := by
        intro h
        have hlength := List.IsPrefix.length_le h
        rw [List.length_append] at hlength
        exact hnil (List.eq_nil_of_length_eq_zero (by omega))
      have hnode := htree.entries (placeOf start.directory output) habove
      rw [FileTree.node?, FileTree.node?, hsub] at hnode
      obtain ⟨old, hold, hshallow⟩ := Option.map_eq_some_iff.mp hnode.symm
      rw [← FileTree.isDirectory_shallow, ← hshallow, FileTree.isDirectory_shallow]
      exact h.slashed hslash old hold

/-! ### Steps of a clone -/

theorem makeDirectory {whole : Path} (hwhole : Under output whole) (hpath : Before path whole) :
    Preserves (Confined start output) (Host.makeDirectory path : Simulation _) := by
  intro machine h
  change Confined start output (Machine.change (fun tree directory =>
    tree.makeDirectory directory path) machine).2
  unfold Machine.change
  split
  · next tree htree =>
    obtain ⟨hchanged, hmissing⟩ := FileTree.makeDirectory_changed h.plain htree
    obtain ⟨habsolute, hway | ⟨below, hbelow⟩⟩ := hpath.cases_of_under hopen.toIsEntry hwhole
    · -- A directory stands there already.
      have hthere := h.isDirectoryAt hopen hway
      have hplace : placeOf machine.directory path =
          placeAfter (origin start.directory base) (steps path) := by
        rw [placeOf, h.origin_eq habsolute, ← hopen.origin_eq, origin, origin, habsolute]
      rw [← hplace, FileTree.isDirectoryAt, hmissing] at hthere
      cases hthere
    · rw [hbelow] at hchanged
      refine h.withTree hopen hchanged fun hnil _ sub hsub => ?_
      obtain ⟨hvacant, hchangeable, rfl⟩ := FileTree.set_of_makeDirectory h.plain htree
      have hplace : placeOf machine.directory path = placeOf machine.directory output := by
        rw [hbelow, hnil, List.append_nil]
      have hne : placeOf machine.directory path ≠ [] := by
        rw [hplace, hopen.placeOf_eq]
        simp
      rw [← hplace, FileTree.get?_set_self (.inr ⟨hvacant, hchangeable⟩) hne] at hsub
      cases hsub
      rfl
  · exact h

theorem makeAllDirectories {whole : Path} (hwhole : Under output whole)
    (hpath : Before path whole) : Preserves (Confined start output)
      (Files.makeAllDirectories path : Task Simulation Unit).run :=
  .run_at (.makeDirectories (R := (Before · whole)) (fun _ h => makeDirectory hopen hwhole h)
    (fun _ _ _ hbefore _ _ => hbefore.parent?) _ hpath)

/-- A file that is put out at the output or below stands there, and it does not stand at the output
if that has slashes at its end. -/
theorem change {operation : FileTree → Place → Except Cause FileTree} (hpath : Under output path)
    (hoperation : ∀ t t' directory, Plain t → operation t directory = .ok t' →
      Changed t (placeOf directory path) t' ∧ ∃ found, t.openOutput directory path = .ok found) :
    Preserves (Confined start output) (Machine.change operation) := by
  intro machine h
  unfold Machine.change
  split
  · next tree htree =>
    obtain ⟨hchanged, found, hfound⟩ := hoperation _ _ _ h.plain htree
    have hbare : steps path = steps base ++ [name] → ¬ IsSlashed path := by
      intro hsteps hslash
      obtain ⟨cause, hcause⟩ :=
        FileTree.openOutput_of_isSlashed h.plain machine.directory hslash hopen.isName hsteps
      rw [hfound] at hcause
      cases hcause
    rcases hpath with rfl | ⟨names, hnames, rfl⟩
    · rw [← List.append_nil (placeOf machine.directory path)] at hchanged
      refine h.withTree hopen hchanged fun _ hslash => ?_
      exact absurd hslash (hbare hopen.steps_eq)
    · rw [FileTree.placeOf_join _ _ hnames] at hchanged
      refine h.withTree hopen hchanged fun hnil _ => ?_
      have hrelative := FileTree.isAbsolute_relative hnames
      subst hnil
      refine absurd (FileTree.isSlashed_join_empty hopen.text_ne_empty) (hbare ?_)
      rw [FileTree.steps_join output hrelative, FileTree.steps_relative hnames, List.append_nil,
        hopen.steps_eq]
  · exact h

theorem spares (h : Confined start output machine) : Spares machine.directory base name := by
  intro front hfront
  rw [← hopen.placeOf_eq, h.placeOf_eq, h.origin_eq hopen.isAbsolute_eq.symm]
  exact hopen.apart hfront

/-- What stands at the output is removed as a whole. -/
theorem exists_removed (h : Confined start output machine) {sub : FileTree}
    (hget : machine.tree.get? (placeOf machine.directory base ++ [name]) = some sub) :
    ∃ tree, ((Files.removeIfPresent output : Task Simulation Unit).run machine).2 =
        machine.withTree tree ∧
      Changed machine.tree (placeOf machine.directory output) tree ∧
      tree.get? (placeOf machine.directory base ++ [name]) = none := by
  have hway := h.way hopen
  by_cases hdirectory : sub.isDirectory = true
  · obtain ⟨tree, htree, hnone⟩ :=
      hopen.removeTree_eq_ok h.plain hway h.clearable (h.spares hopen) hget hdirectory
    have hfind := hopen.find_of_directory h.plain hway hget hdirectory
    have hchanged : Changed machine.tree (placeOf machine.directory output)
        (machine.tree.removeTree machine.directory output).1 := FileTree.removeTree_changed h.plain
    rw [htree] at hchanged
    refine ⟨tree, ?_, hchanged, hnone⟩
    rw [removeIfPresent_of_directory hfind hdirectory h.free, htree]
  · -- A file does not stand at a path with slashes at its end.
    have hfile : sub.isDirectory = false := by simpa using hdirectory
    have hbare : output = base.join ⟨name⟩ := by
      rw [← hopen.bare, FileTree.withoutEndSlashes_of_not_isSlashed]
      intro hslash
      rw [← hopen.placeOf_eq, h.placeOf_eq] at hget
      exact hdirectory (h.slashed hslash sub hget)
    have hfind := hway.find_of_get? h.plain hopen.isName hget hopen.refusal?_eq_none hopen.short
      .entry
    obtain ⟨tree, htree, hnone⟩ :=
      hway.removeFile_eq_ok h.plain h.clearable hopen.isName hfind hfile
    rw [hbare]
    exact ⟨tree, removeIfPresent_of_file hfind hfile h.free htree,
      FileTree.removeFile_changed h.plain htree, hnone⟩

/-- Removing what stands at the output leaves nothing there. -/
theorem removeIfPresent (h : Confined start output machine) :
    Confined start output
      ((Files.removeIfPresent output : Task Simulation Unit).run machine).2 ∧
    ((Files.removeIfPresent output : Task Simulation Unit).run machine).2.tree.get?
      (placeOf start.directory output) = none := by
  have hplace : placeOf machine.directory base ++ [name] = placeOf start.directory output := by
    rw [← hopen.placeOf_eq, h.placeOf_eq]
  cases hget : machine.tree.get? (placeOf start.directory output) with
  | none =>
    obtain ⟨cause, hfind⟩ := hopen.find_of_missing h.plain (h.way hopen) (hplace ▸ hget)
    rw [removeIfPresent_of_error hfind]
    exact ⟨h, hget⟩
  | some sub =>
    obtain ⟨tree, hrun, hchanged, hnone⟩ := h.exists_removed hopen (hplace ▸ hget)
    rw [hplace] at hnone
    rw [hrun]
    rw [← List.append_nil (placeOf machine.directory output)] at hchanged
    refine ⟨h.withTree hopen hchanged fun _ _ sub hsub => ?_, hnone⟩
    rw [h.placeOf_eq, hnone] at hsub
    cases hsub

/-- Nothing is left of what was made if nothing stands at the output. -/
theorem node?_eq (h : Confined start output machine)
    (hnone : machine.tree.get? (placeOf start.directory output) = none) (place : Place) :
    machine.tree.node? place = start.tree.node? place := by
  by_cases hprefix : placeOf start.directory output <+: place
  · obtain ⟨below, rfl⟩ := hprefix
    rw [FileTree.node?, FileTree.node?, FileTree.get?_append, FileTree.get?_append, hnone,
      hopen.placeOf_output, hopen.missing]
  · exact h.nodes place hprefix

/-- A clone and its descriptor are written at the output and below. -/
theorem sandbox : Sandbox (Confined start output) output where
  isName _ _ _ h := FileTree.isName_of_list h.plain.named
  writeFile _ _ hpath := change hopen hpath fun _ _ _ hplain h => by
    obtain ⟨found, hfound, -⟩ := bind_eq_ok_iff.mp h
    exact ⟨FileTree.write_changed hplain h, found, hfound⟩
  copyFile _ _ hpath := change hopen hpath fun _ _ _ hplain h => by
    obtain ⟨_, -, hopened⟩ := bind_eq_ok_iff.mp h
    obtain ⟨found, hfound, -⟩ := bind_eq_ok_iff.mp hopened
    exact ⟨FileTree.copyFile_changed hplain h, found, hfound⟩
  make path hpath := makeAllDirectories hopen hpath ⟨rfl, List.prefix_rfl⟩
  ensure := by
    unfold Files.ensureParent
    split
    · next parent hnamed =>
      exact .ensureDirectory (makeAllDirectories hopen (.inl rfl)
        (.of_parent?_descriptorOf (Option.filter_eq_some_iff.mp hnamed).1))
    · exact .pure _
  removeIfPresent _ h := (removeIfPresent hopen h).1

end Confined

end BridgingHeader
