import BridgingHeader.Proofs.FileTree.Climbing
import BridgingHeader.Proofs.Patch.Registration
import BridgingHeader.Proofs.Simulation.Workplace

/-!
# Copies of trees

A file or a tree is copied to where nothing stands. Every step of that leaves the original as it was
and adds to the copy what stands in the original at the same place, so that the copy has all entries
of the original in the end. What else is new are the directories that lead to the copy.
-/

namespace BridgingHeader

open FileTree (IsName LeadsTo Permissions Plain SureFooted origin placeAfter placeOf relative steps)

/-! ### Directories that are made -/

section Making

variable {machine made : Machine} {path : Path}

/-- Nothing is changed where no directory can be made. -/
theorem eq_of_makeDirectory_error {cause : Cause}
    (h : (Host.makeDirectory path : Simulation _) machine = (.error cause, made)) :
    made = machine := by
  change Machine.change (fun tree directory => tree.makeDirectory directory path) machine = _ at h
  unfold Machine.change at h
  split at h <;> cases h
  rfl

variable (hplain : Plain machine.tree)
include hplain

theorem isDirectoryAt_of_makeDirectory
    (h : (Host.makeDirectory path : Simulation _) machine = (.ok (), made)) :
    made.tree.isDirectoryAt (placeOf machine.directory path) = true := by
  obtain ⟨tree, htree, rfl⟩ := Machine.exists_of_change h
  obtain ⟨hvacant, hchangeable, rfl⟩ := FileTree.set_of_makeDirectory hplain htree
  have hne : placeOf machine.directory path ≠ [] := by
    obtain ⟨-, -, parent, name, _, _, hplace, -⟩ := hvacant
    simp [hplace]
  change (machine.tree.set _ _).isDirectoryAt _ = true
  rw [FileTree.isDirectoryAt, FileTree.get?_set_self (.inr ⟨hvacant, hchangeable⟩) hne]
  rfl

variable (hend : ¬ placeOf machine.directory path <+: origin machine.directory path)
include hend

/-- What is accepted because it is a directory is one, and nothing is changed. -/
theorem isDirectoryAt_of_accepted {cause : Cause}
    (h : (do if ← Files.isDirectory path then return .ok () else return .error cause :
      Simulation (Except Cause Unit)) machine = (.ok (), made)) :
    made.tree.isDirectoryAt (placeOf machine.directory path) = true := by
  have hkind : (Host.kind path : Simulation _) machine =
      ((machine.find .target path).map fun found => found.2.kind, machine) := rfl
  simp only [Files.isDirectory, bind, StateT.bind, hkind] at h
  cases hfind : machine.find .target path with
  | error cause =>
    rw [hfind] at h
    cases h
  | ok found =>
    obtain ⟨place, sub⟩ := found
    obtain ⟨-, hget⟩ := FileTree.get?_of_find hplain (by decide) hfind fun h => absurd h hend
    rw [hfind] at h
    cases sub with
    | directory permissions items =>
      cases h
      rw [FileTree.isDirectoryAt, hget]
      rfl
    | file permissions contents => cases h
    | link target => cases h

theorem isDirectoryAt_of_makeOne
    (h : (Files.makeOne path : Simulation _) machine = (.ok (), made)) :
    made.tree.isDirectoryAt (placeOf machine.directory path) = true := by
  rcases hmake : (Host.makeDirectory path : Simulation _) machine with ⟨cause | ⟨⟩, after⟩
  · obtain rfl := eq_of_makeDirectory_error hmake
    simp only [Files.makeOne, bind, StateT.bind, hmake] at h
    exact isDirectoryAt_of_accepted hplain hend h
  · simp only [Files.makeOne, bind, StateT.bind, hmake] at h
    cases h
    exact isDirectoryAt_of_makeDirectory hplain hmake

end Making

/-- After directories were made for a path, one stands where it leads. -/
theorem isDirectoryAt_of_makeDirectories {machine made : Machine} {path : Path}
    (hplain : Plain machine.tree) (hplaced : machine.IsPlaced) (htext : path.text ≠ "")
    (hend : ¬ placeOf machine.directory path <+: origin machine.directory path) (depth : Nat)
    (h : (Files.makeDirectories depth path : Simulation _) machine = (.ok (), made)) :
    made.tree.isDirectoryAt (placeOf machine.directory path) = true := by
  cases depth with
  | zero => cases h
  | succ depth =>
    rw [Files.makeDirectories, if_neg htext] at h
    rcases hmake : (Host.makeDirectory path : Simulation _) machine with ⟨cause | ⟨⟩, after⟩
    · obtain rfl := eq_of_makeDirectory_error hmake
      simp only [bind, StateT.bind, hmake] at h
      by_cases hmissing : cause = .noEntry
      · subst hmissing
        cases hpath : path.parent? with
        | none =>
          rw [hpath] at h
          cases h
        | some parent =>
          have hprepared : Prepared after path ((Files.makeDirectories depth parent :
              Simulation (Except Cause Unit)) after).2 :=
            Prepared.makeDirectories depth (Before.parent? ⟨rfl, List.prefix_rfl⟩ hpath) after
              ⟨hplaced, rfl, .refl hplain⟩
          rw [hpath] at h
          rcases hparent : (Files.makeDirectories depth parent : Simulation _) after with
            ⟨cause | ⟨⟩, between⟩
          · simp only [StateT.bind, hparent] at h
            cases h
          · simp only [StateT.bind, hparent] at h
            rw [hparent] at hprepared
            rw [← hprepared.directory] at hend ⊢
            exact isDirectoryAt_of_makeOne hprepared.furnished.plain hend h
      · have haccepted : (do
            if ← Files.isDirectory path then return .ok () else return .error cause :
              Simulation (Except Cause Unit)) after = (.ok (), made) := by
          cases cause <;> first | exact absurd rfl hmissing | exact h
        exact isDirectoryAt_of_accepted hplain hend haccepted
    · simp only [bind, StateT.bind, hmake] at h
      cases h
      exact isDirectoryAt_of_makeDirectory hplain hmake

/-! ### Copying -/

/-- An entry as a copy has it: a directory is a new one, and a file has the contents and the
permissions of the original. -/
def FileTree.renewed : FileTree → FileTree
  | .directory .. => .empty
  | t => t

theorem FileTree.map_renewed_of_isDirectoryAt {t : FileTree} {place : Place}
    (h : t.isDirectoryAt place = true) : (t.node? place).map renewed = some empty := by
  obtain ⟨-, hnone⟩ | ⟨permissions, items, -, hget⟩ := Stand.here_cases t place
  · rw [hnone] at h
    cases h
  · rw [node?, hget]
    rfl

theorem FileTree.node?_ne_none_of_append {t : FileTree} {place rest : Place}
    (h : t.node? (place ++ rest) ≠ none) : t.node? place ≠ none := by
  rw [node?, Ne, Option.map_eq_none_iff] at h ⊢
  rw [get?_append] at h
  intro hnone
  rw [hnone] at h
  exact h rfl

theorem FileTree.node?_ne_none_of_isDirectoryAt {t : FileTree} {place : Place}
    (h : t.isDirectoryAt place = true) : t.node? place ≠ none := by
  intro hnone
  rw [isDirectoryAt_eq, hnone] at h
  cases h

/-- A machine with something to be copied to a path where nothing stands. The path of the original
can start in a directory that was removed. -/
structure CopySite (start : Machine) (source target : Path) (original copy : Place) : Prop where
  plain : Plain start.tree
  isPlaced : start.IsPlaced
  original_eq : placeOf start.directory source = original
  copy_eq : placeOf start.directory target = copy
  footing : ∀ place, place <+: origin start.directory source → start.tree.node? place ≠ none →
    start.tree.isDirectoryAt place = true
  sure : SureFooted start.tree start.directory target
  leads : ∃ front name, LeadsTo target front name
  missing : start.tree.get? copy = none
  original_apart : ¬ original <+: copy
  copy_apart : ¬ copy <+: original

namespace CopySite

variable {start : Machine} {source target : Path} {original copy : Place}
  (hsite : CopySite start source target original copy)
include hsite

theorem apart (names : Place) : ¬ copy <+: original ++ names := by
  intro h
  rcases List.prefix_or_prefix_of_prefix h (List.prefix_append original names) with h | h
  · exact hsite.copy_apart h
  · exact hsite.original_apart h

theorem apart' (names : Place) : ¬ original ++ names <+: copy :=
  fun h => hsite.original_apart ((List.prefix_append original names).trans h)

theorem ne (names : Place) : copy ++ names ≠ original ++ names := by
  intro h
  rw [List.append_cancel_right h] at hsite
  exact hsite.copy_apart List.prefix_rfl

theorem copy_ne_nil : copy ≠ [] := by
  obtain ⟨front, name, hleads⟩ := hsite.leads
  rw [← hsite.copy_eq]
  exact hleads.placeOf_ne_nil _

end CopySite

/-- A path to an entry of the original, written as the path of the original with names behind it. -/
structure Within (start : Machine) (source : Path) (original : Place) (path : Path)
    (names : Place) : Prop where
  isAbsolute_eq : path.isAbsolute = source.isAbsolute
  placeOf_eq : placeOf start.directory path = original ++ names
  there : start.tree.node? (original ++ names) ≠ none

theorem Within.join {start : Machine} {source path : Path} {original names : Place} {name : String}
    (h : Within start source original path names) (hname : IsName name)
    (hthere : start.tree.node? (original ++ (names ++ [name])) ≠ none) :
    Within start source original (path.join ⟨name⟩) (names ++ [name]) where
  isAbsolute_eq := (FileTree.isAbsolute_join path hname.isAbsolute_eq).trans h.isAbsolute_eq
  placeOf_eq := by
    rw [FileTree.placeOf_join_name _ _ hname, h.placeOf_eq, List.append_assoc]
  there := hthere

/-- A machine on which the original is as it was. -/
structure Intact (start : Machine) (original : Place) (machine : Machine) : Prop where
  directory : machine.directory = start.directory
  plain : Plain machine.tree
  nodes : ∀ names,
    machine.tree.node? (original ++ names) = start.tree.node? (original ++ names)

/-- What is found in the original stands there. -/
theorem Intact.get?_of_find {start machine : Machine} {source target path : Path}
    {original copy names : Place} (h : Intact start original machine)
    (hsite : CopySite start source target original copy)
    (hpath : Within start source original path names) {aim : FileTree.Aim} (haim : aim ≠ .output)
    {found : Place} {sub : FileTree} (hfind : machine.find aim path = .ok (found, sub)) :
    found = original ++ names ∧ machine.tree.get? (original ++ names) = some sub := by
  have hplace : placeOf machine.directory path = original ++ names := by
    rw [h.directory, hpath.placeOf_eq]
  rw [← hplace]
  refine FileTree.get?_of_find h.plain haim hfind fun hclimb => ?_
  -- A path that only climbs leads to a directory, since it has started below that.
  rw [hplace] at hclimb ⊢
  have horigin : origin machine.directory path = origin start.directory source := by
    rw [origin, origin, h.directory, hpath.isAbsolute_eq]
  rw [FileTree.isDirectoryAt_eq, h.nodes, ← FileTree.isDirectoryAt_eq]
  exact hsite.footing _ (horigin ▸ hclimb) hpath.there

/-- A machine with a part of the copy. What is new apart from that are directories that lead to it.
-/
structure Copying (start : Machine) (original copy : Place) (machine : Machine) : Prop where
  isPlaced : machine.IsPlaced
  directory : machine.directory = start.directory
  plain : Plain machine.tree
  outside : ∀ place, ¬ copy <+: place → machine.tree.node? place = start.tree.node? place ∨
    place <+: copy ∧ start.tree.node? place = none ∧ machine.tree.node? place = some .empty
  inside : ∀ names, machine.tree.node? (copy ++ names) = none ∨
    machine.tree.node? (copy ++ names) =
      (start.tree.node? (original ++ names)).map FileTree.renewed

/-- A step by which an entry of the original is copied with everything below it. -/
structure CopyStep (start : Machine) (original copy names : Place) (machine after : Machine) :
    Prop where
  copying : Copying start original copy after
  kept : ∀ place, machine.tree.node? place ≠ none → after.tree.node? place ≠ none
  copied : ∀ rest, start.tree.node? (original ++ (names ++ rest)) ≠ none →
    after.tree.node? (copy ++ (names ++ rest)) ≠ none

namespace Copying

variable {start machine after : Machine} {source target : Path} {original copy : Place}
  (hsite : CopySite start source target original copy)
include hsite

theorem refl : Copying start original copy start where
  isPlaced := hsite.isPlaced
  directory := rfl
  plain := hsite.plain
  outside _ _ := .inl rfl
  inside names := by
    left
    rw [FileTree.node?, FileTree.get?_append, hsite.missing]
    rfl

theorem intact (h : Copying start original copy machine) : Intact start original machine where
  directory := h.directory
  plain := h.plain
  nodes names :=
    (h.outside _ (hsite.apart names)).resolve_right fun hnew => hsite.apart' names hnew.1

/-- Directories that are made for an entry of the copy are new on the way down to it only. -/
theorem new_of_onWay (h : Copying start original copy machine) {names place : Place}
    (hnames : ∀ name ∈ names, IsName name)
    (hway : OnWay machine.directory (target.join (relative names)) place)
    (hnone : machine.tree.node? place = none) :
    place <+: copy ∨ ∃ front, front <+: names ∧ place = copy ++ front := by
  obtain ⟨way, hway, rfl⟩ := hway
  have hrelative := FileTree.isAbsolute_relative hnames
  have horigin : origin machine.directory (target.join (relative names)) =
      origin start.directory target := by
    rw [origin, origin, h.directory, FileTree.isAbsolute_join target hrelative]
  rw [horigin] at hnone ⊢
  rw [FileTree.steps_join target hrelative, FileTree.steps_relative hnames] at hway
  obtain ⟨rest, hrest⟩ := hway
  rcases List.append_eq_append_iff.mp hrest with ⟨more, hmore, -⟩ | ⟨front, rfl, hfront⟩
  · left
    rcases hsite.sure.onWay ⟨[], by rw [List.append_nil, hmore]⟩ with hdown | ⟨hthere, hapart⟩
    · rwa [← hmore, ← placeOf, hsite.copy_eq] at hdown
    · -- A directory stands there already.
      rw [hsite.copy_eq] at hapart
      have hstart := FileTree.node?_ne_none_of_isDirectoryAt hthere
      rcases h.outside _ hapart with hsame | ⟨-, hmissing, -⟩
      · exact absurd (hsame.symm.trans hnone) hstart
      · exact absurd hmissing hstart
  · right
    refine ⟨front, ⟨rest, hfront.symm⟩, ?_⟩
    rw [FileTree.placeAfter_append, ← placeOf, hsite.copy_eq, FileTree.placeAfter_names _ fun name
      hname => hnames name (hfront ▸ List.mem_append_left _ hname)]

/-- What making directories for an entry of the copy changes. -/
theorem makeAllDirectories (h : Copying start original copy machine) {names : Place}
    (hnames : ∀ name ∈ names, IsName name)
    (hrun : (Files.makeAllDirectories (target.join (relative names)) : Task Simulation Unit).run
      machine = (.ok (), after)) :
    Prepared machine (target.join (relative names)) after ∧
      after.tree.isDirectoryAt (copy ++ names) = true := by
  have hprepared : Prepared machine (target.join (relative names)) after := by
    have hkept : Preserves (Prepared machine (target.join (relative names)))
        (Files.makeAllDirectories (target.join (relative names)) : Task Simulation Unit).run :=
      Prepared.makeAllDirectories ⟨rfl, List.prefix_rfl⟩
    have hafter := hkept machine ⟨h.isPlaced, rfl, .refl h.plain⟩
    rwa [hrun] at hafter
  refine ⟨hprepared, ?_⟩
  have hplace : placeOf machine.directory (target.join (relative names)) = copy ++ names := by
    rw [FileTree.placeOf_join _ _ hnames, h.directory, hsite.copy_eq]
  obtain ⟨front, name, hleads⟩ := hsite.leads
  rw [← hplace]
  refine isDirectoryAt_of_makeDirectories h.plain h.isPlaced ?_ ?_ _ (run_at_eq_ok_iff.mp hrun)
  · refine FileTree.text_ne_empty_of_steps ?_
    rw [FileTree.steps_join target (FileTree.isAbsolute_relative hnames)]
    simp [hleads.steps_ne_nil]
  · intro habove
    have horigin : origin machine.directory (target.join (relative names)) =
        origin start.directory target := by
      rw [origin, origin, h.directory,
        FileTree.isAbsolute_join target (FileTree.isAbsolute_relative hnames)]
    rw [hplace, horigin, ← hsite.copy_eq] at habove
    exact hsite.sure.apart_origin hleads ((List.prefix_append _ names).trans habove)

section Prepared

variable (h : Copying start original copy machine) {names : Place}
  (hnames : ∀ name ∈ names, IsName name)
  (hprepared : Prepared machine (target.join (relative names)) after)
include h hnames hprepared

theorem intact_of_prepared : Intact start original after where
  directory := hprepared.directory.trans h.directory
  plain := hprepared.furnished.plain
  nodes inner := by
    rw [← (h.intact hsite).nodes]
    rcases hprepared.furnished.entries (original ++ inner) with hsame | ⟨hway, hnone, -⟩
    · exact hsame
    · rcases h.new_of_onWay hsite hnames hway hnone with habove | ⟨front, -, hbelow⟩
      · exact absurd habove (hsite.apart' inner)
      · exact absurd (hbelow ▸ List.prefix_append copy front) (hsite.apart inner)

theorem of_prepared (hthere : start.tree.isDirectoryAt (original ++ names) = true) :
    Copying start original copy after where
  isPlaced := hprepared.isPlaced
  directory := hprepared.directory.trans h.directory
  plain := hprepared.furnished.plain
  outside place hplace := by
    rcases hprepared.furnished.entries place with hsame | ⟨hway, hnone, hnew⟩
    · rw [hsame]
      exact h.outside place hplace
    · rcases h.new_of_onWay hsite hnames hway hnone with habove | ⟨front, -, rfl⟩
      · refine .inr ⟨habove, ?_, hnew⟩
        rcases h.outside place hplace with hsame | ⟨-, hmissing, -⟩
        · exact hsame.symm.trans hnone
        · exact hmissing
      · exact absurd (List.prefix_append copy front) hplace
  inside inner := by
    rcases hprepared.furnished.entries (copy ++ inner) with hsame | ⟨hway, hnone, hnew⟩
    · rw [hsame]
      exact h.inside inner
    · -- A new directory stands for one on the way to the entry in the original.
      have hinner : inner <+: names := by
        rcases h.new_of_onWay hsite hnames hway hnone with habove | ⟨front, hfront, heq⟩
        · have hlength := habove.length_le
          rw [List.length_append] at hlength
          rw [List.eq_nil_of_length_eq_zero (by omega : inner.length = 0)]
          exact List.nil_prefix
        · rwa [List.append_cancel_left heq]
      right
      rw [hnew, FileTree.map_renewed_of_isDirectoryAt]
      exact FileTree.isDirectoryAt_of_below hthere ((List.prefix_append_right_inj _).mpr hinner)

end Prepared

omit hsite in
/-- One entry of the copy is new, and it is as it has to be. -/
theorem of_entry (h : Copying start original copy machine) (hplaced : after.IsPlaced)
    (hdirectory : after.directory = machine.directory) (hplain : Plain after.tree) {names : Place}
    (hentry : after.tree.node? (copy ++ names) =
      (start.tree.node? (original ++ names)).map FileTree.renewed)
    (hother : ∀ place ≠ copy ++ names, after.tree.node? place = machine.tree.node? place) :
    Copying start original copy after where
  isPlaced := hplaced
  directory := hdirectory.trans h.directory
  plain := hplain
  outside place hplace := by
    have hne : place ≠ copy ++ names := by
      rintro rfl
      exact hplace (List.prefix_append _ _)
    rw [hother place hne]
    exact h.outside place hplace
  inside inner := by
    by_cases hinner : inner = names
    · exact .inr (hinner ▸ hentry)
    · rw [hother _ fun heq => hinner (List.append_cancel_left heq)]
      exact h.inside inner

/-- A file is copied into the copy. -/
theorem copyFile (h : Copying start original copy machine) {path target' label : Path}
    {names : Place} (hpath : Within start source original path names)
    (htarget : placeOf start.directory target' = copy ++ names)
    (hrun : (Task.at label (Host.copyFile path target' : Simulation _)).run machine =
      (.ok (), after)) : CopyStep start original copy names machine after := by
  obtain ⟨tree, hcopy, rfl⟩ := Machine.exists_of_change (run_at_eq_ok_iff.mp hrun)
  have hchanged := FileTree.copyFile_changed h.plain hcopy
  obtain ⟨found, permissions, contents, hfind, hsettable, hfile, htree⟩ :=
    FileTree.set_of_copyFile h.plain hcopy
  obtain ⟨rfl, hget⟩ := (h.intact hsite).get?_of_find hsite hpath (by decide) hfind
  rw [h.directory, htarget] at hsettable hfile htree
  rw [if_neg (hsite.ne names)] at htree
  have hne : copy ++ names ≠ [] := by simp [hsite.copy_ne_nil]
  have hself : tree.node? (copy ++ names) = some (.file permissions contents) := by
    rw [htree, FileTree.node?, FileTree.get?_set_self hsettable hne]
    rfl
  have hother : ∀ place ≠ copy ++ names, tree.node? place = machine.tree.node? place :=
    fun place hplace => htree ▸ FileTree.node?_set_of_ne hsettable hne hfile.isLeaf rfl hplace
  have hsame : FileTree.SameDirectories machine.tree tree :=
    htree ▸ .set hsettable hne hfile.isLeaf hfile.directory?_eq_none rfl rfl
  have hnode : start.tree.node? (original ++ names) = some (.file permissions contents) := by
    rw [← (h.intact hsite).nodes, FileTree.node?_eq_file_iff]
    exact hget
  constructor
  case copying =>
    refine h.of_entry (machine.isPlaced_withTree tree)
      (h.isPlaced.directory_withTree hsame.isDirectoryAt) hchanged.plain ?_ hother
    rw [hnode]
    exact hself
  case kept =>
    intro place hplace
    change tree.node? place ≠ none
    by_cases heq : place = copy ++ names
    · rw [heq, hself]
      exact Option.some_ne_none _
    · rwa [hother place heq]
  case copied =>
    intro rest hrest
    change tree.node? _ ≠ none
    cases rest with
    | nil =>
      rw [List.append_nil, hself]
      exact Option.some_ne_none _
    | cons first rest =>
      -- Nothing stands below a file.
      rw [FileTree.node?_eq_file_iff] at hnode
      have hleaf : start.tree.IsLeaf (original ++ names) := fun sub hsub => by
        rw [hnode, Option.some.injEq] at hsub
        exact hsub ▸ rfl
      rw [← List.append_assoc, FileTree.node?, hleaf.get?_below] at hrest
      exact absurd rfl hrest

/-- The entries that are listed in a directory of the original. -/
theorem exists_of_list {path : Path} {names : Place} (hintact : Intact start original machine)
    (hpath : Within start source original path names) {items : List (String × NodeKind)}
    (hlist : machine.tree.list machine.directory path = .ok items) :
    start.tree.isDirectoryAt (original ++ names) = true ∧ (∀ item ∈ items, IsName item.1) ∧
      ∀ name, start.tree.node? (original ++ (names ++ [name])) ≠ none ↔
        ∃ kind, (name, kind) ∈ items := by
  have hisName := FileTree.isName_of_list hintact.plain.named hlist
  obtain ⟨⟨found, sub⟩, hfind, hlist⟩ := bind_eq_ok_iff.mp hlist
  obtain ⟨hdirectory, hlist⟩ := of_guard_eq_ok hlist
  obtain ⟨-, hlist⟩ := of_guard_eq_ok hlist
  cases hlist
  obtain ⟨-, hget⟩ := hintact.get?_of_find hsite hpath (by decide) hfind
  refine ⟨?_, hisName, fun name => ?_⟩
  · rw [FileTree.isDirectoryAt_eq, ← hintact.nodes, ← FileTree.isDirectoryAt_eq,
      FileTree.isDirectoryAt, hget]
    simpa using hdirectory
  · rw [← hintact.nodes, ← List.append_assoc, FileTree.node?, FileTree.get?_concat, hget,
      Option.bind_some, Ne, Option.map_eq_none_iff, List.lookup_eq_none_iff]
    simp

/-- A directory of the original is copied with everything below it. -/
theorem copyDirectory (depth : Nat) {directory : Path} {names : Place}
    (h : Copying start original copy machine) (hnames : ∀ name ∈ names, IsName name)
    (hpath : Within start source original directory names)
    (hrun : (Files.copyDirectory target depth directory (relative names) :
      Task Simulation Unit).run machine = (.ok (), after)) :
    CopyStep start original copy names machine after := by
  induction depth generalizing machine after directory names with
  | zero => cases hrun
  | succ depth ih =>
    rw [Files.copyDirectory] at hrun
    obtain ⟨_, made, hmade, hrun⟩ := exists_of_run_bind_ok hrun
    obtain ⟨hprepared, hthere⟩ := h.makeAllDirectories hsite hnames hmade
    obtain ⟨result, _, hlist, hrun⟩ := exists_of_run_bind_ok hrun
    cases hlist
    rcases hlist : made.tree.list made.directory directory with cause | items
    · simp only [hlist] at hrun
      cases hrun
    simp only [hlist] at hrun
    have hintact := h.intact_of_prepared hsite hnames hprepared
    obtain ⟨horiginal, hisName, hitems⟩ := exists_of_list hsite hintact hpath hlist
    have hstep : ∀ item ∈ items, ∀ m m', Copying start original copy m →
        (if item.2 = .directory then Files.copyDirectory target depth (directory.join ⟨item.1⟩)
            ((relative names).join ⟨item.1⟩)
          else Task.at (directory.join ⟨item.1⟩) (Host.copyFile (directory.join ⟨item.1⟩)
            (target.join ((relative names).join ⟨item.1⟩))) : Task Simulation Unit).run m =
          (.ok (), m') → CopyStep start original copy (names ++ [item.1]) m m' := by
      intro item hitem m m' hm hrun
      have hname := hisName item hitem
      have hinner : ∀ name ∈ names ++ [item.1], IsName name := by
        simpa [or_imp, forall_and] using ⟨hnames, hname⟩
      have hentry := hpath.join hname ((hitems item.1).mpr ⟨item.2, hitem⟩)
      rw [FileTree.relative_join hnames hname] at hrun
      split at hrun
      · exact ih hm hinner hentry hrun
      · refine hm.copyFile hsite hentry ?_ hrun
        rw [FileTree.placeOf_join _ _ hinner, hsite.copy_eq]
    -- The loop keeps what is there, so that every entry that was copied is there in the end.
    obtain ⟨⟨hend, hkept⟩, hcopied, -⟩ := run_forM_of_ok
      (I := fun m => Copying start original copy m ∧
        ∀ place, made.tree.node? place ≠ none → m.tree.node? place ≠ none)
      (Q := fun item m => ∀ rest, start.tree.node? (original ++ (names ++ item.1 :: rest)) ≠ none →
        m.tree.node? (copy ++ (names ++ item.1 :: rest)) ≠ none)
      (fun item hitem m m' hm hrun => by
        have hdone := hstep item hitem m m' hm.1 hrun
        have hcopied := hdone.copied
        simp only [List.append_assoc, List.singleton_append] at hcopied
        exact ⟨⟨hdone.copying, fun place hplace => hdone.kept place (hm.2 place hplace)⟩, hcopied,
          fun other hother rest hrest => hdone.kept _ (hother rest hrest)⟩)
      ⟨h.of_prepared hsite hnames hprepared horiginal, fun _ hplace => hplace⟩ hrun
    constructor
    case copying => exact hend
    case kept =>
      intro place hplace
      refine hkept place ?_
      rcases hprepared.furnished.entries place with hsame | ⟨-, hnone, -⟩
      · rwa [hsame]
      · exact absurd hnone hplace
    case copied =>
      intro rest hrest
      cases rest with
      | nil =>
        rw [List.append_nil]
        exact hkept _ (FileTree.node?_ne_none_of_isDirectoryAt hthere)
      | cons name rest =>
        have hbelow : start.tree.node? ((original ++ (names ++ [name])) ++ rest) ≠ none := by
          simpa using hrest
        obtain ⟨kind, hmem⟩ := (hitems name).mp (FileTree.node?_ne_none_of_append hbelow)
        exact hcopied _ hmem rest hrest

/-- A file or a tree is copied as a whole. -/
theorem copyAll (hthere : start.tree.node? original ≠ none)
    (hrun : (Files.copyAll source target : Task Simulation Unit).run start = (.ok (), after)) :
    CopyStep start original copy [] start after := by
  have hself := refl hsite
  have hpath : Within start source original source [] :=
    ⟨rfl, by rw [hsite.original_eq, List.append_nil], by rwa [List.append_nil]⟩
  have htarget : placeOf start.directory (target.join (relative [])) = copy ++ [] := by
    rw [FileTree.placeOf_join _ _ (by simp), hsite.copy_eq]
  rw [Files.copyAll, run_bind_of_ok (run_isFile source start)] at hrun
  split at hrun
  · exact hself.copyFile hsite hpath (by rw [hsite.copy_eq, List.append_nil]) hrun
  rw [run_bind_of_ok (run_linkKind source start)] at hrun
  split at hrun
  · cases hrun
  · exact hself.copyDirectory hsite _ (by simp) hpath hrun
  · rw [run_bind_of_ok (run_kind source start)] at hrun
    split at hrun
    · cases hrun
    · exact hself.copyFile hsite hpath htarget hrun

end Copying

end BridgingHeader
