import BridgingHeader.Proofs.FileTree.Remains
import BridgingHeader.Proofs.Simulation.Workplace

/-!
# Cleaning up

The tracked paths are removed one after the other, the last one first, and a removal that fails does
not keep the others from being made. In the end no tracked path leads anywhere whose own removal did
not fail, nothing has changed but what stood at or below a tracked path, and nothing is left to be
removed.
-/

namespace BridgingHeader

open FileTree (Listed Grounded Remains Cut Swept Stays LeadsNowhere find_eq_ok_iff removeFile_cut
  removeTree_cut)

/-! ### What dwindles -/

/-- The file tree of a machine lists its entries by name, and the working directory stands in
directories, as far as they are still there. -/
structure Machine.WellFormed (machine : Machine) : Prop where
  listed : Listed machine.tree
  grounded : Grounded machine.tree machine.directory

/-- A machine is as before, but for entries that are gone. -/
structure Dwindled (before after : Machine) : Prop where
  wellFormed : after.WellFormed
  remains : Remains before.tree after.tree
  stays : Stays after.tree before.directory after.directory
  others : after = { before with tree := after.tree, directory := after.directory }

namespace Dwindled

variable {before between after : Machine} {place : Place} {tree : FileTree}

theorem refl (h : before.WellFormed) : Dwindled before before :=
  ⟨h, .refl _, .inl rfl, rfl⟩

theorem trans (h : Dwindled before between) (h' : Dwindled between after) :
    Dwindled before after where
  wellFormed := h'.wellFormed
  remains := h.remains.trans h'.remains
  stays := h.stays.trans h'.remains h'.stays
  others := by
    rw [h'.others, h.others]

/-- Cutting something out of the file tree takes the working directory away if it stands there. -/
theorem withTree (h : before.WellFormed) (hcut : Cut before.tree place tree) :
    Dwindled before (before.withTree tree) := by
  have hdirectory : (before.withTree tree).directory = if tree.isDirectoryAt before.directory
    then before.directory else FileTree.removedPlace before.directory := rfl
  have hground := hcut.remains.grounded h.grounded
  constructor
  case wellFormed =>
    refine ⟨hcut.listed, ?_⟩
    change Grounded tree _
    rw [hdirectory]
    split
    · exact hground
    · intro above habove
      rcases List.prefix_concat_iff.mp habove with rfl | habove
      · rw [hcut.listed.get?_eq_none (by simp)]
        rfl
      · exact hground.parent above habove
  case remains => exact hcut.remains
  case stays =>
    change Stays tree _ _
    rw [hdirectory]
    split
    · exact .inl rfl
    · next hgone => exact .inr ⟨rfl, by simpa using hgone⟩
  case others => rfl

end Dwindled

/-- Where a path leads, it has led before, unless it was refused or does not leave a working
directory that is gone. -/
theorem Dwindled.find_cases {before after : Machine} {path : Path} {place : Place}
    {left : FileTree} (h : Dwindled before after) (hbefore : before.WellFormed)
    (hfind : after.find .entry path = .ok (place, left)) :
    before.find .entry path = .error .permissionDenied ∨
      (∃ sub, before.find .entry path = .ok (place, sub)) ∨ after.tree.get? place = none := by
  have hroot := hbefore.grounded.isDirectory
  obtain ⟨hrefusal, hleads⟩ :=
    (find_eq_ok_iff h.wellFormed.grounded.isDirectory).mp hfind
  rcases hleads.of_remains h.remains hroot h.wellFormed.listed h.stays with
    hdenied | ⟨other, sub, hsub, -, rfl | hmissing⟩
  · left
    rw [Machine.find, FileTree.find, FileTree.resolve, hrefusal]
    simp only [hdenied]
    rfl
  · exact .inr (.inl ⟨sub, (find_eq_ok_iff hroot).mpr ⟨hrefusal, hsub⟩⟩)
  · exact .inr (.inr hmissing)

namespace Temporaries

/-! ### One removal -/

/-- How removing what is at a path ends. -/
def removal (path : Path) (machine : Machine) : Except Failure Unit × Machine :=
  (Files.removeIfPresent path : Task Simulation Unit).run machine

/-- The ways in which a removal ends. -/
inductive Removal (machine : Machine) (path : Path) : Except Failure Unit → Machine → Prop
  | absent (missing : machine.find .entry path = .error .noEntry) :
    Removal machine path (.ok ()) machine
  | refused (failure : Failure) : Removal machine path (.error failure) machine
  | file {place : Place} {sub tree : FileTree} (found : machine.find .entry path = .ok (place, sub))
    (leaf : sub.isDirectory = false)
    (removed : machine.tree.removeFile machine.directory path = .ok tree) :
    Removal machine path (.ok ()) (machine.withTree tree)
  | tree {place : Place} {sub tree : FileTree} {result : Except Cause Unit}
    (found : machine.find .entry path = .ok (place, sub)) (directory : sub.isDirectory = true)
    (removed : machine.tree.removeTree machine.directory path = (tree, result)) :
    Removal machine path (result.mapError (.io path)) (machine.withTree tree)

theorem removal_spec (path : Path) (machine : Machine) :
    Removal machine path (removal path machine).1 (removal path machine).2 := by
  cases hfind : machine.find .entry path with
  | error cause =>
    rw [removal, removeIfPresent_of_error hfind]
    split
    · next hmissing => exact .absent (hmissing ▸ hfind)
    · exact .refused _
  | ok found =>
    obtain ⟨place, sub⟩ := found
    have hat : ∀ service : Simulation (Except Cause Unit), (Task.at path service).run machine =
        ((service machine).1.mapError (.io path), (service machine).2) := fun _ => rfl
    have hrun : removal path machine =
        if sub.isDirectory then (Task.at path (Host.removeTree path : Simulation _)).run machine
        else (Task.at path (Host.removeFile path : Simulation _)).run machine := by
      rw [removal, Files.removeIfPresent, run_bind_of_ok (run_linkKind path machine), hfind]
      cases sub <;> rfl
    rw [hrun]
    by_cases hdirectory : sub.isDirectory = true
    · rw [if_pos hdirectory, hat]
      by_cases hheld : machine.holds path = true
      · simp only [Host.removeTree, if_pos hheld]
        exact .refused _
      · simp only [Host.removeTree, if_neg hheld]
        exact .tree hfind hdirectory rfl
    · rw [if_neg hdirectory, hat]
      by_cases hheld : machine.holds path = true
      · simp only [Host.removeFile, if_pos hheld]
        exact .refused _
      · simp only [Host.removeFile, if_neg hheld, Machine.change]
        split
        · next tree hremoved => exact .file hfind (by simpa using hdirectory) hremoved
        · exact .refused _

/-- What a removal takes away that does not fail, for good. -/
structure Taken (path : Path) (turn after : Machine) : Prop where
  /-- The path leads nowhere. -/
  lacks : after.Lacks path
  /-- Neither does any path below it. -/
  below : ∀ inner : Path, path.text ≠ "" → inner.text ≠ "" → inner.isAbsolute = false →
    after.Lacks (path.join inner)
  /-- Nothing stands below the place to which the path led, and nothing but a directory there. -/
  swept : ∀ place sub, turn.find .entry path = .ok (place, sub) → Swept after.tree place
  /-- A file or a link that was there is gone. -/
  leaf : ∀ place sub, turn.find .entry path = .ok (place, sub) → sub.isDirectory = false →
    after.tree.get? place = none
  /-- So is a directory, if its path does not depend on what was below it. -/
  root : ∀ place sub, turn.find .entry path = .ok (place, sub) →
    (∃ found, (turn.tree.alter place (Option.map FileTree.shallow)).find turn.directory .entry path =
      .ok found) → after.tree.get? place = none

section Removal

variable {machine between after : Machine} {path : Path} {result : Except Failure Unit}
  (hmachine : machine.WellFormed)
include hmachine

/-- A removal changes nothing, or it cuts something out where the path leads. -/
theorem Removal.cut (h : Removal machine path result between) : between = machine ∨
    ∃ place sub tree, machine.find .entry path = .ok (place, sub) ∧
      Cut machine.tree place tree ∧ between = machine.withTree tree := by
  have hlisted := hmachine.listed
  have hground := hmachine.grounded
  cases h with
  | absent => exact .inl rfl
  | refused => exact .inl rfl
  | file found leaf removed =>
    exact .inr ⟨_, _, _, found, (removeFile_cut hlisted hground found removed).1, rfl⟩
  | tree found directory removed =>
    exact .inr ⟨_, _, _, found, (removeTree_cut hlisted hground found removed).1, rfl⟩

theorem Removal.dwindled (h : Removal machine path result between) : Dwindled machine between := by
  rcases h.cut hmachine with rfl | ⟨place, sub, tree, -, hcut, rfl⟩
  · exact .refl hmachine
  · exact .withTree hmachine hcut

/-- Only what stands at the place to which a path leads, or below it, is taken away. -/
theorem Removal.frame (h : Removal machine path result between) (place : Place) :
    between.tree.node? place = machine.tree.node? place ∨
      ∃ above sub, above <+: place ∧ machine.find .entry path = .ok (above, sub) := by
  rcases h.cut hmachine with rfl | ⟨above, sub, tree, hfind, hcut, rfl⟩
  · exact .inl rfl
  · by_cases habove : above <+: place
    · exact .inr ⟨above, sub, habove, hfind⟩
    · exact .inl (hcut.beside place habove)

theorem lacks_of_not_leads (h : FileTree.refusal? path = none →
      ∀ found sub, ¬ FileTree.Leads machine.tree machine.directory path found sub) :
    machine.Lacks path := by
  cases hfind : machine.find .entry path with
  | error cause => exact ⟨cause, hfind⟩
  | ok found =>
    obtain ⟨hrefusal, hleads⟩ :=
      (find_eq_ok_iff hmachine.grounded.isDirectory).mp hfind
    exact absurd hleads (h hrefusal _ _)

/-- A removal that does not fail has found nothing, or nothing is left of what it has found, but for
a directory through which the way to it may lead. -/
theorem Removal.done (h : Removal machine path (.ok ()) between) :
    machine.find .entry path = .error .noEntry ∧ between = machine ∨
    ∃ place sub, machine.find .entry path = .ok (place, sub) ∧ Swept between.tree place ∧
      LeadsNowhere between.tree machine.directory path ∧
      (between.tree.get? place = none ∨ sub.isDirectory = true ∧
        between.tree = machine.tree.alter place (Option.map FileTree.shallow)) := by
  generalize hok : (.ok () : Except Failure Unit) = result at h
  cases h with
  | absent missing => exact .inl ⟨missing, rfl⟩
  | refused => cases hok
  | file found leaf removed =>
    obtain ⟨-, hnone, hnowhere⟩ := removeFile_cut hmachine.listed hmachine.grounded found removed
    exact .inr ⟨_, _, found, FileTree.swept_of_get?_eq_none hnone, hnowhere, .inl hnone⟩
  | @tree place sub tree outcome found directory removed =>
    cases outcome with
    | error cause => cases hok
    | ok =>
      obtain ⟨hswept, hnowhere, hroot⟩ :=
        (removeTree_cut hmachine.listed hmachine.grounded found removed).2 rfl
      exact .inr ⟨_, _, found, hswept, hnowhere, hroot.imp_right fun hleft => ⟨directory, hleft⟩⟩

/-- After a removal that does not fail its path leads nowhere, whatever else is removed. -/
theorem Removal.leadsNowhere (h : Removal machine path (.ok ()) between)
    (hrefusal : FileTree.refusal? path = none) :
    LeadsNowhere between.tree machine.directory path := by
  rcases h.done hmachine with ⟨hmissing, rfl⟩ | ⟨place, sub, -, -, hnowhere, -⟩
  · have htext : path.text ≠ "" := FileTree.text_ne_empty_of_refusal? hrefusal
    exact FileTree.leadsNowhere_of_follow hmachine.grounded.isDirectory
      (FileTree.endsNowhere_of_find htext hmissing).2
  · exact hnowhere

theorem Removal.swept (h : Removal machine path (.ok ()) between) {place : Place} {sub : FileTree}
    (hfind : machine.find .entry path = .ok (place, sub)) : Swept between.tree place ∧
      (between.tree.get? place = none ∨ sub.isDirectory = true ∧
        between.tree = machine.tree.alter place (Option.map FileTree.shallow)) := by
  rcases h.done hmachine with ⟨hmissing, -⟩ | ⟨_, _, hfound, hswept, -, hroot⟩
  · rw [hmissing] at hfind
    cases hfind
  · rw [hfound] at hfind
    cases hfind
    exact ⟨hswept, hroot⟩

/-- What a removal takes away that does not fail stays away. -/
theorem Removal.taken (h : Removal machine path (.ok ()) between)
    (hafter : Dwindled between after) : Taken path machine after := by
  have hstays := ((h.dwindled hmachine).trans hafter).stays
  have hnowhere : FileTree.refusal? path = none →
      ∀ found sub, ¬ FileTree.Leads after.tree after.directory path found sub := fun hrefusal =>
    h.leadsNowhere hmachine hrefusal _ _ hafter.remains hafter.wellFormed.listed hstays
  constructor
  case lacks => exact lacks_of_not_leads hafter.wellFormed hnowhere
  case below =>
    intro inner htext hinner hrelative
    refine lacks_of_not_leads hafter.wellFormed fun hrefusal found sub hleads => ?_
    obtain ⟨other, last, hlast⟩ := hleads.of_join hinner hrelative
    have hjoin := congrArg Path.text (Path.join_of_ne_empty hrelative htext)
    exact hnowhere (FileTree.refusal?_of_append htext hjoin hrefusal) other last hlast
  case swept =>
    exact fun place sub hfind => (h.swept hmachine hfind).1.of_remains hafter.remains
  case leaf =>
    intro place sub hfind hleaf
    refine hafter.remains.get?_eq_none ((h.swept hmachine hfind).2.resolve_right ?_)
    rintro ⟨hdirectory, -⟩
    rw [hleaf] at hdirectory
    cases hdirectory
  case root =>
    rintro place sub hfind ⟨⟨found, last⟩, hleft⟩
    refine hafter.remains.get?_eq_none ((h.swept hmachine hfind).2.resolve_right ?_)
    rintro ⟨-, htree⟩
    rw [← htree] at hleft
    have hbetween := h.dwindled hmachine
    obtain ⟨hrefusal, hleads⟩ := (find_eq_ok_iff
      (hbetween.remains.isDirectory.trans hmachine.grounded.isDirectory)).mp hleft
    exact h.leadsNowhere hmachine hrefusal _ _ (.refl _) hbetween.wellFormed.listed (.inl rfl) _ _
      hleads

end Removal

/-! ### Cleaning up -/

/-- What is left when everything at some paths has been removed, the last one first. -/
def removeAll (paths : List Path) (machine : Machine) : Machine :=
  paths.foldr (fun path turn => (removal path turn).2) machine

theorem removeAll_append (earlier later : List Path) (machine : Machine) :
    removeAll (earlier ++ later) machine = removeAll earlier (removeAll later machine) :=
  List.foldr_append

theorem forM_removeQuietly (paths : List Path) (machine : Machine) :
    (paths.forM removeQuietly : Simulation PUnit) machine =
      ((), paths.foldl (fun turn path => (removal path turn).2) machine) := by
  induction paths generalizing machine with
  | nil => rfl
  | cons path rest ih =>
    rw [List.forM, List.foldl_cons, ← ih]
    rfl

theorem cleanUp_eq (t : Temporaries) (machine : Machine) :
    (t.cleanUp : Simulation _) machine = ({}, removeAll t.paths machine) := by
  have hrun : (t.cleanUp : Simulation _) machine =
      ({}, ((t.paths.reverse.forM removeQuietly : Simulation PUnit) machine).2) := rfl
  rw [hrun, forM_removeQuietly, List.foldl_reverse, removeAll]

/-- However the removals end, the machine only dwindles. -/
theorem dwindled_removeAll {machine : Machine} (h : machine.WellFormed) (paths : List Path) :
    Dwindled machine (removeAll paths machine) := by
  induction paths with
  | nil => exact .refl h
  | cons path rest ih =>
    exact ih.trans ((removal_spec path (removeAll rest machine)).dwindled ih.wellFormed)

/-- A path leads to a place when it is to be removed, and did so in the beginning, unless it was
refused then. -/
structure LedTo (path : Path) (machine turn : Machine) (place : Place) : Prop where
  now : ∃ sub, turn.find .entry path = .ok (place, sub)
  before : (∃ sub, machine.find .entry path = .ok (place, sub)) ∨
    machine.find .entry path = .error .permissionDenied

/-- Where something has changed, there a tracked path has led, or to above it. -/
theorem exists_ledTo_of_node?_ne {machine : Machine} (h : machine.WellFormed) {paths : List Path}
    {place : Place}
    (hchanged : (removeAll paths machine).tree.node? place ≠ machine.tree.node? place) :
    ∃ earlier path later above, paths = earlier ++ path :: later ∧ above <+: place ∧
      LedTo path machine (removeAll later machine) above := by
  induction paths with
  | nil => exact absurd rfl hchanged
  | cons path rest ih =>
    have hturn := dwindled_removeAll h rest
    have hspec := removal_spec path (removeAll rest machine)
    by_cases hsame : (removeAll rest machine).tree.node? place = machine.tree.node? place
    · rcases hspec.frame hturn.wellFormed place with hkept | ⟨above, sub, habove, hfind⟩
      · exact absurd (hkept.trans hsame) hchanged
      · refine ⟨[], path, rest, above, rfl, habove, ⟨sub, hfind⟩, ?_⟩
        rcases hturn.find_cases h hfind with hdenied | hled | hmissing
        · exact .inr hdenied
        · exact .inl hled
        · -- Nothing stands below where nothing stands, so that nothing was there to be changed.
          obtain ⟨below, rfl⟩ := habove
          have hnone : (removeAll rest machine).tree.get? (above ++ below) = none := by
            rw [FileTree.get?_append, hmissing, Option.bind_none]
          have hleft := (hspec.dwindled hturn.wellFormed).remains.get?_eq_none hnone
          rw [← FileTree.node?_eq_none_iff] at hnone hleft
          exact absurd (hleft.trans (hnone.symm.trans hsame)) hchanged
    · obtain ⟨earlier, other, later, above, rfl, habove, hled⟩ := ih hsame
      exact ⟨path :: earlier, other, later, above, rfl, habove, hled⟩

/-- The machine after tracked paths have been cleaned up. -/
structure CleanedUp (t : Temporaries) (machine after : Machine) : Prop where
  /-- What a tracked path leads to is taken away at its turn, when those behind it have had theirs,
  or its own removal has failed. -/
  taken : ∀ earlier path later, t.paths = earlier ++ path :: later →
    (∃ failure, (removal path (removeAll later machine)).1 = .error failure) ∨
      Taken path (removeAll later machine) after
  /-- Nothing has appeared. -/
  remains : Remains machine.tree after.tree
  /-- Something has changed only where a tracked path has led, or below. -/
  frame : ∀ place, after.tree.node? place ≠ machine.tree.node? place →
    ∃ earlier path later above, t.paths = earlier ++ path :: later ∧ above <+: place ∧
      LedTo path machine (removeAll later machine) above
  /-- The working directory is where it was, unless it is gone. -/
  stays : Stays after.tree machine.directory after.directory
  /-- Everything else is as it was. -/
  others : after = { machine with tree := after.tree, directory := after.directory }

theorem cleanedUp_removeAll (t : Temporaries) {machine : Machine} (h : machine.WellFormed) :
    CleanedUp t machine (removeAll t.paths machine) := by
  have hdwindled := dwindled_removeAll h t.paths
  constructor
  case taken =>
    intro earlier path later hpaths
    obtain ⟨turn, hturn⟩ : ∃ turn, removeAll later machine = turn := ⟨_, rfl⟩
    have hwellFormed : turn.WellFormed := hturn ▸ (dwindled_removeAll h later).wellFormed
    have hafter : removeAll t.paths machine = removeAll earlier (removal path turn).2 := by
      rw [hpaths, removeAll_append, ← hturn]
      rfl
    have hspec := removal_spec path turn
    have hlater := dwindled_removeAll (hspec.dwindled hwellFormed).wellFormed earlier
    rw [hturn, hafter]
    cases hresult : (removal path turn).1 with
    | error failure => exact .inl ⟨failure, rfl⟩
    | ok =>
      rw [hresult] at hspec
      exact .inr (hspec.taken hwellFormed hlater)
  case remains => exact hdwindled.remains
  case frame => exact fun place => exists_ledTo_of_node?_ne h
  case stays => exact hdwindled.stays
  case others => exact hdwindled.others

/-- What drops the paths that some work has tracked cleans them up. -/
structure Dropped (t : Temporaries) (machine after : Machine) : Prop where
  /-- They are cleaned up in the end. -/
  always : ∀ (α : Type) (work : Tracking Simulation α) start result,
    Tracking.endOf work {} start = ((result, t), machine) →
      (cleaningUp work).run start = (result, after)
  /-- Where they are kept on success, they are cleaned up after a failure. -/
  onFailure : ∀ (α : Type) (work : Tracking Simulation α) start report,
    Tracking.endOf work {} start = ((.error report, t), machine) →
      (cleaningUpOnFailure work).run start = (.error report, after)

/-- The paths are given up only once. -/
structure Released (t : Temporaries) (machine : Machine) : Prop where
  /-- Cleaning up what is left to be cleaned up changes nothing. -/
  cleaned : (t.cleanUp >>= cleanUp : Simulation Temporaries) machine =
    (t.cleanUp : Simulation Temporaries) machine
  /-- Keeping gives up all paths. -/
  kept : t.keep.1 = t.paths
  /-- Cleaning up what is left after keeping changes nothing. -/
  keptCleaned : (t.keep.2.cleanUp : Simulation Temporaries) machine = ({}, machine)
  /-- Neither does work that succeeds and keeps the paths on success. -/
  onSuccess : ∀ (α : Type) (work : Tracking Simulation α) start value,
    Tracking.endOf work {} start = ((.ok value, t), machine) →
      (cleaningUpOnFailure work).run start = (.ok value, machine)

/-- Cleaning up takes away what every tracked path leads to whose own removal does not fail, and
nothing that is not at or below a tracked path. Dropping the paths does the same, and after cleaning
up or keeping there is nothing more to do. -/
theorem cleanUp_complete (t : Temporaries) {machine : Machine} (h : machine.WellFormed) :
    CleanedUp t machine ((t.cleanUp : Simulation Temporaries) machine).2 ∧
    Dropped t machine ((t.cleanUp : Simulation Temporaries) machine).2 ∧
    Released t machine := by
  refine ⟨?_, ?_, ?_⟩
  · rw [cleanUp_eq]
    exact cleanedUp_removeAll t h
  · constructor
    case always => exact fun α work start result hend => run_cleaningUp hend
    case onFailure => exact fun α work start report hend => run_cleaningUpOnFailure hend
  · constructor
    case cleaned =>
      change (((t.cleanUp : Simulation Temporaries) machine).1.cleanUp : Simulation Temporaries)
        ((t.cleanUp : Simulation Temporaries) machine).2 = _
      rw [cleanUp_eq, cleanUp_eq]
      rfl
    case kept => rfl
    case keptCleaned => rfl
    case onSuccess => exact fun α work start value hend => run_cleaningUpOnFailure hend

/-- A machine with a directory that is held, a file further down in it and one beside it. -/
def heldDirectory : Machine where
  tree := .directory {} [
    ("d", .directory {} [("inner", .directory {} [("y", .file {} .empty)])]),
    ("e", .file {} .empty)]
  held place := place = ["d"]

/-- Paths at, in and beside that directory, one of them twice and one that leads nowhere. -/
def overlapping : Temporaries := ⟨["/d", "/d/inner", "/gone", "/d/inner/y", "/d"].map Path.mk⟩

theorem cleanUp_complete_of_heldDirectory :
    heldDirectory.WellFormed ∧
    CleanedUp overlapping heldDirectory
      ((overlapping.cleanUp : Simulation Temporaries) heldDirectory).2 ∧
    ((overlapping.cleanUp : Simulation Temporaries) heldDirectory).2.tree.isDirectoryAt
      ["d"] = true ∧
    ((overlapping.cleanUp : Simulation Temporaries) heldDirectory).2.tree.isDirectoryAt
      ["d", "inner"] = false := by
  have hleaf : Listed (.file {} .empty) := .intro trivial nofun
  have hinner : Listed (.directory {} [("y", .file {} .empty)]) :=
    .intro ⟨by decide, by decide⟩ (List.forall_mem_singleton.mpr hleaf)
  have hdirectory : Listed (.directory {} [("inner", .directory {} [("y", .file {} .empty)])]) :=
    .intro ⟨by decide, by decide⟩ (List.forall_mem_singleton.mpr hinner)
  have hwellFormed : heldDirectory.WellFormed :=
    ⟨.intro ⟨by decide, by decide⟩ (List.forall_mem_cons.mpr
      ⟨hdirectory, List.forall_mem_singleton.mpr hleaf⟩), FileTree.grounded_nil rfl⟩
  exact ⟨hwellFormed, (cleanUp_complete overlapping hwellFormed).1, by decide +kernel,
    by decide +kernel⟩

end Temporaries

end BridgingHeader
