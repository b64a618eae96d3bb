import BridgingHeader.Proofs.FileTree.Clearing

/-!
# Putting entries in place

A file that is written, and a directory that is made, change a tree at one place and nowhere else,
since nothing stands below that place. A file that was written is found there by the path that it
was written to, because the directories on the way are the same as before.
-/

namespace BridgingHeader.FileTree

variable {t t' sub : FileTree} {place : Place}

/-- What stands at a place, if anything does, holds nothing. -/
def IsLeaf (t : FileTree) (place : Place) : Prop :=
  ∀ sub, t.get? place = some sub → sub.children = []

theorem IsLeaf.get?_below (h : t.IsLeaf place) (name : String) (rest : Place) :
    t.get? (place ++ name :: rest) = none := by
  rw [get?_append]
  cases hget : t.get? place with
  | none => rfl
  | some sub =>
    rw [Option.bind_some, get?, h sub hget]
    rfl

theorem Settable.isDirectoryAt_dropLast (h : t.Settable place) (hplace : place ≠ []) :
    t.isDirectoryAt place.dropLast = true := by
  rcases h with ⟨old, hold⟩ | ⟨⟨-, -, parent, name, permissions, items, rfl, -, -, hparent⟩, -⟩
  · obtain ⟨parent, name, rfl⟩ := (List.eq_nil_or_concat' place).resolve_left hplace
    obtain ⟨permissions, items, -, hparent, -⟩ := exists_directory_of_get? hold
    rw [List.dropLast_concat, isDirectoryAt, hparent]
    rfl
  · rw [List.dropLast_concat, isDirectoryAt, hparent]
    rfl

section Leaf

variable (hset : t.Settable place) (hplace : place ≠ [])
include hset hplace

theorem get?_set_self (sub : FileTree) : (t.set place sub).get? place = some sub :=
  get?_alter_self (hset.isDirectoryAt_dropLast hplace) hplace _

/-- A leaf that is put where one stood before changes no other entry. -/
theorem node?_set_of_ne (hleaf : t.IsLeaf place) (hsub : sub.children = []) {other : Place}
    (hother : other ≠ place) : (t.set place sub).node? other = t.node? other := by
  by_cases hprefix : place <+: other
  · obtain ⟨rest, rfl⟩ := hprefix
    cases rest with
    | nil => exact absurd (List.append_nil place) hother
    | cons name rest =>
      have hnew : (t.set place sub).IsLeaf place := by
        intro found hfound
        rw [get?_set_self hset hplace, Option.some.injEq] at hfound
        exact hfound ▸ hsub
      rw [node?, node?, hnew.get?_below, hleaf.get?_below]
  · exact node?_alter hprefix t _

end Leaf

/-! ### Directories that stay -/

/-- Two trees have the same directories, apart from what these hold. -/
def SameDirectories (t t' : FileTree) : Prop := ∀ place, t'.directory? place = t.directory? place

theorem kind_eq_directory_iff (t : FileTree) (place : Place) :
    (t.node? place).map kind = some .directory ↔ t.directory? place ≠ none := by
  rw [directory?]
  cases t.node? place with
  | none => simp
  | some node => cases node <;> simp [Option.filter, isDirectory, kind]

theorem SameDirectories.isDirectoryAt (h : SameDirectories t t')
    (hdirectory : t.isDirectoryAt place = true) : t'.isDirectoryAt place = true := by
  rw [isDirectoryAt_iff] at hdirectory ⊢
  rw [h]
  exact hdirectory

theorem SameDirectories.passStep (h : SameDirectories t t') {next : Place} {segment : String}
    (hstep : t.passStep place segment = .ok next) : t'.passStep place segment = .ok next := by
  rw [FileTree.passStep, isPassableAt] at hstep ⊢
  rw [h place]
  split at hstep
  · next hempty => rwa [if_pos hempty]
  next hempty =>
  rw [if_neg hempty]
  split at hstep
  · cases hstep
  next hpassable =>
  rw [if_neg hpassable]
  split at hstep
  · next hcurrent => rwa [if_pos hcurrent]
  next hcurrent =>
  rw [if_neg hcurrent]
  split at hstep
  · next hup => rwa [if_pos hup]
  next hup =>
  rw [if_neg hup]
  split at hstep
  · cases hstep
  next hdirectory =>
  rw [if_neg hdirectory]
  split at hstep
  · cases hstep
  next hlong =>
  rw [if_neg hlong]
  split at hstep
  · next hkind =>
    have hkind' : (t'.node? (place ++ [segment])).map kind = some .directory := by
      rw [kind_eq_directory_iff, h]
      exact (kind_eq_directory_iff t _).mp hkind
    rw [hkind']
    exact hstep
  · cases hstep
  · cases hstep

/-- A way through directories that stay remains open. -/
theorem SameDirectories.pass (h : SameDirectories t t') {last : Place} {segments : List String}
    (hpass : t.pass place segments = .ok last) : t'.pass place segments = .ok last := by
  induction segments generalizing place with
  | nil => exact hpass
  | cons segment rest ih =>
    obtain ⟨next, hstep, hrest⟩ := bind_eq_ok_iff.mp hpass
    exact bind_eq_ok_iff.mpr ⟨next, h.passStep hstep, ih hrest⟩

variable {directory : Place} {base : Path}

theorem SameDirectories.hasWay (h : SameDirectories t t') (hway : HasWay t directory base) :
    HasWay t' directory base where
  passed := h.pass hway.passed
  isDirectory := by
    rw [h]
    exact hway.isDirectory
  isPassable := by
    rw [isPassableAt, h]
    exact hway.isPassable

/-- An entry that is no directory can take the place of another one. -/
theorem SameDirectories.set (hset : t.Settable place) (hplace : place ≠ [])
    (hleaf : t.IsLeaf place) (hold : t.directory? place = none) (hsub : sub.children = [])
    (hnew : sub.isDirectory = false) : SameDirectories t (t.set place sub) := by
  intro other
  by_cases hother : other = place
  · subst hother
    have hshallow : sub.shallow.isDirectory = false := (isDirectory_shallow sub).trans hnew
    rw [hold, directory?, node?, get?_set_self hset hplace, Option.map_some, Option.filter,
      hshallow]
    rfl
  · rw [directory?, directory?, node?_set_of_ne hset hplace hleaf hsub hother]

/-! ### Written files -/

/-- A file may stand at a place, but nothing else. -/
def HoldsFile (t : FileTree) (place : Place) : Prop :=
  ∀ old, t.get? place = some old → ∃ permissions contents, old = .file permissions contents

theorem HoldsFile.isLeaf (h : t.HoldsFile place) : t.IsLeaf place := by
  intro old hold
  obtain ⟨permissions, contents, rfl⟩ := h old hold
  rfl

theorem HoldsFile.directory?_eq_none (h : t.HoldsFile place) : t.directory? place = none := by
  rw [directory?, node?]
  cases hget : t.get? place with
  | none => rfl
  | some old =>
    obtain ⟨permissions, contents, rfl⟩ := h old hget
    rfl

/-- The permissions that a file written to a place gets: those of the file that is there, or those
of a new one. -/
def permissionsFor (t : FileTree) (place : Place) : Permissions :=
  ((t.get? place).map permissions).getD .plain

/-- The permissions of a file are part of its entry. -/
theorem permissionsFor_congr (h : t'.node? place = t.node? place) :
    t'.permissionsFor place = t.permissionsFor place := by
  have hnode : ∀ t : FileTree, (t.get? place).map permissions = (t.node? place).map permissions := by
    intro t
    rw [node?, Option.map_map]
    exact congrArg (fun f => Option.map f _) (funext fun sub => by cases sub <;> rfl)
  rw [permissionsFor, permissionsFor, hnode, hnode, h]

/-- A file is put out where it may be set, in place of another file or of nothing. -/
theorem holdsFile_of_openOutput (hplain : Plain t) {path : Path} {found : Option Permissions}
    (h : t.openOutput directory path = .ok (place, found)) :
    place = placeOf directory path ∧ t.Settable place ∧ t.HoldsFile place := by
  obtain ⟨rfl, hsettable, hfound⟩ := settable_of_openOutput hplain h
  refine ⟨rfl, hsettable, fun old hold => ?_⟩
  rcases hfound with ⟨hnone, -⟩ | ⟨permissions, contents, hfile, -⟩
  · rw [hnone] at hold
    cases hold
  · rw [hfile, Option.some.injEq] at hold
    exact ⟨permissions, contents, hold.symm⟩

/-- Writing a file puts it where the path leads, in place of another file or of nothing. -/
theorem set_of_write (hplain : Plain t) {path : Path} {contents : ByteArray}
    (h : t.write directory path contents = .ok t') :
    t.Settable (placeOf directory path) ∧ t.HoldsFile (placeOf directory path) ∧
      t' = t.set (placeOf directory path)
        (.file (t.permissionsFor (placeOf directory path)) contents) := by
  obtain ⟨⟨place, found⟩, houtput, h⟩ := bind_eq_ok_iff.mp h
  obtain ⟨rfl, hsettable, hfile⟩ := holdsFile_of_openOutput hplain houtput
  obtain ⟨-, -, hfound⟩ := settable_of_openOutput hplain houtput
  cases h
  refine ⟨hsettable, hfile, ?_⟩
  rw [permissionsFor]
  rcases hfound with ⟨hnone, rfl⟩ | ⟨permissions, old, hget, rfl⟩
  · rw [hnone]
    rfl
  · rw [hget]
    rfl

/-- Copying a file puts it where the path of the target leads, in place of another file or of
nothing. A file that is copied onto itself is emptied. -/
theorem set_of_copyFile (hplain : Plain t) {source target : Path}
    (h : t.copyFile directory source target = .ok t') : ∃ found permissions contents,
      t.find directory .target source = .ok (found, .file permissions contents) ∧
      t.Settable (placeOf directory target) ∧ t.HoldsFile (placeOf directory target) ∧
      t' = t.set (placeOf directory target)
        (.file permissions (if placeOf directory target = found then .empty else contents)) := by
  obtain ⟨⟨found, permissions, contents⟩, hopen, h⟩ := bind_eq_ok_iff.mp h
  obtain ⟨⟨place, old⟩, houtput, h⟩ := bind_eq_ok_iff.mp h
  obtain ⟨rfl, hsettable, hfile⟩ := holdsFile_of_openOutput hplain houtput
  obtain ⟨⟨there, sub⟩, hfind, hopen⟩ := bind_eq_ok_iff.mp hopen
  obtain ⟨-, hopen⟩ := of_guard_eq_ok hopen
  cases sub with
  | directory permissions items => cases hopen
  | link target => cases hopen
  | file permissions contents =>
    cases hopen
    cases h
    exact ⟨found, permissions, contents, hfind, hsettable, hfile, rfl⟩

variable {name : String} {contents : ByteArray}

/-- A path that ends in a name and is followed to its end is not refused and has a way. -/
theorem HasWay.of_resolve (hplain : Plain t) (hname : IsName name) {aim : Aim} {spot : Spot}
    (h : t.resolve directory aim (base.join ⟨name⟩) = .ok spot) : HasWay t directory base ∧
      refusal? (base.join ⟨name⟩) = none ∧ name.utf8ByteSize ≤ nameLimit := by
  have hway : HasWay t directory base := by
    rcases hasWay_or_error hplain directory base with hway | ⟨cause, herror, -⟩
    · exact hway
    · rw [resolve] at h
      split at h
      · cases h
      · rw [herror aim name hname] at h
        cases h
  refine ⟨hway, ?_⟩
  rcases hway.resolve_cases hplain hname with ⟨cause, -, hresolve, -⟩ | ⟨hrefusal, hresolve, -⟩
  · rw [hresolve] at h
    cases h
  refine ⟨hrefusal, ?_⟩
  rcases hway.endAt_cases name with ⟨-, hend⟩ | ⟨hshort, -⟩
  · rw [hresolve, hend] at h
    cases h
  · exact hshort

/-- A tree after a file was written to a path that ends in a name. -/
structure Wrote (t : FileTree) (directory : Place) (base : Path) (name : String)
    (contents : ByteArray) (t' : FileTree) : Prop where
  plain : Plain t'
  way : HasWay t' directory base
  accepted : refusal? (base.join ⟨name⟩) = none
  short : name.utf8ByteSize ≤ nameLimit
  replaced : t.HoldsFile (placeOf directory base ++ [name])
  written : t'.get? (placeOf directory base ++ [name]) =
    some (.file (t.permissionsFor (placeOf directory base ++ [name])) contents)
  entries : ∀ place ≠ placeOf directory base ++ [name], t'.node? place = t.node? place
  directories : SameDirectories t t'

theorem wrote_of_write (hplain : Plain t) (hname : IsName name)
    (h : t.write directory (base.join ⟨name⟩) contents = .ok t') :
    Wrote t directory base name contents t' := by
  have hchanged := write_changed hplain h
  obtain ⟨_, houtput, -⟩ := bind_eq_ok_iff.mp h
  obtain ⟨_, hspot, -⟩ := bind_eq_ok_iff.mp houtput
  obtain ⟨hway, haccepted, hshort⟩ := HasWay.of_resolve hplain hname hspot
  obtain ⟨hsettable, hfile, rfl⟩ := set_of_write hplain h
  rw [placeOf_join_name directory base hname] at hsettable hfile hchanged ⊢
  have hne : placeOf directory base ++ [name] ≠ [] := by simp
  have hsame := SameDirectories.set hsettable hne hfile.isLeaf hfile.directory?_eq_none
    (rfl : children (.file (t.permissionsFor (placeOf directory base ++ [name])) contents) = []) rfl
  constructor
  case plain => exact hchanged.plain
  case way => exact hsame.hasWay hway
  case accepted => exact haccepted
  case short => exact hshort
  case replaced => exact hfile
  case written => exact get?_set_self hsettable hne _
  case entries =>
    intro other hother
    exact node?_set_of_ne hsettable hne hfile.isLeaf rfl hother
  case directories => exact hsame

/-- What was written is read back, unless the file that was there before may not be read. -/
theorem Wrote.read (h : Wrote t directory base name contents t') (hname : IsName name)
    (hreadable : (t.permissionsFor (placeOf directory base ++ [name])).readable = true) :
    t'.read directory (base.join ⟨name⟩) = .ok contents := by
  have hfind := h.way.find_of_get? h.plain hname h.written h.accepted h.short .target
  rw [FileTree.read, openFile, hfind]
  simp only [bind, Except.bind, FileTree.permissions, hreadable]
  rfl

/-- What is read stands in a file where the path leads. -/
theorem exists_file_of_read (hplain : Plain t) {path : Path}
    (h : t.read directory path = .ok contents) :
    ∃ permissions, t.get? (placeOf directory path) = some (.file permissions contents) := by
  obtain ⟨⟨place, permissions, found⟩, hopen, h⟩ := bind_eq_ok_iff.mp h
  cases h
  obtain ⟨⟨place', sub⟩, hfind, hopen⟩ := bind_eq_ok_iff.mp hopen
  obtain ⟨-, hopen⟩ := of_guard_eq_ok hopen
  obtain ⟨rfl, hget⟩ := fits_of_find hplain hfind
  cases sub with
  | directory permissions items => cases hopen
  | link target => cases hopen
  | file permissions contents =>
    cases hopen
    rcases hget with hget | ⟨hempty, -⟩
    · exact ⟨permissions, hget⟩
    · cases hempty

/-! ### New directories -/

/-- A tree in which empty directories stand at some places where nothing stood before. -/
structure Furnished (way : Place → Prop) (t t' : FileTree) : Prop where
  plain : Plain t'
  entries : ∀ place, t'.node? place = t.node? place ∨
    way place ∧ t.node? place = none ∧ t'.node? place = some empty

namespace Furnished

variable {way : Place → Prop}

theorem refl (hplain : Plain t) : Furnished way t t := ⟨hplain, fun _ => .inl rfl⟩

theorem trans {t'' : FileTree} (h : Furnished way t t') (h' : Furnished way t' t'') :
    Furnished way t t'' where
  plain := h'.plain
  entries place := by
    rcases h.entries place with hsame | ⟨hway, hnone, hnew⟩
    · rw [← hsame]
      exact h'.entries place
    · rcases h'.entries place with hsame' | ⟨-, hnone', -⟩
      · exact .inr ⟨hway, hnone, hsame'.trans hnew⟩
      · rw [hnew] at hnone'
        cases hnone'

theorem makeDirectory {path : Path} (hplain : Plain t) (hway : way (placeOf directory path))
    (h : t.makeDirectory directory path = .ok t') : Furnished way t t' := by
  have hchanged := makeDirectory_changed hplain h
  obtain ⟨hvacant, hchangeable, rfl⟩ := set_of_makeDirectory hplain h
  have hsettable : t.Settable (placeOf directory path) := .inr ⟨hvacant, hchangeable⟩
  obtain ⟨-, hnone, parent, name, _, _, hplace, -⟩ := hvacant
  have hne : placeOf directory path ≠ [] := by simp [hplace]
  have hleaf : t.IsLeaf (placeOf directory path) := by
    intro sub hsub
    rw [hnone] at hsub
    cases hsub
  refine ⟨hchanged.1.plain, fun other => ?_⟩
  by_cases hother : other = placeOf directory path
  · subst hother
    refine .inr ⟨hway, ?_, ?_⟩
    · rw [node?, hnone]
      rfl
    · rw [node?, get?_set_self hsettable hne]
      rfl
  · exact .inl (node?_set_of_ne hsettable hne hleaf rfl hother)

/-- Directories stay where they are. -/
theorem isDirectoryAt (h : Furnished way t t') (hdirectory : t.isDirectoryAt place = true) :
    t'.isDirectoryAt place = true := by
  rw [isDirectoryAt_eq] at hdirectory ⊢
  rcases h.entries place with hsame | ⟨-, hnone, -⟩
  · rw [hsame]
    exact hdirectory
  · rw [hnone] at hdirectory
    cases hdirectory

end Furnished

end BridgingHeader.FileTree
