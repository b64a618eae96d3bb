import BridgingHeader.Proofs.FileTree.Ways

/-!
# What operations change

Without links every operation on a tree changes it only at the place that the text of its path
tells, and below. It brings in no links, and what could be cleared can still be cleared.
-/

namespace BridgingHeader.FileTree

/-- A tree without links after a change at a place. -/
structure Changed (t : FileTree) (place : Place) (t' : FileTree) : Prop where
  entries : ∀ other, ¬ place <+: other → t'.node? other = t.node? other
  plain : Plain t'
  clearable : Clearable t → Clearable t'

namespace Changed

variable {t t' t'' : FileTree} {place : Place}

theorem refl (hplain : Plain t) : Changed t place t := ⟨fun _ _ => rfl, hplain, id⟩

theorem trans (h : Changed t place t') (h' : Changed t' place t'') : Changed t place t'' :=
  ⟨fun other ho => (h'.entries other ho).trans (h.entries other ho), h'.plain,
    fun hc => h'.clearable (h.clearable hc)⟩

theorem alter (hplain : Plain t) {change : Option FileTree → Option FileTree}
    (hname : change (t.get? place) ≠ none → ∀ name ∈ place.getLast?, IsName name)
    (hparent : ∀ parent name permissions, place = parent ++ [name] →
      t.get? parent = some (.directory permissions []) →
      change none = none ∨ permissions.writable = true ∧ permissions.executable = true)
    (hnew : ∀ new, change (t.get? place) = some new → Plain new ∧ (Clearable t → Clearable new)) :
    Changed t place (t.alter place change) := by
  rcases List.eq_nil_or_concat' place with rfl | ⟨parent, name, rfl⟩
  · -- At the root the change gives the whole tree.
    refine ⟨fun other ho => absurd List.nil_prefix ho, ?_, ?_⟩
    · rw [FileTree.alter]
      cases hchange : change (some t) with
      | none => exact hplain
      | some new => exact (hnew new hchange).1
    · intro hclear
      rw [FileTree.alter]
      cases hchange : change (some t) with
      | none => exact hclear
      | some new => exact (hnew new hchange).2 hclear
  · refine ⟨fun other ho => node?_alter ho t change, ?_, fun hclear => ?_⟩
    · exact Plain.alter hplain (fun h => hname h name (by simp)) fun new h => (hnew new h).1
    · exact Clearable.alter hclear (fun permissions h => hparent parent name permissions rfl h)
        fun new h => (hnew new h).2 hclear

theorem remove (hplain : Plain t) : Changed t place (t.remove place) :=
  alter hplain (fun h => absurd rfl h) (fun _ _ _ _ _ => .inl rfl) nofun

end Changed

/-- A subtree may be put at a place where something is already, and at one whose directory may be
changed. -/
def Settable (t : FileTree) (place : Place) : Prop :=
  (∃ old, t.get? place = some old) ∨
    Spot.Fits t place (.vacant place) ∧ t.isChangeable place = true

theorem Changed.set {t sub : FileTree} {place : Place} (hplain : Plain t) (h : t.Settable place)
    (hsub : Plain sub) (hclear : Clearable sub) : Changed t place (t.set place sub) := by
  refine .alter hplain (fun _ name hname => ?_) (fun parent name permissions hplace hget => ?_)
    fun new hnew => ?_
  · rcases h with ⟨old, hold⟩ | ⟨⟨-, -, parent, last, _, _, rfl, hlast, -⟩, -⟩
    · exact hplain.isName_of_get? hold name (List.mem_of_mem_getLast? hname)
    · rw [List.getLast?_concat, Option.mem_some_iff] at hname
      exact hname ▸ hlast
  · rcases h with ⟨old, hold⟩ |
      ⟨⟨-, -, parent', last, _, _, hplace', -, hexecutable, hparent⟩, hchange⟩
    · -- A directory that holds nothing does not hold the old subtree.
      rw [hplace, get?_concat, hget] at hold
      cases hold
    · obtain ⟨rfl, rfl⟩ : parent' = parent ∧ last = name := by
        simpa using hplace'.symm.trans hplace
      rw [hparent] at hget
      cases hget
      rw [isChangeable, hplace, List.dropLast_concat, hparent] at hchange
      exact .inr ⟨hchange, hexecutable⟩
  · cases hnew
    exact ⟨hsub, fun _ => hclear⟩

/-- What is set at a place has a name. -/
theorem Named.set {sub : FileTree} {place : Place} (hnamed : Named t) (h : t.Settable place)
    (hsub : Named sub) : Named (t.set place sub) := by
  rcases List.eq_nil_or_concat' place with rfl | ⟨parent, name, rfl⟩
  · rw [FileTree.set, FileTree.alter]
    exact hsub
  · refine hnamed.alter_of_names (fun _ _ => Iff.rfl) (fun _ => ?_) fun new hnew => ?_
    · rcases h with ⟨old, hold⟩ | ⟨⟨-, -, parent', last, _, _, hplace, hlast, -⟩, -⟩
      · exact hnamed.isName_of_get? hold name (by simp)
      · obtain ⟨-, rfl⟩ : parent' = parent ∧ last = name := by simpa using hplace.symm
        exact hlast
    · cases hnew
      exact hsub

theorem clearable_file (permissions : Permissions) (contents : ByteArray) :
    Clearable (.file permissions contents) := .leaf trivial rfl

theorem clearable_empty : Clearable empty := .leaf ⟨rfl, .inl rfl⟩ rfl

section Operations

variable {t t' : FileTree} {directory : Place} {path : Path}

/-- A file may be set where the output of a path goes. It gets the permissions of the one that is
there. -/
theorem settable_of_fits {goal place : Place} {found : Option Permissions}
    (hfits : ∀ spot, t.resolve directory .output path = .ok spot → spot.Fits t goal)
    (h : t.openOutput directory path = .ok (place, found)) :
    place = goal ∧ t.Settable place ∧
      (t.get? place = none ∧ found = none ∨ ∃ permissions contents,
        t.get? place = some (.file permissions contents) ∧ found = some permissions) := by
  unfold openOutput at h
  cases hspot : t.resolve directory .output path with
  | error cause =>
    rw [hspot] at h
    cases h
  | ok spot =>
    rw [hspot] at h
    simp only [bind, Except.bind] at h
    have hend := hfits spot hspot
    split at h
    · next there permissions contents =>
      obtain ⟨rfl, hget | ⟨hempty, -⟩⟩ := hend
      · split at h <;> cases h
        exact ⟨rfl, .inl ⟨_, hget⟩, .inr ⟨permissions, contents, hget, rfl⟩⟩
      · cases hempty
    · cases h
    · next there =>
      obtain ⟨rfl, hvacant⟩ := hend
      split at h <;> cases h
      exact ⟨rfl, .inr ⟨⟨rfl, hvacant⟩, ‹_›⟩, .inl ⟨hvacant.1, rfl⟩⟩

theorem settable_of_openOutput (hplain : Plain t) {place : Place} {found : Option Permissions}
    (h : t.openOutput directory path = .ok (place, found)) :
    place = placeOf directory path ∧ t.Settable place ∧
      (t.get? place = none ∧ found = none ∨ ∃ permissions contents,
        t.get? place = some (.file permissions contents) ∧ found = some permissions) :=
  settable_of_fits (fun _ => fits_of_resolve hplain) h

theorem write_changed (hplain : Plain t) {contents : ByteArray}
    (h : t.write directory path contents = .ok t') : Changed t (placeOf directory path) t' := by
  obtain ⟨⟨place, found⟩, houtput, h⟩ := bind_eq_ok_iff.mp h
  obtain ⟨rfl, hsettable, -⟩ := settable_of_openOutput hplain houtput
  cases h
  exact .set hplain hsettable (.file _ _) (clearable_file _ _)

theorem copyFile_changed (hplain : Plain t) {source : Path}
    (h : t.copyFile directory source path = .ok t') : Changed t (placeOf directory path) t' := by
  obtain ⟨⟨sourcePlace, permissions, contents⟩, -, h⟩ := bind_eq_ok_iff.mp h
  obtain ⟨⟨place, found⟩, houtput, h⟩ := bind_eq_ok_iff.mp h
  obtain ⟨rfl, hsettable, -⟩ := settable_of_openOutput hplain houtput
  cases h
  exact .set hplain hsettable (.file _ _) (clearable_file _ _)

/-- A directory is made where nothing stands. -/
theorem exists_set_of_makeDirectory (h : t.makeDirectory directory path = .ok t') :
    ∃ place, t.locate directory path = .ok (.vacant place) ∧
      Spot.Fits t place (.vacant place) ∧ t.isChangeable place = true ∧
      t' = t.set place empty := by
  obtain ⟨spot, hspot, h⟩ := bind_eq_ok_iff.mp h
  obtain ⟨place, hfits⟩ := exists_fits_of_locate hspot
  split at h
  · cases h
  · next there =>
    obtain ⟨rfl, hvacant⟩ := hfits
    split at h <;> cases h
    exact ⟨_, hspot, ⟨rfl, hvacant⟩, ‹_›, rfl⟩

theorem set_of_makeDirectory (hplain : Plain t) (h : t.makeDirectory directory path = .ok t') :
    Spot.Fits t (placeOf directory path) (.vacant (placeOf directory path)) ∧
      t.isChangeable (placeOf directory path) = true ∧
      t' = t.set (placeOf directory path) empty := by
  obtain ⟨place, hlocate, hset⟩ := exists_set_of_makeDirectory h
  obtain rfl : place = placeOf directory path := (fits_of_locate hplain hlocate).1
  exact hset

theorem makeDirectory_changed (hplain : Plain t)
    (h : t.makeDirectory directory path = .ok t') :
    Changed t (placeOf directory path) t' ∧ t.get? (placeOf directory path) = none := by
  obtain ⟨hvacant, hchangeable, rfl⟩ := set_of_makeDirectory hplain h
  exact ⟨.set hplain (.inr ⟨hvacant, hchangeable⟩) Plain.empty clearable_empty, hvacant.2.1⟩

theorem removeFile_changed (hplain : Plain t)
    (h : t.removeFile directory path = .ok t') : Changed t (placeOf directory path) t' := by
  obtain ⟨spot, hspot, h⟩ := bind_eq_ok_iff.mp h
  have hfits := fits_of_locate hplain hspot
  split at h
  · cases h
  · obtain ⟨rfl, -⟩ := hfits
    obtain ⟨-, h⟩ := of_guard_eq_ok h
    obtain ⟨-, h⟩ := of_guard_eq_ok h
    obtain ⟨-, h⟩ := of_guard_eq_ok h
    cases h
    exact .remove hplain
  · cases h

theorem removeDirectory_changed (hplain : Plain t)
    (h : t.removeDirectory directory path = .ok t') : Changed t (placeOf directory path) t' := by
  obtain ⟨spot, hspot, h⟩ := bind_eq_ok_iff.mp h
  have hfits := fits_of_locate hplain hspot
  split at h <;> try cases h
  obtain ⟨rfl, -⟩ := hfits
  obtain ⟨-, h⟩ := of_guard_eq_ok h
  obtain ⟨-, h⟩ := of_guard_eq_ok h
  obtain ⟨-, h⟩ := of_guard_eq_ok h
  cases h
  exact .remove hplain

/-- Something takes the place of what is there. -/
theorem Changed.map {place : Place} {new : FileTree} (hplain : Plain t) (hnew : Plain new)
    (hclear : Clearable t → Clearable new) :
    Changed t place (t.alter place (Option.map fun _ => new)) := by
  refine .alter hplain (fun h name hname => ?_) (fun _ _ _ _ _ => .inl rfl) fun found hfound => ?_
  · obtain ⟨old, hold⟩ := Option.ne_none_iff_exists'.mp (mt Option.map_eq_none_iff.mpr h)
    exact hplain.isName_of_get? hold name (List.mem_of_mem_getLast? hname)
  · obtain ⟨-, -, rfl⟩ := Option.map_eq_some_iff.mp hfound
    exact ⟨hnew, hclear⟩

theorem Changed.emptied {place : Place} {found : FileTree} (hplain : Plain t)
    (hget : t.get? place = some found) :
    Changed t place (t.alter place (Option.map fun _ => (FileTree.emptied found).1)) :=
  .map hplain (Plain.emptied (hplain.get? hget)) fun hclear =>
    Clearable.emptied_clearable (hclear.get? hget)

theorem removeTree_changed (hplain : Plain t) :
    Changed t (placeOf directory path) (t.removeTree directory path).1 := by
  unfold removeTree
  split
  · exact .refl hplain
  next place found hfind =>
  split
  · exact .refl hplain
  obtain ⟨rfl, hget⟩ := fits_of_find hplain hfind
  have hcleared : Changed t (placeOf directory path)
      (t.alter (placeOf directory path) (Option.map fun _ => (emptied found).1)) := by
    rcases hget with hget | ⟨rfl, -⟩
    · exact .emptied hplain hget
    · exact .map hplain Plain.empty fun _ => clearable_empty
  dsimp only
  split
  · exact hcleared
  · split
    · next removed hremoved =>
      exact hcleared.trans (removeDirectory_changed hcleared.plain hremoved)
    · exact hcleared
    · exact hcleared

/-- What a directory holds has names. -/
theorem isName_of_list (hnamed : Named t) {items : List (String × NodeKind)}
    (h : t.list directory path = .ok items) : ∀ item ∈ items, IsName item.1 := by
  obtain ⟨⟨place, found⟩, hfind, h⟩ := bind_eq_ok_iff.mp h
  obtain ⟨-, h⟩ := of_guard_eq_ok h
  obtain ⟨-, h⟩ := of_guard_eq_ok h
  cases h
  intro item hitem
  obtain ⟨child, hchild, rfl⟩ := List.mem_map.mp hitem
  obtain ⟨spot, hspot, hpresent⟩ := bind_eq_ok_iff.mp hfind
  split at hpresent <;> cases hpresent
  obtain ⟨_, _, -, ⟨-, hget | ⟨rfl, -⟩⟩, -⟩ := arrives_of_resolve hspot
  · exact Named.isName_of_mem (hnamed.get? hget) hchild
  · cases hchild

end Operations

end BridgingHeader.FileTree
