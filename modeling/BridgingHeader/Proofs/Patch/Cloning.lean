import BridgingHeader.Proofs.Patch.Copying

/-!
# Clones

A clone takes the place of whatever stood where it goes. It is the original again, entry by entry,
and nothing else is new but the directories that lead to it. This holds as long as the path of the
clone climbs only out of directories that are there and that stay: otherwise what it leads to is not
found to be removed, but found again to be written to.
-/

namespace BridgingHeader

open FileTree (Cleared LeadsTo Plain SureFooted origin placeOf removedPlace)

/-! ### Removing what stands there -/

section Removing

variable {machine after : Machine} {path : Path}

theorem exists_of_removeIfPresent_ok
    (h : (Files.removeIfPresent path : Task Simulation Unit).run machine = (.ok (), after)) :
    (machine.find .entry path = .error .noEntry ∧ after = machine) ∨
    ∃ tree, after = machine.withTree tree ∧
      (machine.tree.removeTree machine.directory path = (tree, .ok ()) ∨
        machine.tree.removeFile machine.directory path = .ok tree) := by
  rw [Files.removeIfPresent, run_bind_of_ok (run_linkKind path machine)] at h
  cases hfind : machine.find .entry path with
  | error cause =>
    rw [hfind] at h
    by_cases hmissing : cause = .noEntry
    · subst hmissing
      cases h
      exact .inl ⟨rfl, rfl⟩
    · cases cause <;> first | exact absurd rfl hmissing | cases h
  | ok found =>
    right
    rw [hfind] at h
    cases hkind : found.2.kind with
    | directory =>
      simp only [Except.map, hkind] at h
      have hremoved := run_at_eq_ok_iff.mp h
      simp only [Host.removeTree] at hremoved
      split at hremoved
      · cases hremoved
      · rcases htree : machine.tree.removeTree machine.directory path with ⟨tree, result⟩
        rw [htree] at hremoved
        cases hremoved
        exact ⟨tree, rfl, .inl rfl⟩
    | file | link =>
      simp only [Except.map, hkind] at h
      have hremoved := run_at_eq_ok_iff.mp h
      simp only [Host.removeFile] at hremoved
      split at hremoved
      · cases hremoved
      · obtain ⟨tree, htree, rfl⟩ := Machine.exists_of_change hremoved
        exact ⟨tree, rfl, .inr htree⟩

/-- A machine whose tree is not changed stays as it is. -/
theorem Machine.IsPlaced.withTree_self (h : machine.IsPlaced) :
    machine.withTree machine.tree = machine := by
  have hdirectory : (machine.withTree machine.tree).directory = machine.directory :=
    h.directory_withTree id
  calc machine.withTree machine.tree
      = { machine with directory := (machine.withTree machine.tree).directory } := rfl
    _ = machine := by rw [hdirectory]

/-- What is removed by a sure-footed path stands under a name. -/
theorem exists_leadsTo_of_removeIfPresent (htext : path.text ≠ "")
    (hsure : SureFooted machine.tree machine.directory path)
    (h : (Files.removeIfPresent path : Task Simulation Unit).run machine = (.ok (), after)) :
    ∃ front name, LeadsTo path front name := by
  refine hsure.leadsTo_or.resolve_right fun hstay => ?_
  rcases exists_of_removeIfPresent_ok h with ⟨hfind, -⟩ | ⟨tree, -, hremoved | hremoved⟩
  · exact FileTree.not_endsNowhere_of_current hstay .entry
      (FileTree.endsNowhere_of_find htext hfind).2
  · exact FileTree.removeTree_of_current hstay htext hremoved
  · exact FileTree.removeFile_of_current hstay hremoved

variable {front : List String} {name : String}

/-- What stood where a sure-footed path leads is gone once it was removed. -/
theorem cleared_of_removeIfPresent (hplain : Plain machine.tree) (hplaced : machine.IsPlaced)
    (hsure : SureFooted machine.tree machine.directory path) (hleads : LeadsTo path front name)
    (h : (Files.removeIfPresent path : Task Simulation Unit).run machine = (.ok (), after)) :
    ∃ tree, after = machine.withTree tree ∧
      Cleared machine.tree (placeOf machine.directory path) tree := by
  rcases exists_of_removeIfPresent_ok h with ⟨hfind, rfl⟩ | ⟨tree, rfl, hremoved | hremoved⟩
  · have hfollow := (FileTree.endsNowhere_of_find hleads.text_ne_empty hfind).2
    exact ⟨_, hplaced.withTree_self.symm, .refl hplain, hsure.get?_eq_none hleads hplain hfollow⟩
  · have hchanged : FileTree.Changed machine.tree (placeOf machine.directory path)
        (machine.tree.removeTree machine.directory path).1 :=
      FileTree.removeTree_changed hplain
    rw [hremoved] at hchanged
    exact ⟨tree, rfl, hchanged, hsure.get?_of_removeTree hleads hplain hremoved⟩
  · exact ⟨tree, rfl, FileTree.removeFile_changed hplain hremoved,
      FileTree.get?_of_removeFile hplain (hleads.placeOf_ne_nil _) hremoved⟩

end Removing

/-! ### From the original to the clone -/

section Site

variable {start : Machine} {source target : Path} {tree : FileTree} {front : List String}
  {name : String}

/-- The working directory stays where it is, unless it is removed with what is cleared. -/
theorem directory_of_cleared {place : Place} (hplaced : start.IsPlaced)
    (h : Cleared start.tree place tree) :
    (start.withTree tree).directory = start.directory ∨ place <+: start.directory ∧
      (start.withTree tree).directory = removedPlace start.directory := by
  by_cases habove : place <+: start.directory
  · by_cases hthere : tree.isDirectoryAt start.directory = true
    · exact .inl (if_pos hthere)
    · exact .inr ⟨habove, if_neg hthere⟩
  · left
    refine hplaced.directory_withTree fun hthere => ?_
    rwa [FileTree.isDirectoryAt_eq, h.entries _ habove, ← FileTree.isDirectoryAt_eq]

variable (hplaced : start.IsPlaced)
  (hsure : SureFooted start.tree start.directory target) (hleads : LeadsTo target front name)
  (hcleared : Cleared start.tree (placeOf start.directory target) tree)
include hplaced hsure hleads hcleared

/-- The path of the clone starts where it did. -/
theorem origin_of_cleared :
    origin (start.withTree tree).directory target = origin start.directory target := by
  rcases directory_of_cleared hplaced hcleared with hsame | ⟨habove, -⟩
  · rw [hsame]
  · rw [origin, origin]
    split
    · rfl
    · next hrelative =>
      have hapart := hsure.apart_origin hleads
      rw [origin, if_neg hrelative] at hapart
      exact absurd habove hapart

/-- Where the clone goes, nothing stands any more, and the original can be copied there. -/
theorem copySite_of_cleared
    (hstart : start.tree.isDirectoryAt (origin start.directory source) = true)
    (horiginal : ¬ placeOf start.directory source <+: placeOf start.directory target)
    (hcopy : ¬ placeOf start.directory target <+: placeOf start.directory source) :
    CopySite (start.withTree tree) source target (placeOf start.directory source)
      (placeOf start.directory target) := by
  have horigin := origin_of_cleared hplaced hsure hleads hcleared
  -- What is left on the way down to where the path of the original starts are directories.
  have hfooting : ∀ place, place <+: origin start.directory source →
      tree.node? place ≠ none → tree.isDirectoryAt place = true := by
    intro place hplace hthere
    have hdirectory := FileTree.isDirectoryAt_of_below hstart hplace
    by_cases hbelow : placeOf start.directory target <+: place
    · obtain ⟨rest, rfl⟩ := hbelow
      exact absurd (Option.map_eq_none_iff.mpr hcleared.missing)
        (FileTree.node?_ne_none_of_append hthere)
    · rwa [FileTree.isDirectoryAt_eq, hcleared.entries _ hbelow, ← FileTree.isDirectoryAt_eq]
  constructor
  case plain => exact hcleared.plain
  case isPlaced => exact start.isPlaced_withTree tree
  case original_eq =>
    rcases directory_of_cleared hplaced hcleared with hsame | ⟨habove, hremoved⟩
    · rw [hsame]
    · have hne : start.directory ≠ [] := by
        intro hnil
        rw [hnil, List.prefix_nil] at habove
        exact hleads.placeOf_ne_nil _ habove
      rw [hremoved]
      refine (FileTree.placeOf_removedPlace_cases hne source).resolve_left fun hbelow => ?_
      exact hcopy (habove.trans hbelow.1)
  case copy_eq => rw [placeOf, horigin, ← placeOf]
  case footing =>
    intro place hplace hthere
    rcases directory_of_cleared hplaced hcleared with hsame | ⟨-, hremoved⟩
    · rw [hsame] at hplace
      exact hfooting place hplace hthere
    · rw [hremoved, origin] at hplace
      split at hplace
      · next habsolute =>
        refine hfooting place ?_ hthere
        rwa [origin, if_pos habsolute]
      · next hrelative =>
        rcases List.prefix_concat_iff.mp hplace with rfl | hplace
        · -- Nothing stands in the place of a directory that was removed.
          obtain ⟨sub, hsub⟩ := Option.ne_none_iff_exists'.mp hthere
          obtain ⟨found, hget, -⟩ := Option.map_eq_some_iff.mp hsub
          exact absurd rfl (hcleared.plain.isName_of_get? hget "" (by simp)).ne_empty
        · refine hfooting place ?_ hthere
          rw [origin, if_neg hrelative]
          exact hplace.trans (List.dropLast_prefix _)
  case sure => exact (hsure.of_nodes hleads hcleared.entries).congr horigin rfl
  case leads => exact ⟨front, name, hleads⟩
  case missing => exact hcleared.missing
  case original_apart => exact horiginal
  case copy_apart => exact hcopy

end Site

/-- A machine after something was cloned: the clone has the entries of the original, the original is
as it was, and elsewhere only the missing directories that lead to the clone are new. -/
structure Cloned (start : Machine) (original copy : Place) (after : Machine) : Prop where
  copied : ∀ names, after.tree.node? (copy ++ names) =
    (start.tree.node? (original ++ names)).map FileTree.renewed
  original : ∀ names, after.tree.node? (original ++ names) = start.tree.node? (original ++ names)
  elsewhere : ∀ place, ¬ copy <+: place → after.tree.node? place = start.tree.node? place ∨
    place <+: copy ∧ start.tree.node? place = none ∧ after.tree.node? place = some .empty

namespace Project

theorem exists_of_clone_ok {start after : Machine} {source target : Path}
    (h : (clone (m := Simulation) source target).run start = (.ok (), after)) :
    ∃ between, (Files.removeIfPresent target : Task Simulation Unit).run start =
        (.ok (), between) ∧
      (Files.copyAll source target : Task Simulation Unit).run between = (.ok (), after) := by
  obtain ⟨_, between, hremoved, h⟩ := exists_of_run_bind_ok (run_within_eq_ok_iff.mp h)
  obtain ⟨_, left, hcopied, h⟩ := exists_of_run_bind_ok h
  cases h
  exact ⟨between, hremoved, hcopied⟩

/-- A clone that succeeds is exact, and nothing is left of what stood where it goes. This takes a
path that is not empty and that climbs only out of directories that are there and that stay. -/
theorem clone_exact {start after : Machine} {source target : Path}
    (hplain : Plain start.tree) (hplaced : start.IsPlaced)
    (hstart : start.tree.isDirectoryAt (origin start.directory source) = true)
    (hthere : start.tree.node? (placeOf start.directory source) ≠ none)
    (htext : target.text ≠ "")
    (hsure : SureFooted start.tree start.directory target)
    (horiginal : ¬ placeOf start.directory source <+: placeOf start.directory target)
    (hcopy : ¬ placeOf start.directory target <+: placeOf start.directory source)
    (h : (clone (m := Simulation) source target).run start = (.ok (), after)) :
    Cloned start (placeOf start.directory source) (placeOf start.directory target) after := by
  obtain ⟨_, hremoved, hcopied⟩ := exists_of_clone_ok h
  obtain ⟨front, name, hleads⟩ := exists_leadsTo_of_removeIfPresent htext hsure hremoved
  obtain ⟨tree, rfl, hcleared⟩ := cleared_of_removeIfPresent hplain hplaced hsure hleads hremoved
  have hsite := copySite_of_cleared hplaced hsure hleads hcleared hstart horiginal hcopy
  have hentries : ∀ names, tree.node? (placeOf start.directory source ++ names) =
      start.tree.node? (placeOf start.directory source ++ names) :=
    fun names => hcleared.entries _ (hsite.apart names)
  have hthere' : (start.withTree tree).tree.node? (placeOf start.directory source) ≠ none := by
    have hsame := hentries []
    rw [List.append_nil] at hsame
    change tree.node? _ ≠ none
    rwa [hsame]
  have hstep := Copying.copyAll hsite hthere' hcopied
  constructor
  case copied =>
    intro names
    have hinside := hstep.copying.inside names
    change after.tree.node? _ = none ∨ after.tree.node? _ = (tree.node? _).map _ at hinside
    rw [hentries] at hinside
    by_cases hnone : start.tree.node? (placeOf start.directory source ++ names) = none
    · rw [hnone] at hinside ⊢
      exact hinside.elim id id
    · refine hinside.resolve_left (hstep.copied names ?_)
      change tree.node? _ ≠ none
      rwa [List.nil_append, hentries]
  case original =>
    intro names
    exact ((hstep.copying.intact hsite).nodes names).trans (hentries names)
  case elsewhere =>
    intro place hplace
    rw [← hcleared.entries place hplace]
    exact hstep.copying.outside place hplace

/-! ### Clones over something old -/

/-- A machine with a bundle, another directory, and something old where a clone can go. -/
def staleClone : Machine where
  tree := .directory {} [
    ("App.xcodeproj", .directory {} [
      ("project.pbxproj", .file .plain "new".toUTF8),
      ("xcuserdata", .directory {} [("Ann", .directory {} [])])]),
    ("work", .directory {} []),
    ("Out.xcodeproj", .directory {} [("stale", .file .plain "old".toUTF8)])]

theorem plain_staleClone : Plain staleClone.tree :=
  .cons (by decide) (.cons (by decide) (.file _ _)
      (.cons (by decide) (.cons (by decide) (.nil _) (.nil _)) (.nil _)))
    (.cons (by decide) (.nil _)
      (.cons (by decide) (.cons (by decide) (.file _ _) (.nil _)) (.nil _)))

/-- What is old goes away if the path climbs out of a directory that is there. -/
theorem clone_exact_of_staleClone : ∃ after,
    (clone (m := Simulation) ⟨"App.xcodeproj"⟩ ⟨"work/../Out.xcodeproj"⟩).run staleClone =
      (.ok (), after) ∧
    Cloned staleClone ["App.xcodeproj"] ["Out.xcodeproj"] after := by
  have hrun : ((clone (m := Simulation) ⟨"App.xcodeproj"⟩ ⟨"work/../Out.xcodeproj"⟩).run
      staleClone).1 = .ok () := by decide +kernel
  rcases hended : (clone (m := Simulation) ⟨"App.xcodeproj"⟩ ⟨"work/../Out.xcodeproj"⟩).run
    staleClone with ⟨result, after⟩
  rw [hended] at hrun
  subst hrun
  exact ⟨after, rfl, clone_exact plain_staleClone (.inl rfl) rfl (by decide) (by decide)
    (by decide) (by decide) (by decide) hended⟩

/-- If the path of a clone climbs out of a directory that is missing, then the clone is put among
what was there before. -/
theorem exists_clone_among_leftovers : ∃ target after,
    (clone (m := Simulation) ⟨"App.xcodeproj"⟩ target).run staleClone = (.ok (), after) ∧
      placeOf staleClone.directory target = ["Out.xcodeproj"] ∧
      after.tree.node? ["Out.xcodeproj", "stale"] ≠ none ∧
      ¬ Cloned staleClone ["App.xcodeproj"] ["Out.xcodeproj"] after := by
  have hrun : ((clone (m := Simulation) ⟨"App.xcodeproj"⟩ ⟨"new/../Out.xcodeproj"⟩).run
      staleClone).1 = .ok () := by decide +kernel
  have hleft : (((clone (m := Simulation) ⟨"App.xcodeproj"⟩ ⟨"new/../Out.xcodeproj"⟩).run
      staleClone).2.tree.node? ["Out.xcodeproj", "stale"]).isSome = true := by decide +kernel
  rcases hended : (clone (m := Simulation) ⟨"App.xcodeproj"⟩ ⟨"new/../Out.xcodeproj"⟩).run
    staleClone with ⟨result, after⟩
  rw [hended] at hrun hleft
  subst hrun
  have hthere : after.tree.node? ["Out.xcodeproj", "stale"] ≠ none :=
    Option.isSome_iff_ne_none.mp hleft
  refine ⟨⟨"new/../Out.xcodeproj"⟩, after, hended, by decide, hthere, fun hcloned => hthere ?_⟩
  exact hcloned.copied ["stale"]

end Project

end BridgingHeader
