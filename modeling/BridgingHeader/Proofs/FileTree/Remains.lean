import BridgingHeader.Proofs.Dictionary
import BridgingHeader.Proofs.FileTree.Climbing
import BridgingHeader.Proofs.FileTree.Walks

/-!
# What remains of a tree

A tree remains of another one if everything in it stood there before. A path leads nowhere else in
what remains than before, and it does not lead anywhere again where it has once led nowhere. Removing
leaves such a tree, whether it succeeds or gives up halfway.
-/

namespace BridgingHeader.FileTree

variable {t t' t'' : FileTree} {links : Nat} {place found directory directory' : Place}
  {name : String} {rest : List String} {sub left : FileTree} {path : Path}

theorem node?_eq_none_iff : t.node? place = none ↔ t.get? place = none := Option.map_eq_none_iff

/-- What stands somewhere in a tree stood there in another one. -/
def Remains (t t' : FileTree) : Prop :=
  ∀ place, t'.node? place = none ∨ t'.node? place = t.node? place

namespace Remains

theorem refl (t : FileTree) : Remains t t := fun _ => .inr rfl

theorem trans (h : Remains t t') (h' : Remains t' t'') : Remains t t'' := by
  intro place
  rcases h' place with hnone | hsame
  · exact .inl hnone
  · rw [hsame]
    exact h place

theorem get?_eq_none (h : Remains t t') (hnone : t.get? place = none) : t'.get? place = none := by
  rw [← node?_eq_none_iff] at hnone ⊢
  exact (h place).elim id fun hsame => hsame.trans hnone

theorem exists_of_get? (h : Remains t t') (hget : t'.get? place = some left) :
    ∃ sub, t.get? place = some sub ∧ left.shallow = sub.shallow := by
  rcases h place with hnone | hsame
  · rw [node?_eq_none_iff, hget] at hnone
    cases hnone
  · rw [node?, node?, hget] at hsame
    obtain ⟨sub, hsub, hshallow⟩ := Option.map_eq_some_iff.mp hsame.symm
    exact ⟨sub, hsub, hshallow.symm⟩

theorem isDirectoryAt (h : Remains t t') (hthere : t'.isDirectoryAt place = true) :
    t.isDirectoryAt place = true := by
  rw [isDirectoryAt_eq] at hthere ⊢
  rcases h place with hnone | hsame
  · rw [hnone] at hthere
    cases hthere
  · rwa [hsame] at hthere

/-- The root stays. -/
theorem isDirectory (h : Remains t t') : t'.isDirectory = t.isDirectory := by
  have hroot : t'.get? [] = some t' := rfl
  obtain ⟨sub, hsub, hshallow⟩ := h.exists_of_get? hroot
  cases hsub
  rw [← isDirectory_shallow, hshallow, isDirectory_shallow]

theorem grounded (h : Remains t t') (hground : Grounded t place) : Grounded t' place := by
  intro above habove
  cases hget : t'.get? above with
  | none => rfl
  | some left =>
    obtain ⟨sub, hsub, hshallow⟩ := h.exists_of_get? hget
    have hdirectory := hground above habove
    rw [hsub] at hdirectory
    change left.isDirectory = true
    rw [← isDirectory_shallow, hshallow, isDirectory_shallow]
    simpa using hdirectory

end Remains

/-! ### Walks in what remains -/

theorem isDirectory_here (t : FileTree) (place : Place) :
    ((Stand.ofPlace t place).here.getD empty).isDirectory = true := by
  rcases Stand.here_cases t place with ⟨hhere, -⟩ | ⟨permissions, items, hhere, -⟩
  · rw [hhere]
    rfl
  · rw [hhere]
    rfl

theorem Finds.of_remains (h : Remains t t') (hpass : t.isPassableAt place = true)
    (hfinds : Finds t' place name left) :
    ∃ sub, Finds t place name sub ∧ left.shallow = sub.shallow := by
  obtain ⟨sub, hsub, hshallow⟩ := h.exists_of_get? hfinds.get?
  exact ⟨sub, { hfinds with passable := hpass, get? := hsub }, hshallow⟩

/-- Where segments lead in what remains, they have led before, unless they were refused. A directory
that may not be passed bars a walk only as long as it is there. -/
theorem Reaches.of_remains (hremains : Remains t t') (hroot : t.isDirectory = true)
    (h : Reaches t' links place rest found left) :
    t.walk links place rest = .error .permissionDenied ∨
      ∃ sub, Reaches t links place rest found sub ∧ sub.isDirectory = left.isDirectory := by
  induction h with
  | done => exact .inr ⟨_, .done, by rw [isDirectory_here, isDirectory_here]⟩
  | blank go ih =>
    rw [walk_blank]
    exact ih.imp_right (Exists.imp fun sub => And.imp_left .blank)
  | @current links place found rest left pass go ih =>
    cases hpass : t.isPassableAt place with
    | false => exact .inl (walk_denied (by decide) hpass _ _)
    | true =>
      rw [walk_current hpass]
      exact ih.imp_right (Exists.imp fun sub => And.imp_left (.current hpass))
  | @up links place found rest left pass go ih =>
    cases hpass : t.isPassableAt place with
    | false => exact .inl (walk_denied (by decide) hpass _ _)
    | true =>
      rw [walk_up hpass]
      exact ih.imp_right (Exists.imp fun sub => And.imp_left (.up hpass))
  | @enter links place found name rest left permissions items finds go ih =>
    cases hpass : t.isPassableAt place with
    | false => exact .inl (walk_denied finds.ne_empty hpass _ _)
    | true =>
      obtain ⟨sub, hfinds, hshallow⟩ := finds.of_remains hremains hpass
      cases sub with
      | directory =>
        rw [walk_name hroot hfinds, onFrom]
        exact ih.imp_right (Exists.imp fun sub => And.imp_left (.enter hfinds))
      | file => cases hshallow
      | link => cases hshallow
  | @follow links place found name rest left target finds more go ih =>
    cases hpass : t.isPassableAt place with
    | false => exact .inl (walk_denied finds.ne_empty hpass _ _)
    | true =>
      obtain ⟨sub, hfinds, hshallow⟩ := finds.of_remains hremains hpass
      cases sub with
      | directory => cases hshallow
      | file => cases hshallow
      | link =>
        cases hshallow
        rw [walk_link hroot hfinds _ more]
        exact ih.imp_right (Exists.imp fun sub => And.imp_left (.follow hfinds more))
  | @last links place name left finds leaf =>
    cases hpass : t.isPassableAt place with
    | false => exact .inl (walk_denied finds.ne_empty hpass _ _)
    | true =>
      obtain ⟨sub, hfinds, hshallow⟩ := finds.of_remains hremains hpass
      have hleaf : sub.isDirectory = left.isDirectory := by
        rw [← isDirectory_shallow, ← hshallow, isDirectory_shallow]
      exact .inr ⟨sub, .last hfinds (hleaf.trans leaf), hleaf⟩

/-- From a directory that is gone segments lead where they lead from any other one with the same
parent that is gone, unless they do not leave it. -/
theorem Reaches.of_gone {other : Place} (hgone : t.isDirectoryAt place = false)
    (hother : t.isDirectoryAt other = false) (hparent : other.dropLast = place.dropLast)
    (h : Reaches t links place rest found sub) :
    ∃ last, Reaches t links other rest last sub ∧ (last = found ∨ found = place) := by
  have hhere : ∀ {place}, t.isDirectoryAt place = false →
      (Stand.ofPlace t place).here.getD empty = empty := by
    intro place hgone
    rcases Stand.here_cases t place with ⟨hhere, -⟩ | ⟨permissions, items, -, hget⟩
    · rw [hhere]
      rfl
    · rw [FileTree.isDirectoryAt, hget] at hgone
      cases hgone
  have hfinds : ∀ {place name sub}, t.isDirectoryAt place = false → ¬ Finds t place name sub := by
    intro place name sub hgone hfinds
    obtain ⟨permissions, items, hget, -⟩ := hfinds.exists_directory
    rw [FileTree.isDirectoryAt, hget] at hgone
    cases hgone
  induction h with
  | @done links place =>
    have hdone : Reaches t links other [] other _ := .done
    rw [hhere hother] at hdone
    rw [hhere hgone]
    exact ⟨other, hdone, .inr rfl⟩
  | blank go ih =>
    obtain ⟨last, hgo, hlast⟩ := ih hgone hparent
    exact ⟨last, hgo.blank, hlast⟩
  | current pass go ih =>
    obtain ⟨last, hgo, hlast⟩ := ih hgone hparent
    exact ⟨last, .current (isPassableAt_of_not_isDirectoryAt hother) hgo, hlast⟩
  | up pass go ih =>
    rw [← hparent] at go
    exact ⟨_, .up (isPassableAt_of_not_isDirectoryAt hother) go, .inl rfl⟩
  | enter finds go ih => exact absurd finds (hfinds hgone)
  | follow finds more go ih => exact absurd finds (hfinds hgone)
  | last finds leaf => exact absurd finds (hfinds hgone)

/-! ### Trees of listed directories -/

/-- The entries of a directory have different names, none of which is empty. -/
def IsListed : FileTree → Prop
  | .directory _ items => (items.map Prod.fst).Nodup ∧ "" ∉ items.map Prod.fst
  | _ => True

instance : DecidablePred IsListed
  | .directory _ items =>
    inferInstanceAs (Decidable ((items.map Prod.fst).Nodup ∧ "" ∉ items.map Prod.fst))
  | .file .. => isTrue trivial
  | .link _ => isTrue trivial

/-- A tree whose directories list their entries by name. -/
abbrev Listed (t : FileTree) : Prop := Throughout IsListed t

/-- Nothing stands under an empty name. -/
theorem Listed.get?_eq_none (h : Listed t) (hplace : "" ∈ place) : t.get? place = none := by
  obtain ⟨front, rest, rfl⟩ := List.append_of_mem hplace
  by_contra hget
  obtain ⟨sub, hsub⟩ := Option.ne_none_iff_exists'.mp hget
  obtain ⟨permissions, items, child, hdirectory, hchild, -⟩ := exists_directory_of_get? hsub
  rw [get?_concat, hdirectory] at hchild
  exact (h.get? hdirectory).here.2 (List.mem_map_of_mem (mem_of_lookup hchild))

/-- A property of whatever stands somewhere in the tree is a property of all subtrees. -/
theorem Listed.throughout {Q : FileTree → Prop} (h : Listed t)
    (hget : ∀ place sub, t.get? place = some sub → Q sub) : Throughout Q t := by
  induction h with
  | @intro t root children ih =>
    refine .intro (hget [] t rfl) fun item hitem => ih item hitem fun place sub hsub => ?_
    refine hget (item.1 :: place) sub ?_
    cases t with
    | directory permissions items =>
      have hlookup : items.lookup item.1 = some item.2 :=
        Dictionary.get?_of_mem_entries (d := ⟨items⟩) root.1 hitem
      rw [FileTree.get?, FileTree.children, hlookup]
      exact hsub
    | file permissions contents => cases hitem
    | link target => cases hitem

/-- What remains has the names that it had before. -/
theorem Remains.named (h : Remains t t') (hlisted : Listed t') (hnamed : Named t) : Named t' := by
  refine hlisted.throughout fun place sub hsub => ?_
  cases sub with
  | directory permissions items =>
    intro item hitem
    have hlookup : items.lookup item.1 = some item.2 :=
      Dictionary.get?_of_mem_entries (d := ⟨items⟩) (hlisted.get? hsub).here.1 hitem
    have hthere : t'.get? (place ++ [item.1]) = some item.2 := by
      rw [get?_concat, hsub]
      exact hlookup
    obtain ⟨old, hold, -⟩ := h.exists_of_get? hthere
    exact hnamed.isName_of_get? hold item.1 (by simp)
  | file permissions contents => trivial
  | link target => trivial

theorem sublist_map_fst_alterChild {change : Option FileTree → Option FileTree}
    (hnone : change none = none) (items : List (String × FileTree)) :
    ((alterChild name change items).map Prod.fst).Sublist (items.map Prod.fst) := by
  induction items with
  | nil =>
    rw [alterChild, hnone]
    exact .refl _
  | cons item items ih =>
    rw [alterChild]
    split
    · next hname =>
      have hothers : ((items.filter fun other => other.1 ≠ name).map Prod.fst).Sublist
          (items.map Prod.fst) := List.filter_sublist.map _
      rw [List.map_append, List.map_cons]
      cases change (some item.2) with
      | none => exact hothers.cons item.1
      | some new => exact hname ▸ hothers.cons_cons item.1
    · exact ih.cons_cons item.1

theorem alter_nil (change : Option FileTree → Option FileTree) (t : FileTree) :
    t.alter [] change = (change (some t)).getD t := by
  rw [alter]

/-- A change that brings in nothing under a new name keeps directories listed. -/
theorem Listed.alter (h : Listed t) {change : Option FileTree → Option FileTree}
    (hnone : change none = none)
    (hsome : ∀ new, change (t.get? place) = some new → Listed new) :
    Listed (t.alter place change) := by
  have hlisted : ∀ permissions items name (change : Option FileTree → Option FileTree),
      change none = none → IsListed (.directory permissions items) →
      IsListed (.directory permissions (alterChild name change items)) := by
    intro permissions items name change hnone hitems
    have hsublist : ((alterChild name change items).map Prod.fst).Sublist (items.map Prod.fst) :=
      sublist_map_fst_alterChild hnone items
    exact ⟨hsublist.nodup hitems.1, fun hmem => hitems.2 (hsublist.mem hmem)⟩
  rcases List.eq_nil_or_concat' place with rfl | ⟨parent, name, rfl⟩
  · rw [alter_nil]
    cases hchange : change (some t) with
    | none => exact h
    | some new => exact hsome new hchange
  · exact Throughout.alter (fun permissions items name f => hlisted permissions items name _ rfl) h
      (fun permissions items hparent => hlisted permissions items name _ hnone (h.get? hparent).here)
      hsome

/-- A directory of which the entries remain that are still there. -/
theorem remains_directory {permissions : Permissions} {items others : List (String × FileTree)}
    (h : ∀ name left, others.lookup name = some left →
      ∃ child, items.lookup name = some child ∧ Remains child left) :
    Remains (.directory permissions items) (.directory permissions others) := by
  intro place
  cases place with
  | nil => exact .inr rfl
  | cons name rest =>
    rw [node?, node?, get?, get?, children, children]
    cases hlookup : others.lookup name with
    | none => exact .inl rfl
    | some left =>
      obtain ⟨child, hchild, hremains⟩ := h name left hlookup
      rw [hchild]
      exact hremains rest

mutual

/-- What is left of a tree when it is emptied remains of it. -/
theorem Listed.emptied : ∀ {t : FileTree}, Listed t →
    Listed (FileTree.emptied t).1 ∧ Remains t (FileTree.emptied t).1
  | .file _ _, h => ⟨h, .refl _⟩
  | .link _, h => ⟨h, .refl _⟩
  | .directory permissions items, h => by
    rw [FileTree.emptied]
    split
    · exact ⟨h, .refl _⟩
    · obtain ⟨hnames, hitems⟩ := Listed.dropped permissions items fun item hitem => h.of_mem hitem
      refine ⟨.intro ⟨hnames.nodup h.here.1, fun hmem => h.here.2 (hnames.mem hmem)⟩
        fun item hitem => (hitems item hitem).1, ?_⟩
      refine remains_directory fun name left hlookup => ?_
      obtain ⟨-, child, hchild, hremains⟩ := hitems _ (mem_of_lookup hlookup)
      exact ⟨child, Dictionary.get?_of_mem_entries (d := ⟨items⟩) h.here.1 hchild, hremains⟩

theorem Listed.dropped (permissions : Permissions) : ∀ (items : List (String × FileTree)),
    (∀ item ∈ items, Listed item.2) →
    ((FileTree.dropped permissions items).1.map Prod.fst).Sublist (items.map Prod.fst) ∧
      ∀ item ∈ (FileTree.dropped permissions items).1, Listed item.2 ∧
        ∃ child, (item.1, child) ∈ items ∧ Remains child item.2
  | [], _ => by simp [FileTree.dropped]
  | (name, child) :: rest, h => by
    have hchild := Listed.emptied (h (name, child) List.mem_cons_self)
    obtain ⟨hnames, hrest⟩ :=
      Listed.dropped permissions rest fun item hitem => h item (List.mem_cons_of_mem _ hitem)
    have hkept : ∀ left, Listed left ∧ Remains child left → ∀ item ∈ (name, left) :: rest,
        Listed item.2 ∧ ∃ old, (item.1, old) ∈ (name, child) :: rest ∧ Remains old item.2 := by
      intro left hleft item hitem
      rcases List.mem_cons.mp hitem with rfl | hitem
      · exact ⟨hleft.1, child, List.mem_cons_self, hleft.2⟩
      · exact ⟨h item (List.mem_cons_of_mem _ hitem), item.2, List.mem_cons_of_mem _ hitem,
          .refl _⟩
    rw [FileTree.dropped]
    split
    · exact ⟨List.Sublist.refl _, hkept child ⟨h _ List.mem_cons_self, .refl _⟩⟩
    · split
      · next left cause hemptied =>
        rw [hemptied] at hchild
        exact ⟨List.Sublist.refl _, hkept left hchild⟩
      · next left hemptied =>
        rw [hemptied] at hchild
        split
        · refine ⟨hnames.cons name, fun item hitem => ?_⟩
          obtain ⟨hlisted, old, hold, hremains⟩ := hrest item hitem
          exact ⟨hlisted, old, List.mem_cons_of_mem _ hold, hremains⟩
        · exact ⟨List.Sublist.refl _, hkept left hchild⟩

end

/-! ### Cuts -/

/-- Entries have been removed from a tree at a place and below it, and nowhere else. -/
structure Cut (t : FileTree) (place : Place) (t' : FileTree) : Prop where
  listed : Listed t'
  remains : Remains t t'
  beside : ∀ other, ¬ place <+: other → t'.node? other = t.node? other

theorem Cut.trans (h : Cut t place t') (h' : Cut t' place t'') : Cut t place t'' :=
  ⟨h'.listed, h.remains.trans h'.remains,
    fun other hother => (h'.beside other hother).trans (h.beside other hother)⟩

/-- What stands at a changed place is what the change makes of it, if it makes nothing of nothing. -/
theorem get?_alter_of_none {change : Option FileTree → Option FileTree} (hplace : place ≠ [])
    (hnone : change none = none) (t : FileTree) :
    (t.alter place change).get? place = change (t.get? place) := by
  cases hget : t.get? place with
  | some sub => exact get?_alter_of_get? hplace hget change
  | none =>
    rw [hnone]
    by_contra hthere
    obtain ⟨sub, hsub⟩ := Option.ne_none_iff_exists'.mp hthere
    obtain ⟨parent, name, rfl⟩ := (List.eq_nil_or_concat' place).resolve_left hplace
    obtain ⟨permissions, items, -, hdirectory, -⟩ := exists_directory_of_get? hsub
    have hparent : t.isDirectoryAt (parent ++ [name]).dropLast = true := by
      have hbeside : ¬ parent ++ [name] <+: parent := by
        intro hprefix
        have hlength := hprefix.length_le
        rw [List.length_append, List.length_singleton] at hlength
        omega
      rw [List.dropLast_concat, isDirectoryAt_eq, ← node?_alter hbeside t change, node?, hdirectory]
      rfl
    rw [get?_alter_self hparent hplace, hget, hnone] at hsub
    cases hsub

/-- A change that leaves something of what stands at a place, or nothing, is a cut. -/
theorem Cut.alter (h : Listed t) {change : Option FileTree → Option FileTree}
    (hnone : change none = none) (hsome : ∀ sub left, t.get? place = some sub →
      change (some sub) = some left → Listed left ∧ Remains sub left) :
    Cut t place (t.alter place change) where
  listed := by
    refine h.alter hnone fun left hleft => ?_
    cases hget : t.get? place with
    | none =>
      rw [hget, hnone] at hleft
      cases hleft
    | some sub =>
      rw [hget] at hleft
      exact (hsome sub left hget hleft).1
  remains := by
    intro other
    by_cases hprefix : place <+: other
    · obtain ⟨rest, rfl⟩ := hprefix
      by_cases hplace : place = []
      · subst hplace
        rw [alter_nil, List.nil_append]
        cases hchange : change (some t) with
        | none => exact .inr rfl
        | some left => exact (hsome t left rfl hchange).2 rest
      · rw [node?, node?, get?_append, get?_append, get?_alter_of_none hplace hnone]
        cases hget : t.get? place with
        | none =>
          rw [hnone]
          exact .inl rfl
        | some sub =>
          cases hchange : change (some sub) with
          | none => exact .inl rfl
          | some left => exact (hsome sub left hget hchange).2 rest
    · exact .inr (node?_alter hprefix t change)
  beside other hother := node?_alter hother t change

theorem Cut.refl (h : Listed t) (place : Place) : Cut t place t := ⟨h, .refl t, fun _ _ => rfl⟩

theorem Cut.remove (h : Listed t) (place : Place) : Cut t place (t.remove place) :=
  Cut.alter h rfl nofun

/-- What is found at a place is replaced by what is left of it when it is emptied. -/
theorem Cut.emptied (h : Listed t)
    (hfound : t.get? place = some sub ∨ t.get? place = none ∧ sub = empty) :
    Cut t place (t.alter place (Option.map fun _ => (emptied sub).1)) := by
  refine Cut.alter h rfl fun old left hold hleft => ?_
  cases hleft
  rcases hfound with hget | ⟨hnone, -⟩
  · rw [hget] at hold
    cases hold
    exact Listed.emptied (h.get? hget)
  · rw [hnone] at hold
    cases hold

/-! ### Where paths lead in what remains -/

/-- A working directory is where it was, unless it is gone. -/
def Stays (t : FileTree) (directory directory' : Place) : Prop :=
  directory' = directory ∨
    directory' = removedPlace directory ∧ t.isDirectoryAt directory = false

theorem Stays.trans {directory'' : Place} (hremains : Remains t t')
    (h : Stays t directory directory') (h' : Stays t' directory' directory'') :
    Stays t' directory directory'' := by
  rcases h with rfl | ⟨rfl, hgone⟩
  · exact h'
  · have hgone' : t'.isDirectoryAt directory = false := by
      rw [Bool.eq_false_iff] at hgone ⊢
      exact mt hremains.isDirectoryAt hgone
    rcases h' with rfl | ⟨rfl, -⟩
    · exact .inr ⟨rfl, hgone'⟩
    · refine .inr ⟨?_, hgone'⟩
      rw [removedPlace, removedPlace, List.dropLast_concat]

theorem leads_unique (hroot : t.isDirectory = true) {other : Place} {last : FileTree}
    (h : Leads t directory path found sub) (h' : Leads t directory path other last) :
    other = found ∧ last = sub := by
  rw [leads_iff hroot] at h h'
  rw [h] at h'
  cases h'
  exact ⟨rfl, rfl⟩

/-- Where a path leads in what remains, it has led before, unless it was refused or does not leave a
working directory that is gone. -/
theorem Leads.of_remains (hremains : Remains t t') (hroot : t.isDirectory = true)
    (hlisted : Listed t') (hstays : Stays t' directory directory')
    (h : Leads t' directory' path found left) :
    t.follow directory .entry path = .error .permissionDenied ∨
      ∃ other sub, Leads t directory path other sub ∧ sub.isDirectory = left.isDirectory ∧
        (other = found ∨ t'.get? found = none) := by
  obtain ⟨last, hlast, hend⟩ : ∃ last, Leads t' directory path last left ∧
      (last = found ∨ t'.get? found = none) := by
    rcases hstays with rfl | ⟨rfl, hgone⟩
    · exact ⟨found, h, .inl rfl⟩
    · have hmissing : t'.get? (removedPlace directory) = none :=
        hlisted.get?_eq_none (by simp [removedPlace])
      by_cases habsolute : path.isAbsolute = true
      · rw [Leads, origin, if_pos habsolute] at h
        refine ⟨found, ?_, .inl rfl⟩
        rwa [Leads, origin, if_pos habsolute]
      · rw [Leads, origin, if_neg habsolute] at h
        have hremoved : t'.isDirectoryAt (removedPlace directory) = false := by
          rw [isDirectoryAt, hmissing]
          rfl
        have hparent : directory.dropLast = (removedPlace directory).dropLast := by
          rw [removedPlace, List.dropLast_concat]
        obtain ⟨last, hlast, hend⟩ := h.of_gone hremoved hgone hparent
        refine ⟨last, ?_, hend.imp_right fun hfound => ?_⟩
        · rwa [Leads, origin, if_neg habsolute]
        · rw [hfound, hmissing]
  have hfollow : t.follow directory .entry path =
      t.walk linkLimit (origin directory path) (segments path.text) := walkLinks_eq_walk ..
  rw [hfollow]
  refine (Reaches.of_remains hremains hroot hlast).imp_right ?_
  rintro ⟨sub, hreaches, hsub⟩
  exact ⟨last, sub, hreaches, hsub, hend⟩

/-! ### Removing -/

/-- Whatever remains of a tree, a path does not lead anywhere in it. -/
def LeadsNowhere (t : FileTree) (directory : Place) (path : Path) : Prop :=
  ∀ left directory', Remains t left → Listed left → Stays left directory directory' →
    ∀ found sub, ¬ Leads left directory' path found sub

/-- A path that has led nowhere does not lead anywhere again. -/
theorem leadsNowhere_of_follow (hroot : t.isDirectory = true)
    (h : EndsNowhere (t.follow directory .entry path)) : LeadsNowhere t directory path := by
  intro left directory' hremains hlisted hstays found sub hleads
  rcases hleads.of_remains hremains hroot hlisted hstays with hdenied | ⟨other, last, hlast, -⟩
  · rw [hdenied] at h
    exact h
  · rw [(leads_iff hroot).mp hlast] at h
    exact h

/-- A path leads nowhere if it does not without the slashes at its end. -/
theorem LeadsNowhere.of_withoutEndSlashes
    (h : LeadsNowhere t directory (withoutEndSlashes path)) : LeadsNowhere t directory path := by
  intro left directory' hremains hlisted hstays found sub hleads
  obtain ⟨other, last, hbare⟩ := hleads.exists_withoutEndSlashes
  exact h left directory' hremains hlisted hstays other last hbare

/-- A path with a name at its end leads nowhere once nothing stands where it led. -/
theorem leadsNowhere_of_get? {slashed : Bool} (hroot : t.isDirectory = true)
    (hremains : Remains t t') (hlast : lastStep path = .name slashed)
    (hleads : Leads t directory (withoutEndSlashes path) place sub)
    (hnone : t'.get? place = none) : LeadsNowhere t' directory (withoutEndSlashes path) := by
  intro left directory' hleft hlisted hstays found last hfound
  have hget := (hfound.get?_of_name hlast).2
  rcases hfound.of_remains (hremains.trans hleft) hroot hlisted hstays with
    hdenied | ⟨other, old, hold, -, rfl | hmissing⟩
  · rw [(leads_iff hroot).mp hleads] at hdenied
    cases hdenied
  · obtain ⟨rfl, -⟩ := leads_unique hroot hleads hold
    rw [hleft.get?_eq_none hnone] at hget
    cases hget
  · rw [hmissing] at hget
    cases hget

/-- A name without a slash after it ends the path. -/
theorem withoutEndSlashes_of_lastStep (h : lastStep path = .name false) :
    withoutEndSlashes path = path := by
  rw [lastStep] at h
  split at h
  · cases h
  · cases h
  · cases h
  · have hsame : ¬ path ≠ withoutEndSlashes path := by simpa using LastStep.name.inj h
    exact (not_not.mp hsame).symm

theorem text_ne_empty_of_refusal? (h : refusal? path = none) : path.text ≠ "" := by
  intro htext
  rw [refusal?, htext] at h
  cases h

theorem exists_of_removeDirectory (h : t.removeDirectory directory path = .ok t') :
    ∃ found sub slashed, t.locate directory path = .ok (.present found sub) ∧
      lastStep path = .name slashed ∧ sub.isDirectory = true ∧ sub.children = [] ∧
      t' = t.remove found := by
  obtain ⟨spot, hspot, h⟩ := bind_eq_ok_iff.mp h
  split at h
  · cases h
  · cases h
  · cases h
  · cases h
  · next found sub hroot hcurrent hup =>
    obtain ⟨-, h⟩ := of_guard_eq_ok h
    obtain ⟨hdirectory, h⟩ := of_guard_eq_ok h
    obtain ⟨hempty, h⟩ := of_guard_eq_ok h
    cases h
    cases hlast : lastStep path with
    | root => exact absurd hlast hroot
    | current => exact absurd hlast hcurrent
    | up => exact absurd hlast hup
    | name slashed =>
      exact ⟨found, sub, slashed, hspot, rfl, by simpa using hdirectory, not_not.mp hempty, rfl⟩

/-- What is removed as a file is what the path leads to. -/
theorem of_removeFile (hfind : t.find directory .entry path = .ok (place, sub))
    (h : t.removeFile directory path = .ok t') :
    t.locate directory path = .ok (.present place sub) ∧ lastStep path = .name false ∧
      t' = t.remove place := by
  obtain ⟨found, hfound, hpresent⟩ := bind_eq_ok_iff.mp hfind
  obtain ⟨spot, hspot, h⟩ := bind_eq_ok_iff.mp h
  split at h
  · cases h
  · next there last slashed hlast =>
    obtain ⟨hleaf, h⟩ := of_guard_eq_ok h
    obtain ⟨-, h⟩ := of_guard_eq_ok h
    obtain ⟨hfile, h⟩ := of_guard_eq_ok h
    cases h
    obtain rfl : slashed = false := by
      by_contra hslashed
      exact hleaf ⟨by simpa using hslashed, by simpa using hfile⟩
    -- Without slashes at its end the path is followed in the same way by both.
    have hsame : t.locate directory path = t.resolve directory .entry path := by
      rw [locate, resolve, withoutEndSlashes_of_lastStep hlast]
    rw [hsame, hfound] at hspot
    cases hspot
    cases hpresent
    exact ⟨hsame.trans hfound, hlast, rfl⟩
  · cases h

/-- Everything below a place is gone, and if something is still there, it is a directory. -/
structure Swept (t : FileTree) (place : Place) : Prop where
  below : ∀ rest, rest ≠ [] → t.get? (place ++ rest) = none
  root : ∀ sub, t.get? place = some sub → sub.isDirectory = true

theorem swept_of_get?_eq_none (h : t.get? place = none) : Swept t place where
  below rest _ := by rw [get?_append, h, Option.bind_none]
  root sub hsub := by
    rw [h] at hsub
    cases hsub

theorem Swept.of_remains (h : Swept t place) (hremains : Remains t t') : Swept t' place where
  below rest hrest := hremains.get?_eq_none (h.below rest hrest)
  root left hleft := by
    obtain ⟨sub, hsub, hshallow⟩ := hremains.exists_of_get? hleft
    rw [← isDirectory_shallow, hshallow, isDirectory_shallow]
    exact h.root sub hsub

/-- Only what a change makes of what stands at its place matters. -/
theorem alterChild_congr {change other : Option FileTree → Option FileTree}
    {items : List (String × FileTree)} (h : change (items.lookup name) = other (items.lookup name)) :
    alterChild name change items = alterChild name other items := by
  induction items with
  | nil => exact congrArg (fun child => child.toList.map fun child => (name, child)) h
  | cons item items ih =>
    obtain ⟨first, child⟩ := item
    rw [lookup_cons_eq_if] at h
    rw [alterChild, alterChild]
    by_cases hname : first = name
    · rw [if_pos hname.symm] at h
      rw [if_pos hname, if_pos hname, h]
    · rw [if_neg (Ne.symm hname)] at h
      rw [if_neg hname, if_neg hname, ih h]

theorem alter_congr {change other : Option FileTree → Option FileTree}
    (h : change (t.get? place) = other (t.get? place)) :
    t.alter place change = t.alter place other := by
  induction place generalizing t with
  | nil =>
    rw [alter_nil, alter_nil]
    exact congrArg (Option.getD · t) h
  | cons name rest ih =>
    cases t with
    | file permissions contents => rfl
    | link target => rfl
    | directory permissions items =>
      rw [alter, alter]
      refine congrArg (FileTree.directory permissions) (alterChild_congr ?_)
      rw [get?, children] at h
      by_cases hrest : rest = []
      · subst hrest
        cases hlookup : items.lookup name <;> simpa [hlookup, get?] using h
      · rw [if_neg hrest, if_neg hrest]
        cases hlookup : items.lookup name with
        | none => rfl
        | some child =>
          rw [hlookup] at h
          exact congrArg some (ih h)

theorem get?_alter_map (f : FileTree → FileTree) (place : Place) (t : FileTree) :
    (t.alter place (Option.map f)).get? place = (t.get? place).map f := by
  by_cases hplace : place = []
  · subst hplace
    rw [alter_nil]
    rfl
  · rw [get?_alter_of_none hplace rfl]

/-- Nothing is below a directory without its entries. -/
theorem swept_alter_shallow (hfound : t.get? place = some sub ∨ t.get? place = none)
    (hdirectory : sub.isDirectory = true) : Swept (t.alter place (Option.map shallow)) place := by
  rcases hfound with hget | hnone
  · cases sub with
    | file permissions contents => cases hdirectory
    | link target => cases hdirectory
    | directory permissions items =>
      have hleft : (t.alter place (Option.map shallow)).get? place =
          some (.directory permissions []) := by
        rw [get?_alter_map, hget]
        rfl
      constructor
      case below =>
        intro rest hrest
        obtain ⟨name, rest, rfl⟩ := List.exists_cons_of_ne_nil hrest
        rw [get?_append, hleft]
        rfl
      case root =>
        intro sub hsub
        rw [hleft] at hsub
        cases hsub
        rfl
  · refine swept_of_get?_eq_none ?_
    rw [get?_alter_map, hnone]
    rfl

/-- A directory that could be emptied is left without its entries. -/
theorem alter_emptied (hdirectory : sub.isDirectory = true) (h : (emptied sub).2 = .ok ())
    (hfound : t.get? place = some sub ∨ t.get? place = none) :
    t.alter place (Option.map fun _ => (emptied sub).1) = t.alter place (Option.map shallow) := by
  refine alter_congr ?_
  rcases hfound with hget | hnone
  · cases sub with
    | file permissions contents => cases hdirectory
    | link target => cases hdirectory
    | directory permissions items =>
      rw [hget, Option.map_some, Clearable.emptied_fst (Clearable.of_emptied h)]
      rfl
  · rw [hnone]
    rfl

/-- A directory that was emptied and then found to be removed is the one that was found before. -/
theorem removeDirectory_cut {cleared : FileTree} (hground : Grounded t directory)
    (hcut : Cut t place cleared)
    (hfind : t.find directory .entry path = .ok (place, sub))
    (h : cleared.removeDirectory directory path = .ok t') :
    Cut t place t' ∧ t'.get? place = none ∧ LeadsNowhere t' directory path := by
  have hroot := hground.isDirectory
  obtain ⟨-, hleads⟩ := (find_eq_ok_iff hroot).mp hfind
  obtain ⟨found, last, slashed, hlocate, hlast, hdirectory, -, rfl⟩ := exists_of_removeDirectory h
  obtain ⟨-, hcleared⟩ :=
    (locate_eq_present_iff (hcut.remains.isDirectory.trans hroot)).mp hlocate
  obtain ⟨hplace, hget⟩ := hcleared.get?_of_name hlast
  obtain ⟨old, hold, holdDirectory⟩ :
      ∃ old, Leads t directory (withoutEndSlashes path) found old ∧ old.isDirectory = true := by
    rcases hcleared.of_remains hcut.remains hroot hcut.listed (.inl rfl) with
      hdenied | ⟨other, old, hold, hsame, rfl | hmissing⟩
    · obtain ⟨other, last, hbare⟩ := hleads.exists_withoutEndSlashes
      rw [(leads_iff hroot).mp hbare] at hdenied
      cases hdenied
    · exact ⟨old, hold, hsame.trans hdirectory⟩
    · rw [hmissing] at hget
      cases hget
  obtain rfl : found = place := by
    rcases hleads.withoutEndSlashes with hbare | ⟨other, target, hbare⟩
    · exact (leads_unique hroot hbare hold).1
    · obtain ⟨-, rfl⟩ := leads_unique hroot hbare hold
      cases holdDirectory
  have hnone := get?_remove hplace hget
  have hremoved := hcut.trans (Cut.remove hcut.listed found)
  exact ⟨hremoved, hnone,
    (leadsNowhere_of_get? hroot hremoved.remains hlast hold hnone).of_withoutEndSlashes⟩

section Files

variable {permissions : Permissions} {contents : ByteArray} (hplace : place ≠ [])
  (hfile : t.get? place = some (.file permissions contents))
include hplace hfile

/-- Removing a directory, which must be empty, takes no file away. -/
theorem file_of_removeDirectory (h : t.removeDirectory directory path = .ok t') :
    t'.get? place = some (.file permissions contents) := by
  obtain ⟨found, sub, slashed, hlocate, hlast, hdirectory, hempty, rfl⟩ :=
    exists_of_removeDirectory h
  obtain ⟨-, hleads⟩ := (locate_eq_present_iff (isDirectory_of_below hplace hfile)).mp hlocate
  obtain ⟨-, hget⟩ := hleads.get?_of_name hlast
  have hbeside : ¬ found <+: place := by
    rintro ⟨below, rfl⟩
    rw [get?_append, hget, Option.bind_some] at hfile
    cases below with
    | nil =>
      cases hfile
      cases hdirectory
    | cons first others =>
      rw [get?, hempty] at hfile
      cases hfile
  rw [← node?_eq_file_iff] at hfile ⊢
  exact (node?_alter hbeside t _).trans hfile

/-- Removing a tree takes no file away that is not below the place to which its path leads. -/
theorem file_of_removeTree {above : Place} (hfind : t.find directory .entry path = .ok (above, sub))
    (habove : ¬ above <+: place) :
    (t.removeTree directory path).1.get? place = some (.file permissions contents) := by
  unfold removeTree
  rw [hfind]
  simp only
  split
  · exact hfile
  have hcleared : (t.alter above (Option.map fun _ => (emptied sub).1)).get? place =
      some (.file permissions contents) := by
    rw [← node?_eq_file_iff] at hfile ⊢
    exact (node?_alter habove t _).trans hfile
  split
  · exact hcleared
  · split
    · next removed hremoved => exact file_of_removeDirectory hplace hcleared hremoved
    · exact hcleared
    · exact hcleared

end Files

section Removing

variable (hlisted : Listed t) (hground : Grounded t directory)
include hlisted hground

/-- Removing a file takes it away, and its path leads nowhere from then on. -/
theorem removeFile_cut (hfind : t.find directory .entry path = .ok (place, sub))
    (h : t.removeFile directory path = .ok t') :
    Cut t place t' ∧ t'.get? place = none ∧ LeadsNowhere t' directory path := by
  have hroot := hground.isDirectory
  obtain ⟨hlocate, hlast, rfl⟩ := of_removeFile hfind h
  obtain ⟨-, hbare⟩ := (locate_eq_present_iff hroot).mp hlocate
  obtain ⟨hplace, hget⟩ := hbare.get?_of_name hlast
  have hnone := get?_remove hplace hget
  have hcut := Cut.remove hlisted place
  exact ⟨hcut, hnone,
    (leadsNowhere_of_get? hroot hcut.remains hlast hbare hnone).of_withoutEndSlashes⟩

/-- Removing a tree takes away nothing beside it. If it succeeds, everything below its root is gone
and its path leads nowhere from then on. The root itself stays if its path leads through what was
below it. -/
theorem removeTree_cut {result : Except Cause Unit}
    (hfind : t.find directory .entry path = .ok (place, sub))
    (h : t.removeTree directory path = (t', result)) :
    Cut t place t' ∧ (result = .ok () → Swept t' place ∧ LeadsNowhere t' directory path ∧
      (t'.get? place = none ∨ t' = t.alter place (Option.map shallow))) := by
  have hroot := hground.isDirectory
  obtain ⟨hrefusal, hleads⟩ := (find_eq_ok_iff hroot).mp hfind
  have hfound := Reaches.get?_cases hleads (hground.origin path)
  have hcut := Cut.emptied hlisted hfound
  unfold removeTree at h
  rw [hfind] at h
  simp only at h
  split at h
  · cases h
    exact ⟨.refl hlisted place, nofun⟩
  next hfile =>
  have hdirectory : sub.isDirectory = true := by simpa using hfile
  cases hresult : (emptied sub).2 with
  | error cause =>
    rw [hresult] at h
    cases h
    exact ⟨hcut, nofun⟩
  | ok =>
    rw [hresult] at h
    simp only at h
    split at h
    · next removed hempty =>
      cases h
      obtain ⟨hremoved, hnone, hnowhere⟩ := removeDirectory_cut hground hcut hfind hempty
      exact ⟨hremoved, fun _ => ⟨swept_of_get?_eq_none hnone, hnowhere, .inl hnone⟩⟩
    · next hmissing =>
      cases h
      have hthere := hfound.imp_right And.left
      have hbare := endsNowhere_of_removeDirectory (text_ne_empty_of_refusal? hrefusal) hmissing
      have hnowhere := (leadsNowhere_of_follow (hcut.remains.isDirectory.trans hroot)
        hbare).of_withoutEndSlashes
      rw [alter_emptied hdirectory hresult hthere] at hcut hnowhere ⊢
      exact ⟨hcut, fun _ => ⟨swept_alter_shallow hthere hdirectory, hnowhere, .inr rfl⟩⟩
    · cases h
      exact ⟨hcut, nofun⟩

end Removing

end BridgingHeader.FileTree
