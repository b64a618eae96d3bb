import BridgingHeader.Proofs.FileTree.Placement
import BridgingHeader.Proofs.FileTree.Remains

/-!
# Where paths head

A path heads for one place at most, whether anything is there or not. Making and removing entries
changes this only if it brings in a link, or takes away one that is followed on the way. A path that
goes on with names heads below where it headed before, as long as there are no links.
-/

namespace BridgingHeader.FileTree

variable {t t' sub : FileTree} {links : Nat} {place : Place} {heading other : Heading}
  {front rest blanks more : List String}

/-- Segments head for one place only. -/
theorem Heads.unique (h : Heads t links place rest heading) (h' : Heads t links place rest other) :
    other = heading := by
  induction h generalizing other with
  | done =>
    cases h'
    rfl
  | move hsegment go ih =>
    cases h' with
    | move _ go' => exact ih go'
    | enter hname => exact absurd hname hsegment
    | follow hname => exact absurd hname hsegment
  | enter hname hfree go ih =>
    cases h' with
    | move hsegment => exact absurd hname hsegment
    | enter _ _ go' => exact ih go'
    | follow _ hlink hrest => exact absurd hlink (hfree.resolve_left hrest _)
  | follow hname hlink hrest go ih =>
    cases h' with
    | move hsegment => exact absurd hname hsegment
    | enter _ hfree => exact absurd hlink (hfree.resolve_left hrest _)
    | follow _ hlink' _ go' =>
      rw [hlink] at hlink'
      cases hlink'
      rw [ih go']

/-- Segments head for the same place in another tree that has no more links and still has those that
are followed. -/
theorem Heads.congr (h : Heads t links place rest heading)
    (hnew : ∀ place target, t'.get? place = some (.link target) →
      t.get? place = some (.link target))
    (hkept : ∀ link ∈ heading.followed, ∀ target, t.get? link = some (.link target) →
      t'.get? link = some (.link target)) : Heads t' links place rest heading := by
  induction h with
  | done => exact .done
  | move hsegment go ih => exact .move hsegment (ih hkept)
  | enter hname hfree go ih =>
    exact .enter hname (hfree.imp_right fun hfree target => mt (hnew _ _) (hfree target)) (ih hkept)
  | follow hname hlink hrest go ih =>
    exact .follow hname (hkept _ List.mem_cons_self _ hlink) hrest
      (ih fun link hmem => hkept link (List.mem_cons_of_mem _ hmem))

/-- From a directory that was removed segments head for where they head from the place where it
stood, unless they do not leave it. -/
theorem Heads.of_removed {parent below : Place} {name : String}
    (hgone : ∀ rest target, rest ≠ [] → t.get? (parent ++ name :: rest) ≠ some (.link target))
    (hblank : ∀ place, "" ∈ place → t.get? place = none)
    (h : Heads t links (parent ++ "" :: below) rest heading) :
    Heads t links (parent ++ name :: below) rest heading ∨ "" ∈ heading.place := by
  generalize hplace : parent ++ "" :: below = place at h
  induction h generalizing below with
  | done =>
    subst hplace
    exact .inr (by simp)
  | @move links place segment rest heading hsegment go ih =>
    subst hplace
    have hstep : (∃ below', ∀ name : String,
        stepFrom (parent ++ name :: below) segment = parent ++ name :: below') ∨
        ∃ place, ∀ name : String, stepFrom (parent ++ name :: below) segment = place :=
      placeAfter_cases parent below [segment]
    rcases hstep with ⟨below', hstep⟩ | ⟨left, hstep⟩
    · refine (ih (hstep "").symm).imp_left fun hgo => .move hsegment ?_
      rwa [hstep]
    · refine .inl (.move hsegment ?_)
      rwa [hstep, ← hstep ""]
  | @enter links place segment rest heading hname hfree go ih =>
    subst hplace
    have hwhere : parent ++ "" :: (below ++ [segment]) = (parent ++ "" :: below) ++ [segment] := by
      simp
    refine (ih hwhere).imp_left fun hgo => .enter hname ?_ ?_
    · refine .inr fun target => ?_
      rw [List.append_assoc]
      exact hgone _ target (by simp)
    · rwa [List.append_assoc]
  | follow hname hlink =>
    subst hplace
    rw [hblank _ (by simp)] at hlink
    cases hlink

/-- Two trees have the same links. -/
def SameLinks (t t' : FileTree) : Prop :=
  ∀ place target, t'.get? place = some (.link target) ↔ t.get? place = some (.link target)

/-- A leaf that is put where one stood before changes no links, if neither is one. -/
theorem sameLinks_set (hset : t.Settable place) (hplace : place ≠ []) (hleaf : t.IsLeaf place)
    (hsub : sub.children = []) (hold : ∀ target, t.get? place ≠ some (.link target))
    (hnew : ∀ target, sub ≠ .link target) : SameLinks t (t.set place sub) := by
  intro other target
  by_cases hother : other = place
  · subst hother
    rw [get?_set_self hset hplace]
    exact iff_of_false (fun h => hnew target (Option.some.inj h)) (hold target)
  · rw [← node?_eq_link_iff, ← node?_eq_link_iff, node?_set_of_ne hset hplace hleaf hsub hother]

theorem Heads.of_sameLinks (h : Heads t' links place rest heading) (hlinks : SameLinks t t') :
    Heads t links place rest heading :=
  h.congr (fun place target => (hlinks place target).mpr) fun link _ target => (hlinks link target).mp

/-! ### Going on behind a path -/

/-- No link stands at a place or below it. -/
def LinkFree (t : FileTree) (place : Place) : Prop :=
  ∀ below target, t.get? (place ++ below) ≠ some (.link target)

theorem LinkFree.append (h : LinkFree t place) (below : Place) : LinkFree t (place ++ below) := by
  intro rest target
  rw [List.append_assoc]
  exact h _ target

/-- No links are below a place where everything has been swept away. -/
theorem Swept.linkFree (h : Swept t place) : LinkFree t place := by
  intro below target hlink
  by_cases hbelow : below = []
  · rw [hbelow, List.append_nil] at hlink
    cases h.root _ hlink
  · rw [h.below below hbelow] at hlink
    cases hlink

theorem not_isName_empty : ¬ IsName "" := fun h => h.ne_empty rfl

/-- Where there are no links, names and blank segments head for what they tell. -/
theorem LinkFree.heads (h : LinkFree t place) (hmore : ∀ segment ∈ more, segment = "" ∨ IsName segment)
    (links : Nat) : Heads t links place more ⟨placeAfter place more, []⟩ := by
  induction more generalizing place with
  | nil => exact .done
  | cons segment rest ih =>
    have hrest := fun s hs => hmore s (List.mem_cons_of_mem segment hs)
    rcases hmore segment List.mem_cons_self with rfl | hname
    · exact .move not_isName_empty (ih h hrest)
    · rw [placeAfter_cons, hname.stepFrom_eq]
      exact .enter hname (.inr (h [segment])) (ih (h.append [segment]) hrest)

section Blanks

variable (hblanks : ∀ segment ∈ blanks, segment = "")
include hblanks

theorem heads_blanks (t : FileTree) (links : Nat) (place : Place) :
    Heads t links place blanks ⟨place, []⟩ := by
  induction blanks with
  | nil => exact .done
  | cons blank rest ih =>
    have hblank := hblanks blank List.mem_cons_self
    refine .move (hblank ▸ not_isName_empty) ?_
    rw [stepFrom, if_pos (.inl hblank)]
    exact ih fun segment hsegment => hblanks segment (List.mem_cons_of_mem _ hsegment)

/-- Names that follow a path without links behind it head below where that heads. -/
theorem Heads.append (h : Heads t links place (front ++ blanks) heading)
    (hfree : LinkFree t heading.place) (hne : more ≠ [])
    (hmore : ∀ segment ∈ more, segment = "" ∨ IsName segment) :
    Heads t links place (front ++ more) ⟨placeAfter heading.place more, heading.followed⟩ := by
  generalize hsegments : front ++ blanks = whole at h
  have hhead : ∀ {segment rest}, blanks = segment :: rest → ¬ IsName segment := fun hcons =>
    hblanks _ (hcons ▸ List.mem_cons_self) ▸ not_isName_empty
  have hbehind : ∀ {links place heading}, Heads t links place blanks heading →
      LinkFree t heading.place →
      Heads t links place more ⟨placeAfter heading.place more, heading.followed⟩ := by
    intro links place heading h hfree
    cases h.unique (heads_blanks hblanks t links place)
    exact hfree.heads hmore links
  induction h generalizing front with
  | done =>
    obtain ⟨rfl, -⟩ := List.append_eq_nil_iff.mp hsegments
    exact hfree.heads hmore _
  | move hsegment go ih =>
    rcases List.append_eq_cons_iff.mp hsegments with ⟨rfl, hcons⟩ | ⟨front, rfl, hrest⟩
    · exact hbehind (hcons ▸ .move hsegment go) hfree
    · exact .move hsegment (ih hfree hrest.symm)
  | enter hname hnolink go ih =>
    rcases List.append_eq_cons_iff.mp hsegments with ⟨rfl, hcons⟩ | ⟨front, rfl, hrest⟩
    · exact absurd hname (hhead hcons)
    · refine .enter hname (.inr fun target hlink => ?_) (ih hfree hrest.symm)
      rcases hnolink with rfl | hnolink
      · cases go
        exact hfree [] target (by rwa [List.append_nil])
      · exact hnolink target hlink
  | @follow links place name rest target heading hname hlink hrest go ih =>
    rcases List.append_eq_cons_iff.mp hsegments with ⟨rfl, hcons⟩ | ⟨front, rfl, hfront⟩
    · exact absurd hname (hhead hcons)
    · have happend : (segments target.text ++ front) ++ blanks = segments target.text ++ rest := by
        rw [List.append_assoc, hfront]
      have hgo := ih hfree happend
      rw [List.append_assoc] at hgo
      exact .follow hname hlink (by simp [hne]) hgo

/-- A path heads somewhere if it does so with something behind it. -/
theorem Heads.exists_of_append (h : Heads t links place (front ++ more) heading) (hne : more ≠ []) :
    ∃ last, Heads t links place (front ++ blanks) last := by
  generalize hsegments : front ++ more = whole at h
  induction h generalizing front with
  | done => exact absurd (List.append_eq_nil_iff.mp hsegments).2 hne
  | move hsegment go ih =>
    rcases List.append_eq_cons_iff.mp hsegments with ⟨rfl, -⟩ | ⟨front, rfl, hrest⟩
    · exact ⟨_, heads_blanks hblanks t _ _⟩
    · obtain ⟨last, hlast⟩ := ih hrest.symm
      exact ⟨last, .move hsegment hlast⟩
  | enter hname hfree go ih =>
    rcases List.append_eq_cons_iff.mp hsegments with ⟨rfl, -⟩ | ⟨front, rfl, hrest⟩
    · exact ⟨_, heads_blanks hblanks t _ _⟩
    · obtain ⟨last, hlast⟩ := ih hrest.symm
      have hmore : front ++ more ≠ [] := by simp [hne]
      exact ⟨last, .enter hname (.inr (hfree.resolve_left (hrest ▸ hmore))) hlast⟩
  | @follow links place name rest target heading hname hlink hrest go ih =>
    rcases List.append_eq_cons_iff.mp hsegments with ⟨rfl, -⟩ | ⟨front, rfl, hfront⟩
    · exact ⟨_, heads_blanks hblanks t _ _⟩
    · by_cases hend : front ++ blanks = []
      · rw [List.cons_append, hend]
        exact ⟨_, .enter hname (.inl rfl) .done⟩
      · have happend : (segments target.text ++ front) ++ more = segments target.text ++ rest := by
          rw [List.append_assoc, hfront]
        obtain ⟨last, hlast⟩ := ih happend
        rw [List.append_assoc] at hlast
        exact ⟨_, .follow hname hlink hend hlast⟩

end Blanks

/-! ### Paths -/

/-- A path heads for a place from a working directory. -/
def HeadsFor (t : FileTree) (directory : Place) (path : Path) (heading : Heading) : Prop :=
  Heads t linkLimit (origin directory path) (segments path.text) heading

section Paths

variable {directory : Place} {aim : Aim} {path : Path} {spot : Spot} {names : List String}

theorem exists_headsFor_of_resolve (h : t.resolve directory aim path = .ok spot) :
    ∃ heading, HeadsFor t directory path heading := by
  obtain ⟨heading, -, hheads, -⟩ := arrives_of_resolve h
  exact ⟨heading, hheads⟩

/-- What a path leads to stands where it heads. -/
theorem exists_headsFor_of_find (h : t.find directory .entry path = .ok (place, sub)) :
    ∃ followed, HeadsFor t directory path ⟨place, followed⟩ := by
  obtain ⟨spot, hspot, hpresent⟩ := bind_eq_ok_iff.mp h
  split at hpresent <;> cases hpresent
  obtain ⟨heading, found, hheads, ⟨rfl, -⟩, rfl | ⟨haim, -⟩⟩ := arrives_of_resolve hspot
  · exact ⟨heading.followed, hheads⟩
  · exact absurd rfl haim

/-- Without links at its end a path leads where it heads. -/
theorem HeadsFor.fits (h : HeadsFor t directory path heading) (hfree : LinkFree t heading.place)
    (hspot : t.resolve directory aim path = .ok spot) : spot.Fits t heading.place := by
  obtain ⟨other, found, hheads, hfits, hend⟩ := arrives_of_resolve hspot
  cases h.unique hheads
  rcases hend with rfl | ⟨-, target, hlink⟩
  · exact hfits
  · exact absurd hlink (by simpa using hfree [] target)

/-- A path heads for the same place when the working directory is gone, unless it does not leave
it. -/
theorem HeadsFor.of_removedPlace (hdirectory : directory ≠ [])
    (hgone : t.isDirectoryAt directory = false) (hblank : ∀ place, "" ∈ place → t.get? place = none)
    (h : HeadsFor t (removedPlace directory) path heading) :
    HeadsFor t directory path heading ∨ "" ∈ heading.place := by
  obtain ⟨parent, name, rfl⟩ := (List.eq_nil_or_concat' directory).resolve_left hdirectory
  rw [HeadsFor, origin] at h
  rw [HeadsFor, origin]
  split at h
  · next habsolute =>
    rw [if_pos habsolute]
    exact .inl h
  · next habsolute =>
    rw [if_neg habsolute]
    rw [removedPlace, List.dropLast_concat] at h
    refine Heads.of_removed (fun rest target hrest hlink => ?_) hblank h
    obtain ⟨first, rest, rfl⟩ := List.exists_cons_of_ne_nil hrest
    have hbelow : t.get? ((parent ++ [name]) ++ first :: rest) = some (.link target) := by
      rwa [List.append_assoc, List.singleton_append]
    obtain ⟨permissions, items, -, hthere, -⟩ := exists_directory_of_get? hbelow
    rw [isDirectoryAt, hthere] at hgone
    cases hgone

section Names

variable (hnames : ∀ name ∈ names, IsName name)
include hnames

/-- Names that follow a path without links at its end head below where that heads. -/
theorem HeadsFor.join (h : HeadsFor t directory path heading) (hfree : LinkFree t heading.place) :
    HeadsFor t directory (path.join (relative names))
      ⟨heading.place ++ names, heading.followed⟩ := by
  have hrelative := isAbsolute_relative hnames
  obtain ⟨front, blanks, hblanks, hpath, hjoin⟩ := exists_segments_join_relative path hrelative
  have hsteps := steps_relative hnames
  have hmore : ∀ segment ∈ segments (relative names).text, segment = "" ∨ IsName segment := by
    intro segment hsegment
    by_cases hempty : segment = ""
    · exact .inl hempty
    · refine .inr (hnames segment ?_)
      rw [← hsteps, steps]
      exact List.mem_filter.mpr ⟨hsegment, by simpa using hempty⟩
  have hplace : placeAfter heading.place (segments (relative names).text) =
      heading.place ++ names := by
    have hfilter : (segments (relative names).text).filter (· ≠ "") = names := hsteps
    rw [← placeAfter_filter, hfilter, placeAfter_names _ hnames]
  rw [HeadsFor, hpath] at h
  rw [HeadsFor, origin, isAbsolute_join path hrelative, hjoin, ← hplace]
  exact Heads.append hblanks h hfree (by simp [segments, Text.pieces_ne_nil]) hmore

theorem HeadsFor.exists_of_join (h : HeadsFor t directory (path.join (relative names)) heading) :
    ∃ other, HeadsFor t directory path other := by
  have hrelative := isAbsolute_relative hnames
  obtain ⟨front, blanks, hblanks, hpath, hjoin⟩ := exists_segments_join_relative path hrelative
  rw [HeadsFor, origin, isAbsolute_join path hrelative, hjoin] at h
  simp only [HeadsFor, hpath]
  exact Heads.exists_of_append hblanks h (by simp [segments, Text.pieces_ne_nil])

end Names

end Paths

end BridgingHeader.FileTree
