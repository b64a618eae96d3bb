import BridgingHeader.Proofs.FileTree.Entries
import BridgingHeader.Proofs.Outcomes

/-!
# Where paths lead

Without links the place to which a path leads is told by its text alone: a name goes down, `..` goes
up, and nothing else moves. What the tree decides is whether the way can be walked to its end.
-/

namespace BridgingHeader.FileTree

/-! ### Places told by texts -/

/-- The place after one segment. -/
def stepFrom (place : Place) (segment : String) : Place :=
  if segment = "" ∨ segment = "." then place
  else if segment = ".." then place.dropLast
  else place ++ [segment]

/-- The place to which segments lead. -/
def placeAfter (place : Place) (segments : List String) : Place := segments.foldl stepFrom place

/-- The place at which a path starts. -/
def origin (directory : Place) (path : Path) : Place := if path.isAbsolute then [] else directory

/-- The place to which a path leads from a working directory, as its text tells. -/
def placeOf (directory : Place) (path : Path) : Place :=
  placeAfter (origin directory path) (steps path)

theorem IsName.stepFrom_eq {name : String} (h : IsName name) (place : Place) :
    stepFrom place name = place ++ [name] := by
  rw [stepFrom, if_neg (not_or.mpr ⟨h.ne_empty, h.ne_current⟩), if_neg h.ne_up]

@[simp] theorem placeAfter_nil (place : Place) : placeAfter place [] = place := rfl

@[simp] theorem placeAfter_cons (place : Place) (segment : String) (rest : List String) :
    placeAfter place (segment :: rest) = placeAfter (stepFrom place segment) rest := rfl

theorem placeAfter_append (place : Place) (front rest : List String) :
    placeAfter place (front ++ rest) = placeAfter (placeAfter place front) rest :=
  List.foldl_append

theorem placeAfter_names (place : Place) {names : List String} (h : ∀ name ∈ names, IsName name) :
    placeAfter place names = place ++ names := by
  induction names generalizing place with
  | nil => simp
  | cons name rest ih =>
    rw [placeAfter_cons, (h name List.mem_cons_self).stepFrom_eq,
      ih _ fun n hn => h n (List.mem_cons_of_mem _ hn), List.append_assoc, List.singleton_append]

/-- Empty segments lead nowhere. -/
theorem placeAfter_filter (place : Place) (segments : List String) :
    placeAfter place (segments.filter (· ≠ "")) = placeAfter place segments := by
  induction segments generalizing place with
  | nil => rfl
  | cons segment rest ih =>
    by_cases h : segment = ""
    · rw [List.filter_cons_of_neg (by simpa using h), ih, placeAfter_cons, stepFrom,
        if_pos (.inl h)]
    · rw [List.filter_cons_of_pos (by simpa using h), placeAfter_cons, placeAfter_cons, ih]

theorem placeOf_join (directory : Place) (base : Path) {names : List String}
    (h : ∀ name ∈ names, IsName name) :
    placeOf directory (base.join (relative names)) = placeOf directory base ++ names := by
  have hrelative := isAbsolute_relative h
  rw [placeOf, origin, isAbsolute_join base hrelative, steps_join base hrelative,
    steps_relative h, placeAfter_append, placeAfter_names _ h]
  rfl

theorem placeOf_join_name (directory : Place) (base : Path) {name : String} (h : IsName name) :
    placeOf directory (base.join ⟨name⟩) = placeOf directory base ++ [name] := by
  rw [placeOf, origin, isAbsolute_join base h.isAbsolute_eq, steps_join base h.isAbsolute_eq,
    h.steps_eq, placeAfter_append, placeAfter_cons, placeAfter_nil, h.stepFrom_eq]
  rfl

/-- Segments that stay lead nowhere. -/
theorem placeAfter_current (place : Place) {dots : List String}
    (h : ∀ segment ∈ dots, segment = ".") : placeAfter place dots = place := by
  induction dots with
  | nil => rfl
  | cons segment rest ih =>
    rw [placeAfter_cons, stepFrom, if_pos (.inr (h segment List.mem_cons_self))]
    exact ih fun s hs => h s (List.mem_cons_of_mem _ hs)

/-- A path with a file name leads below where its parent leads. -/
theorem placeOf_of_fileName? (directory : Place) {path base : Path} {name : String}
    (hname : path.fileName? = some name) (hbase : path.parent? = some base) :
    placeOf directory path = placeOf directory base ++ [name] := by
  obtain ⟨hisName, base', hbase', habsolute, before, after, hdots, hsteps⟩ :=
    Path.exists_parent?_of_fileName? hname
  obtain rfl : base' = base := Option.some.inj (hbase'.symm.trans hbase)
  rw [placeOf, placeOf, origin, origin, habsolute, hsteps, placeAfter_append, placeAfter_append,
    placeAfter_current _ fun s hs => hdots s (List.mem_append_left _ hs), placeAfter_cons,
    hisName.stepFrom_eq, placeAfter_current _ fun s hs => hdots s (List.mem_append_right _ hs)]

/-- Segments that are followed from below a name lead below that name, or it does not matter what
the name is. -/
theorem placeAfter_cases (parent below : Place) (segments : List String) :
    (∃ below', ∀ name, placeAfter (parent ++ name :: below) segments = parent ++ name :: below') ∨
      ∃ place, ∀ name, placeAfter (parent ++ name :: below) segments = place := by
  induction segments generalizing below with
  | nil => exact .inl ⟨below, fun _ => rfl⟩
  | cons segment rest ih =>
    simp only [placeAfter_cons, stepFrom]
    split
    · exact ih below
    split
    · rcases List.eq_nil_or_concat' below with rfl | ⟨init, last, rfl⟩
      · exact .inr ⟨placeAfter parent rest, fun name => by rw [List.dropLast_concat]⟩
      · have hdrop : ∀ name : String, (parent ++ name :: (init ++ [last])).dropLast =
            parent ++ name :: init := fun name => by
          rw [← List.cons_append, ← List.append_assoc, List.dropLast_concat]
        simp only [hdrop]
        exact ih init
    · simp only [List.append_assoc, List.cons_append]
      exact ih _

/-- A path leads to a directory that was removed, or below it, or to where it led before. -/
theorem placeOf_removedPlace_cases {directory : Place} (hdirectory : directory ≠ [])
    (path : Path) :
    directory <+: placeOf directory path ∧ "" ∈ placeOf (removedPlace directory) path ∨
      placeOf (removedPlace directory) path = placeOf directory path := by
  obtain ⟨parent, name, rfl⟩ := (List.eq_nil_or_concat' directory).resolve_left hdirectory
  rw [removedPlace, List.dropLast_concat, placeOf, placeOf, origin, origin]
  split
  · exact .inr rfl
  · rcases placeAfter_cases parent [] (steps path) with ⟨below, hbelow⟩ | ⟨place, hplace⟩
    · left
      rw [hbelow, hbelow]
      exact ⟨⟨below, by rw [List.append_assoc, List.singleton_append]⟩, by simp⟩
    · right
      rw [hplace, hplace]

/-! ### Walking -/

theorem no_slash_of_mem_segments {text segment : String} (h : segment ∈ segments text) :
    '/' ∉ segment.toList := by
  obtain ⟨piece, hpiece, rfl⟩ := List.mem_map.mp h
  rw [String.toList_ofList]
  exact Text.not_mem_of_mem_pieces hpiece

/-- What a walk tells about the place where it ends. -/
def Spot.Fits (t : FileTree) (place : Place) : Spot → Prop
  | .present found sub => found = place ∧ (t.get? place = some sub ∨
      sub = empty ∧ t.isDirectoryAt place = false)
  | .vacant found => found = place ∧ t.get? place = none ∧ ∃ parent name permissions items,
      place = parent ++ [name] ∧ IsName name ∧ permissions.executable = true ∧
        t.get? parent = some (.directory permissions items)

theorem Stand.parent_ofPlace (t : FileTree) (place : Place) :
    (Stand.ofPlace t place).parent t = .ofPlace t place.dropLast := by
  have htail : (Stand.ofPlace t place).trail.tail.reverse = place.dropLast := by
    simp [Stand.ofPlace]
  rw [Stand.parent, htail]

theorem Stand.place_ofPlace (t : FileTree) (place : Place) :
    (Stand.ofPlace t place).place = place := List.reverse_reverse place

theorem Stand.here_ofPlace (t : FileTree) (place : Place) :
    (Stand.ofPlace t place).here = (t.get? place).filter isDirectory := rfl

/-- A walk stands in a directory of the tree, or nowhere. -/
theorem Stand.here_cases (t : FileTree) (place : Place) :
    ((Stand.ofPlace t place).here = none ∧ t.isDirectoryAt place = false) ∨
    ∃ permissions items, (Stand.ofPlace t place).here = some (.directory permissions items) ∧
      t.get? place = some (.directory permissions items) := by
  rw [Stand.here_ofPlace, isDirectoryAt]
  cases hget : t.get? place with
  | none => exact .inl ⟨rfl, rfl⟩
  | some sub =>
    cases sub with
    | directory permissions items => exact .inr ⟨permissions, items, rfl, rfl⟩
    | file permissions contents => exact .inl ⟨rfl, rfl⟩
    | link target => exact .inl ⟨rfl, rfl⟩

theorem Stand.child_ofPlace {t here : FileTree} {place : Place} {name : String}
    {permissions : Permissions} {items : List (String × FileTree)}
    (hget : t.get? place = some here)
    (hchild : here.children.lookup name = some (.directory permissions items)) :
    (Stand.ofPlace t place).child name (.directory permissions items) =
      .ofPlace t (place ++ [name]) := by
  rw [Stand.child, Stand.ofPlace, Stand.ofPlace, get?_concat, hget, List.reverse_concat,
    Option.bind_some, hchild]
  rfl

/-! ### Headings -/

/-- Where segments head, and where the links stand that are followed on the way. -/
structure Heading where
  place : Place
  followed : List Place

/-- Segments head for a place: links are followed, and everything else on the way is passed by its
name, whether it is there or not. A link at the end is not followed. -/
inductive Heads (t : FileTree) : (links : Nat) → Place → List String → Heading → Prop
  | done {links : Nat} {place : Place} : Heads t links place [] ⟨place, []⟩
  | move {links : Nat} {place : Place} {segment : String} {rest : List String} {heading : Heading}
    (hsegment : ¬ IsName segment) (go : Heads t links (stepFrom place segment) rest heading) :
    Heads t links place (segment :: rest) heading
  | enter {links : Nat} {place : Place} {name : String} {rest : List String} {heading : Heading}
    (hname : IsName name)
    (hfree : rest = [] ∨ ∀ target, t.get? (place ++ [name]) ≠ some (.link target))
    (go : Heads t links (place ++ [name]) rest heading) : Heads t links place (name :: rest) heading
  | follow {links : Nat} {place : Place} {name : String} {rest : List String} {target : Path}
    {heading : Heading} (hname : IsName name)
    (hlink : t.get? (place ++ [name]) = some (.link target)) (hrest : rest ≠ [])
    (go : Heads t links (origin place target) (segments target.text ++ rest) heading) :
    Heads t (links + 1) place (name :: rest) ⟨heading.place, (place ++ [name]) :: heading.followed⟩

/-- Without links segments head for the place that they tell. -/
theorem Heads.eq_of_plain {t : FileTree} (hplain : Plain t) {links : Nat} {place : Place}
    {segments : List String} {heading : Heading} (h : Heads t links place segments heading) :
    heading = ⟨placeAfter place segments, []⟩ := by
  induction h with
  | done => rfl
  | move hsegment go ih => rw [ih, placeAfter_cons]
  | enter hname hfree go ih => rw [ih, placeAfter_cons, hname.stepFrom_eq]
  | follow hname hlink => exact absurd hlink (hplain.get?_ne_link _ _)

/-- A walk ends at the place for which its segments head, or behind a link that stands there. -/
def Arrives (t : FileTree) (aim : Aim) (links : Nat) (place : Place) (segments : List String)
    (spot : Spot) : Prop :=
  ∃ heading found, Heads t links place segments heading ∧ spot.Fits t found ∧
    (found = heading.place ∨ aim ≠ .entry ∧ ∃ target, t.get? heading.place = some (.link target))

theorem isDirectory_of_get? {t : FileTree} {place : Place} {permissions : Permissions}
    {items : List (String × FileTree)} (h : t.get? place = some (.directory permissions items)) :
    t.isDirectory = true := by
  cases t with
  | directory permissions items => rfl
  | file permissions contents => cases place <;> cases h
  | link target => cases place <;> cases h

section Arriving

variable {t : FileTree} {aim : Aim} {visit : Stand → List String → Except Cause Spot} {links : Nat}
  {place : Place} {segment name : String} {rest : List String} {spot : Spot}

/-- A walk goes on from where a segment moves that is no name. -/
theorem walkSegments_of_move (hsegment : ¬ IsName segment) (hslash : '/' ∉ segment.toList)
    (h : walkSegments t aim visit (.ofPlace t place) (segment :: rest) = .ok spot) :
    walkSegments t aim visit (.ofPlace t (stepFrom place segment)) rest = .ok spot := by
  rw [walkSegments] at h
  rw [stepFrom]
  by_cases hempty : segment = ""
  · rw [if_pos hempty] at h
    rwa [if_pos (.inl hempty)]
  rw [if_neg hempty] at h
  split at h
  · cases h
  by_cases hcurrent : segment = "."
  · rw [if_pos hcurrent] at h
    rwa [if_pos (.inr hcurrent)]
  rw [if_neg hcurrent] at h
  by_cases hup : segment = ".."
  · rw [if_pos hup, Stand.parent_ofPlace] at h
    rwa [if_neg (not_or.mpr ⟨hempty, hcurrent⟩), if_pos hup]
  · exact absurd ⟨hempty, hcurrent, hup, hslash⟩ hsegment

/-- A walk that does not fail looks a name up in a directory. -/
theorem exists_directory_of_walkSegments (hname : IsName name)
    (h : walkSegments t aim visit (.ofPlace t place) (name :: rest) = .ok spot) :
    ∃ permissions items, t.get? place = some (.directory permissions items) ∧
      permissions.executable = true ∧
      (match items.lookup name with
        | some (.directory permissions items) =>
          walkSegments t aim visit
            ((Stand.ofPlace t place).child name (.directory permissions items)) rest
        | some (.link target) =>
          if rest = [] ∧ aim = Aim.entry then .ok (.present (place ++ [name]) (.link target))
          else visit (.ofPlace t (origin place target)) (segments target.text ++ rest)
        | some (.file permissions contents) =>
          if rest = [] then .ok (.present (place ++ [name]) (.file permissions contents))
          else .error .notDirectory
        | none => if rest = [] then .ok (.vacant (place ++ [name])) else .error .noEntry) =
          .ok spot := by
  rw [walkSegments, if_neg hname.ne_empty] at h
  split at h
  · cases h
  next hpassable =>
  rw [if_neg hname.ne_current, if_neg hname.ne_up] at h
  split at h
  · cases h
  rcases Stand.here_cases t place with ⟨hhere, -⟩ | ⟨permissions, items, hhere, hget⟩
  · rw [hhere] at h
    cases h
  rw [hhere] at h
  simp only [children, Stand.place_ofPlace] at h
  split at h
  · cases h
  refine ⟨permissions, items, hget, ?_, ?_⟩
  · simpa [Stand.isPassable, hhere, FileTree.permissions] using hpassable
  rw [← h]
  have hstart : ∀ target : Path, (if target.isAbsolute = true then ⟨[], some t⟩
      else Stand.ofPlace t place) = .ofPlace t (origin place target) := by
    intro target
    rw [origin]
    split
    · rw [Stand.ofPlace, FileTree.get?, Option.filter_some_pos (isDirectory_of_get? hget)]
      rfl
    · rfl
  rcases items.lookup name with _ | (_ | _ | _) <;> simp only [hstart]

variable (hvisit : ∀ place segments spot, (∀ segment ∈ segments, '/' ∉ segment.toList) →
  visit (.ofPlace t place) segments = .ok spot →
    ∃ fewer, links = fewer + 1 ∧ Arrives t aim fewer place segments spot)
include hvisit

theorem arrives_of_name (hname : IsName name) (hrest : ∀ segment ∈ rest, '/' ∉ segment.toList)
    (ih : walkSegments t aim visit (.ofPlace t (place ++ [name])) rest = .ok spot →
      Arrives t aim links (place ++ [name]) rest spot)
    (h : walkSegments t aim visit (.ofPlace t place) (name :: rest) = .ok spot) :
    Arrives t aim links place (name :: rest) spot := by
  obtain ⟨permissions, items, hget, hexecutable, hfound⟩ := exists_directory_of_walkSegments hname h
  have hconcat : t.get? (place ++ [name]) = items.lookup name := by
    rw [get?_concat, hget]
    rfl
  -- At its end a path heads for what the name stands for, whatever that is.
  have hlast : ∀ found, spot.Fits t found → rest = [] →
      (found = place ++ [name] ∨ aim ≠ .entry ∧
        ∃ target, t.get? (place ++ [name]) = some (.link target)) →
      Arrives t aim links place (name :: rest) spot := by
    intro found hfits hnil hend
    subst hnil
    exact ⟨⟨place ++ [name], []⟩, found, .enter hname (.inl rfl) .done, hfits, hend⟩
  cases hchild : items.lookup name with
  | none =>
    rw [hchild] at hfound
    simp only at hfound
    split at hfound
    · next hnil =>
      cases hfound
      exact hlast _ ⟨rfl, hconcat.trans hchild, place, name, permissions, items, rfl, hname,
        hexecutable, hget⟩ hnil (.inl rfl)
    · cases hfound
  | some child =>
    rw [hchild] at hfound hconcat
    cases child with
    | directory childPermissions childItems =>
      simp only [Stand.child_ofPlace hget hchild] at hfound
      obtain ⟨heading, found, hheads, hend⟩ := ih hfound
      have hfree : ∀ target, t.get? (place ++ [name]) ≠ some (.link target) := by
        intro target hlink
        rw [hconcat] at hlink
        cases hlink
      exact ⟨heading, found, .enter hname (.inr hfree) hheads, hend⟩
    | file filePermissions contents =>
      simp only at hfound
      split at hfound
      · next hnil =>
        cases hfound
        exact hlast _ ⟨rfl, .inl hconcat⟩ hnil (.inl rfl)
      · cases hfound
    | link target =>
      simp only at hfound
      split at hfound
      · next hend =>
        cases hfound
        exact hlast _ ⟨rfl, .inl hconcat⟩ hend.1 (.inl rfl)
      · next hend =>
        have hslashes : ∀ s ∈ segments target.text ++ rest, '/' ∉ s.toList := fun s hs =>
          (List.mem_append.mp hs).elim no_slash_of_mem_segments (hrest s)
        obtain ⟨fewer, rfl, heading, found, hheads, hfits, hfound⟩ := hvisit _ _ _ hslashes hfound
        by_cases hnil : rest = []
        · exact hlast found hfits hnil (.inr ⟨fun haim => hend ⟨hnil, haim⟩, target, hconcat⟩)
        · exact ⟨_, found, .follow hname hconcat hnil hheads, hfits, hfound⟩

theorem arrives_of_walkSegments (hslash : ∀ segment ∈ rest, '/' ∉ segment.toList)
    (h : walkSegments t aim visit (.ofPlace t place) rest = .ok spot) :
    Arrives t aim links place rest spot := by
  induction rest generalizing place with
  | nil =>
    rw [walkSegments] at h
    cases h
    refine ⟨⟨place, []⟩, place, .done, ⟨Stand.place_ofPlace t place, ?_⟩, .inl rfl⟩
    rcases Stand.here_cases t place with ⟨hhere, hdirectory⟩ | ⟨permissions, items, hhere, hget⟩
    · exact .inr ⟨by rw [hhere]; rfl, hdirectory⟩
    · exact .inl (by rw [hhere, hget]; rfl)
  | cons segment rest ih =>
    have hrest : ∀ s ∈ rest, '/' ∉ s.toList := fun s hs => hslash s (List.mem_cons_of_mem _ hs)
    by_cases hsegment : IsName segment
    · exact arrives_of_name hvisit hsegment hrest (ih hrest) h
    · obtain ⟨heading, found, hheads, hend⟩ :=
        ih hrest (walkSegments_of_move hsegment (hslash segment List.mem_cons_self) h)
      exact ⟨heading, found, .move hsegment hheads, hend⟩

end Arriving

theorem arrives_of_walkLinks {t : FileTree} {aim : Aim} {links : Nat} {place : Place}
    {segments : List String} {spot : Spot} (hslash : ∀ segment ∈ segments, '/' ∉ segment.toList)
    (h : walkLinks t aim links (.ofPlace t place) segments = .ok spot) :
    Arrives t aim links place segments spot := by
  induction links generalizing place segments spot with
  | zero =>
    refine arrives_of_walkSegments (fun _ _ _ _ h => ?_) hslash h
    cases h
  | succ links ih =>
    exact arrives_of_walkSegments (fun _ _ _ hslash h => ⟨links, rfl, ih hslash h⟩) hslash h

/-! ### Resolving -/

theorem walkLinks_eq (t : FileTree) (aim : Aim) (links : Nat) :
    ∃ visit, walkLinks t aim links = walkSegments t aim visit := by
  cases links <;> exact ⟨_, rfl⟩

theorem arrives_of_follow {t : FileTree} {directory : Place} {aim : Aim} {path : Path} {spot : Spot}
    (h : t.follow directory aim path = .ok spot) :
    Arrives t aim linkLimit (origin directory path) (segments path.text) spot :=
  arrives_of_walkLinks (fun _ => no_slash_of_mem_segments) h

theorem arrives_of_resolve {t : FileTree} {directory : Place} {aim : Aim} {path : Path} {spot : Spot}
    (h : t.resolve directory aim path = .ok spot) :
    Arrives t aim linkLimit (origin directory path) (segments path.text) spot := by
  unfold resolve at h
  split at h
  · cases h
  · exact arrives_of_follow h

/-- A file to which a path leads stands there. -/
theorem get?_of_find_file {t : FileTree} {directory place : Place} {aim : Aim} {path : Path}
    {permissions : Permissions} {contents : ByteArray}
    (h : t.find directory aim path = .ok (place, .file permissions contents)) :
    t.get? place = some (.file permissions contents) := by
  obtain ⟨spot, hspot, hpresent⟩ := bind_eq_ok_iff.mp h
  split at hpresent <;> cases hpresent
  obtain ⟨_, _, -, ⟨rfl, hget | ⟨hempty, -⟩⟩, -⟩ := arrives_of_resolve hspot
  · exact hget
  · cases hempty

theorem exists_fits_of_locate {t : FileTree} {directory : Place} {path : Path} {spot : Spot}
    (h : t.locate directory path = .ok spot) : ∃ place, spot.Fits t place := by
  unfold locate at h
  split at h
  · cases h
  · obtain ⟨_, place, -, hfits, -⟩ := arrives_of_follow h
    exact ⟨place, hfits⟩

/-- Without links a walk ends at the place that the text of its path tells. -/
theorem fits_of_follow {t : FileTree} (hplain : Plain t) {directory : Place} {aim : Aim}
    {path : Path} {spot : Spot} (h : t.follow directory aim path = .ok spot) :
    spot.Fits t (placeOf directory path) := by
  obtain ⟨heading, found, hheads, hfits, hend⟩ := arrives_of_follow h
  rcases hend with rfl | ⟨-, target, hlink⟩
  · rw [hheads.eq_of_plain hplain] at hfits
    rwa [placeOf, steps, placeAfter_filter]
  · exact absurd hlink (hplain.get?_ne_link _ _)

theorem fits_of_resolve {t : FileTree} (hplain : Plain t) {directory : Place} {aim : Aim}
    {path : Path} {spot : Spot} (h : t.resolve directory aim path = .ok spot) :
    spot.Fits t (placeOf directory path) := by
  unfold resolve at h
  split at h
  · cases h
  · exact fits_of_follow hplain h

theorem fits_of_find {t sub : FileTree} (hplain : Plain t) {directory place : Place} {aim : Aim}
    {path : Path} (h : t.find directory aim path = .ok (place, sub)) :
    Spot.Fits t (placeOf directory path) (.present place sub) := by
  obtain ⟨spot, hspot, hfound⟩ := bind_eq_ok_iff.mp h
  have hfits := fits_of_resolve hplain hspot
  split at hfound <;> cases hfound
  exact hfits

/-- Slashes at the end of a path change nothing about where it leads. -/
theorem placeOf_withoutEndSlashes (directory : Place) (path : Path) :
    placeOf directory (withoutEndSlashes path) = placeOf directory path := by
  rw [placeOf, placeOf, origin, origin, steps_withoutEndSlashes, isAbsolute_withoutEndSlashes]

theorem fits_of_locate {t : FileTree} (hplain : Plain t) {directory : Place} {path : Path}
    {spot : Spot} (h : t.locate directory path = .ok spot) :
    spot.Fits t (placeOf directory path) := by
  unfold locate at h
  split at h
  · cases h
  · rw [← placeOf_withoutEndSlashes]
    exact fits_of_follow hplain h

end BridgingHeader.FileTree
