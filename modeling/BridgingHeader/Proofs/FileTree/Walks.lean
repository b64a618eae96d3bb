import BridgingHeader.Proofs.FileTree.Passage
import BridgingHeader.Proofs.Path.Endings

/-!
# Walks through links

A walk that ends at an entry is told step by step: a segment keeps the place, leads to the parent or
is looked up, and a link that is found on the way puts its own segments in front of the rest. What is
true of every such walk is proved by induction on its steps.
-/

namespace BridgingHeader.FileTree

variable {t : FileTree} {links : Nat} {place found : Place} {segment name : String}
  {rest : List String} {sub : FileTree}

/-! ### Looking up a name -/

/-- A name is found in the directory at a place. -/
structure Finds (t : FileTree) (place : Place) (name : String) (sub : FileTree) : Prop where
  ne_empty : name ≠ ""
  ne_current : name ≠ "."
  ne_up : name ≠ ".."
  short : name.utf8ByteSize ≤ nameLimit
  passable : t.isPassableAt place = true
  get? : t.get? (place ++ [name]) = some sub

/-- A name is only found in a directory. -/
theorem Finds.exists_directory (h : Finds t place name sub) : ∃ permissions items,
    t.get? place = some (.directory permissions items) ∧ items.lookup name = some sub := by
  obtain ⟨permissions, items, child, hdirectory, hchild, hsub⟩ :=
    exists_directory_of_get? h.get?
  cases hsub
  refine ⟨permissions, items, hdirectory, ?_⟩
  rw [get?_concat, hdirectory] at hchild
  exact hchild

theorem isPassableAt_of_not_isDirectoryAt (h : t.isDirectoryAt place = false) :
    t.isPassableAt place = true := by
  have hnone : t.directory? place = none := by
    by_contra hthere
    rw [isDirectoryAt_iff.mpr hthere] at h
    cases h
  rw [isPassableAt, hnone]
  rfl

/-- A walk from the root starts in the tree itself. -/
theorem Stand.ofPlace_nil (hroot : t.isDirectory = true) : Stand.ofPlace t [] = ⟨[], some t⟩ := by
  rw [Stand.ofPlace, FileTree.get?, Option.filter_some_pos hroot]
  rfl

/-! ### Steps of a walk -/

/-- What finishes a walk through a link, when at most so many may be followed. -/
def throughLink (t : FileTree) : (links : Nat) → Stand → List String → Except Cause Spot
  | 0 => fun _ _ => .error .tooManyLinks
  | links + 1 => walkLinks t .entry links

/-- Where segments lead from a place, if a link at their end is meant itself. -/
def walk (t : FileTree) (links : Nat) (place : Place) (segments : List String) :
    Except Cause Spot :=
  walkSegments t .entry (t.throughLink links) (.ofPlace t place) segments

theorem walkLinks_eq_walk (t : FileTree) (links : Nat) (place : Place) (segments : List String) :
    walkLinks t .entry links (.ofPlace t place) segments = t.walk links place segments := by
  cases links <;> rfl

theorem walk_nil (t : FileTree) (links : Nat) (place : Place) : t.walk links place [] =
    .ok (.present place ((Stand.ofPlace t place).here.getD empty)) := by
  rw [walk, walkSegments, Stand.place_ofPlace]

theorem walk_blank (t : FileTree) (links : Nat) (place : Place) (rest : List String) :
    t.walk links place ("" :: rest) = t.walk links place rest := by
  rw [walk, walkSegments, if_pos rfl, walk]

/-- A walk ends at a directory that may not be passed. -/
theorem walk_denied (hsegment : segment ≠ "") (hdenied : t.isPassableAt place = false)
    (links : Nat) (rest : List String) :
    t.walk links place (segment :: rest) = .error .permissionDenied := by
  rw [walk, walkSegments, if_neg hsegment, Stand.isPassable_ofPlace, hdenied]
  rfl

theorem walk_current (hpass : t.isPassableAt place = true) (links : Nat) (rest : List String) :
    t.walk links place ("." :: rest) = t.walk links place rest := by
  rw [walk, walkSegments, if_neg (by decide), Stand.isPassable_ofPlace, hpass]
  rfl

theorem walk_up (hpass : t.isPassableAt place = true) (links : Nat) (rest : List String) :
    t.walk links place (".." :: rest) = t.walk links place.dropLast rest := by
  rw [walk, walkSegments, if_neg (by decide), Stand.isPassable_ofPlace, hpass,
    Stand.parent_ofPlace]
  rfl

/-- Where a walk goes on that has found an entry under a name. -/
def onFrom (t : FileTree) (links : Nat) (place : Place) (name : String) (rest : List String) :
    FileTree → Except Cause Spot
  | .directory .. => t.walk links (place ++ [name]) rest
  | .file permissions contents =>
    if rest = [] then .ok (.present (place ++ [name]) (.file permissions contents))
    else .error .notDirectory
  | .link target =>
    if rest = [] then .ok (.present (place ++ [name]) (.link target))
    else t.throughLink links (.ofPlace t (origin place target)) (segments target.text ++ rest)

section Names

variable (hroot : t.isDirectory = true)
include hroot

theorem walk_name (h : Finds t place name sub) (links : Nat) (rest : List String) :
    t.walk links place (name :: rest) = t.onFrom links place name rest sub := by
  obtain ⟨permissions, items, hdirectory, hlookup⟩ := h.exists_directory
  have hhere : (Stand.ofPlace t place).here = some (.directory permissions items) := by
    rw [Stand.here_ofPlace, hdirectory]
    rfl
  rw [walk, walkSegments, if_neg h.ne_empty, Stand.isPassable_ofPlace, h.passable,
    if_neg (by simp), if_neg h.ne_current, if_neg h.ne_up, if_neg (by simp), hhere]
  simp only [gt_iff_lt, if_neg (Nat.not_lt.mpr h.short), children, hlookup]
  cases sub with
  | directory permissions items =>
    rw [onFrom, walk, ← Stand.child_ofPlace hdirectory hlookup]
  | file permissions contents => rw [Stand.place_ofPlace, onFrom]
  | link target =>
    have hstart : (if target.isAbsolute = true then ⟨[], some t⟩ else Stand.ofPlace t place) =
        .ofPlace t (origin place target) := by
      rw [origin]
      split
      · exact (Stand.ofPlace_nil hroot).symm
      · rfl
    simp only [and_true, Stand.place_ofPlace, hstart, onFrom]

/-- A walk through a directory where a link is found goes on from where the link starts. -/
theorem walk_link {target : Path} (h : Finds t place name (.link target)) (links : Nat)
    (hrest : rest ≠ []) : t.walk (links + 1) place (name :: rest) =
      t.walk links (origin place target) (segments target.text ++ rest) := by
  rw [walk_name hroot h, onFrom, if_neg hrest, throughLink, walkLinks_eq_walk]

/-- A walk that goes beyond a name has found it. -/
theorem exists_finds_of_walk (hempty : segment ≠ "") (hcurrent : segment ≠ ".")
    (hup : segment ≠ "..")
    (h : t.walk links place (segment :: rest) = .ok (.present found sub)) :
    ∃ child, Finds t place segment child ∧
      t.onFrom links place segment rest child = .ok (.present found sub) := by
  have hwalk := h
  rw [walk, walkSegments, if_neg hempty, Stand.isPassable_ofPlace] at h
  split at h
  · cases h
  next hpass =>
  rw [if_neg (by simp)] at h
  rcases Stand.here_cases t place with ⟨hhere, -⟩ | ⟨permissions, items, hhere, hget⟩
  · rw [hhere] at h
    cases h
  rw [hhere] at h
  simp only [children] at h
  split at h
  · cases h
  next hshort =>
  cases hlookup : items.lookup segment with
  | none =>
    rw [hlookup] at h
    simp only at h
    split at h <;> cases h
  | some child =>
    have hfinds : Finds t place segment child :=
      ⟨hempty, hcurrent, hup, Nat.le_of_not_lt hshort, by simpa using hpass, by
        rw [get?_concat, hget]
        exact hlookup⟩
    rw [walk_name hroot hfinds] at hwalk
    exact ⟨child, hfinds, hwalk⟩

end Names

/-! ### Walks that end at an entry -/

/-- Segments lead from a place to an entry. -/
inductive Reaches (t : FileTree) : (links : Nat) → Place → List String → Place → FileTree → Prop
  | done {links : Nat} {place : Place} :
    Reaches t links place [] place ((Stand.ofPlace t place).here.getD empty)
  | blank {links : Nat} {place found : Place} {rest : List String} {sub : FileTree}
    (go : Reaches t links place rest found sub) : Reaches t links place ("" :: rest) found sub
  | current {links : Nat} {place found : Place} {rest : List String} {sub : FileTree}
    (pass : t.isPassableAt place = true) (go : Reaches t links place rest found sub) :
    Reaches t links place ("." :: rest) found sub
  | up {links : Nat} {place found : Place} {rest : List String} {sub : FileTree}
    (pass : t.isPassableAt place = true) (go : Reaches t links place.dropLast rest found sub) :
    Reaches t links place (".." :: rest) found sub
  | enter {links : Nat} {place found : Place} {name : String} {rest : List String}
    {sub : FileTree} {permissions : Permissions} {items : List (String × FileTree)}
    (finds : Finds t place name (.directory permissions items))
    (go : Reaches t links (place ++ [name]) rest found sub) :
    Reaches t links place (name :: rest) found sub
  | follow {links : Nat} {place found : Place} {name : String} {rest : List String}
    {sub : FileTree} {target : Path} (finds : Finds t place name (.link target))
    (more : rest ≠ [])
    (go : Reaches t links (origin place target) (segments target.text ++ rest) found sub) :
    Reaches t (links + 1) place (name :: rest) found sub
  | last {links : Nat} {place : Place} {name : String} {sub : FileTree}
    (finds : Finds t place name sub) (leaf : sub.isDirectory = false) :
    Reaches t links place [name] (place ++ [name]) sub

theorem walk_of_reaches (hroot : t.isDirectory = true)
    (h : Reaches t links place rest found sub) :
    t.walk links place rest = .ok (.present found sub) := by
  induction h with
  | done => rw [walk_nil]
  | blank go ih => rw [walk_blank, ih]
  | current pass go ih => rw [walk_current pass, ih]
  | up pass go ih => rw [walk_up pass, ih]
  | enter finds go ih => rw [walk_name hroot finds, onFrom, ih]
  | follow finds more go ih => rw [walk_link hroot finds _ more, ih]
  | last finds leaf =>
    rw [walk_name hroot finds]
    rename_i child
    cases child with
    | directory permissions items => cases leaf
    | file permissions contents => rw [onFrom, if_pos rfl]
    | link target => rw [onFrom, if_pos rfl]

/-- A walk that ends at an entry takes such steps, if its links are followed by such steps. -/
theorem reaches_of_walk_of_links (hroot : t.isDirectory = true)
    (hlink : ∀ {place name target rest}, Finds t place name (.link target) → rest ≠ [] →
      t.throughLink links (.ofPlace t (origin place target)) (segments target.text ++ rest) =
        .ok (.present found sub) → Reaches t links place (name :: rest) found sub)
    (h : t.walk links place rest = .ok (.present found sub)) :
    Reaches t links place rest found sub := by
  induction rest generalizing place with
  | nil =>
    rw [walk_nil] at h
    cases h
    exact .done
  | cons segment rest ih =>
    by_cases hempty : segment = ""
    · subst hempty
      rw [walk_blank] at h
      exact .blank (ih h)
    cases hpass : t.isPassableAt place with
    | false =>
      rw [walk_denied hempty hpass] at h
      cases h
    | true =>
      by_cases hcurrent : segment = "."
      · subst hcurrent
        rw [walk_current hpass] at h
        exact .current hpass (ih h)
      by_cases hup : segment = ".."
      · subst hup
        rw [walk_up hpass] at h
        exact .up hpass (ih h)
      obtain ⟨child, hfinds, hon⟩ := exists_finds_of_walk hroot hempty hcurrent hup h
      cases child with
      | directory permissions items => exact .enter hfinds (ih hon)
      | file permissions contents =>
        rw [onFrom] at hon
        split at hon
        · next hrest =>
          cases hon
          subst hrest
          exact .last hfinds rfl
        · cases hon
      | link target =>
        rw [onFrom] at hon
        split at hon
        · next hrest =>
          cases hon
          subst hrest
          exact .last hfinds rfl
        · next hrest => exact hlink hfinds hrest hon

theorem reaches_of_walk (hroot : t.isDirectory = true)
    (h : t.walk links place rest = .ok (.present found sub)) :
    Reaches t links place rest found sub := by
  induction links generalizing place rest with
  | zero =>
    refine reaches_of_walk_of_links hroot (fun _ _ hthrough => ?_) h
    cases hthrough
  | succ links ih =>
    refine reaches_of_walk_of_links hroot (fun hfinds hrest hthrough => ?_) h
    rw [throughLink, walkLinks_eq_walk] at hthrough
    exact .follow hfinds hrest (ih hthrough)

/-- A walk ends at an entry exactly if its steps lead there. -/
theorem reaches_iff (hroot : t.isDirectory = true) : Reaches t links place rest found sub ↔
    t.walk links place rest = .ok (.present found sub) :=
  ⟨walk_of_reaches hroot, reaches_of_walk hroot⟩

/-! ### Where a walk ends -/

/-- Whatever stands at a place and above it is a directory. -/
def Grounded (t : FileTree) (place : Place) : Prop :=
  ∀ above, above <+: place → (t.get? above).all isDirectory = true

theorem Grounded.parent (h : Grounded t place) : Grounded t place.dropLast :=
  fun above habove => h above (habove.trans (List.dropLast_prefix place))

theorem Grounded.isDirectory (h : Grounded t place) : t.isDirectory = true :=
  h [] List.nil_prefix

theorem grounded_nil (hroot : t.isDirectory = true) : Grounded t [] := by
  intro above habove
  rw [List.prefix_nil.mp habove]
  exact hroot

/-- A directory that stands somewhere stands in directories. -/
theorem grounded_of_get? {permissions : Permissions} {items : List (String × FileTree)}
    (h : t.get? place = some (.directory permissions items)) : Grounded t place := by
  rintro above ⟨rest, rfl⟩
  obtain ⟨permissions, items, habove⟩ := exists_directory_of_prefix h
  rw [habove]
  rfl

theorem Grounded.origin {directory : Place} (h : Grounded t directory) (path : Path) :
    Grounded t (origin directory path) := by
  rw [FileTree.origin]
  split
  · exact grounded_nil h.isDirectory
  · exact h

/-- What a walk ends at stands at its place, unless the walk ends in a directory that is gone. -/
theorem Reaches.get?_cases (h : Reaches t links place rest found sub) (hground : Grounded t place) :
    t.get? found = some sub ∨ t.get? found = none ∧ sub = empty := by
  induction h with
  | @done links place =>
    have hthere := hground place List.prefix_rfl
    rw [Stand.here_ofPlace]
    cases hget : t.get? place with
    | none => exact .inr ⟨rfl, rfl⟩
    | some child =>
      rw [hget] at hthere
      rw [Option.filter_some_pos (by simpa using hthere)]
      exact .inl rfl
  | blank go ih => exact ih hground
  | current pass go ih => exact ih hground
  | up pass go ih => exact ih hground.parent
  | enter finds go ih => exact ih (grounded_of_get? finds.get?)
  | follow finds more go ih => exact ih (hground.origin _)
  | last finds leaf => exact .inl finds.get?

/-- What a name at the end of the segments stands for is there. -/
theorem Reaches.get?_of_name (h : Reaches t links place rest found sub)
    (hlast : rest.getLast? = some name) (hempty : name ≠ "") (hcurrent : name ≠ ".")
    (hup : name ≠ "..") : found ≠ [] ∧ t.get? found = some sub := by
  induction h with
  | done => cases hlast
  | @blank links place found rest sub go ih =>
    refine ih ?_
    cases rest with
    | nil => exact absurd (Option.some.inj hlast).symm hempty
    | cons => exact hlast
  | @current links place found rest sub pass go ih =>
    refine ih ?_
    cases rest with
    | nil => exact absurd (Option.some.inj hlast).symm hcurrent
    | cons => exact hlast
  | @up links place found rest sub pass go ih =>
    refine ih ?_
    cases rest with
    | nil => exact absurd (Option.some.inj hlast).symm hup
    | cons => exact hlast
  | @enter links place found first rest sub permissions items finds go ih =>
    cases rest with
    | nil =>
      cases go
      refine ⟨by simp, ?_⟩
      rw [Stand.here_ofPlace, finds.get?]
      rfl
    | cons => exact ih hlast
  | @follow links place found first rest sub target finds more go ih =>
    refine ih ?_
    rw [List.getLast?_append_of_ne_nil _ more, ← hlast, List.getLast?_cons_of_ne_nil more]
  | last finds leaf => exact ⟨by simp, finds.get?⟩

section Blanks

variable {front blanks : List String} (hblanks : ∀ segment ∈ blanks, segment = "")
include hblanks

theorem reaches_blanks (t : FileTree) (links : Nat) (place : Place) :
    Reaches t links place blanks place ((Stand.ofPlace t place).here.getD empty) := by
  induction blanks with
  | nil => exact .done
  | cons blank rest ih =>
    rw [hblanks blank List.mem_cons_self]
    exact .blank (ih fun segment hsegment => hblanks segment (List.mem_cons_of_mem _ hsegment))

omit hblanks in
/-- Blank segments lead nowhere else. -/
theorem Reaches.of_blank (h : Reaches t links place ("" :: rest) found sub) :
    Reaches t links place rest found sub := by
  generalize hsegments : "" :: rest = whole at h
  cases h with
  | done => cases hsegments
  | blank go =>
    cases hsegments
    exact go
  | current pass go => exact absurd (List.cons.inj hsegments).1 (by decide)
  | up pass go => exact absurd (List.cons.inj hsegments).1 (by decide)
  | enter finds go => exact absurd (List.cons.inj hsegments).1.symm finds.ne_empty
  | follow finds more go => exact absurd (List.cons.inj hsegments).1.symm finds.ne_empty
  | last finds leaf => exact absurd (List.cons.inj hsegments).1.symm finds.ne_empty

theorem Reaches.of_blanks (h : Reaches t links place blanks found sub) :
    Reaches t links place [] found sub := by
  induction blanks with
  | nil => exact h
  | cons blank rest ih =>
    rw [hblanks blank List.mem_cons_self] at h
    exact ih (fun segment hsegment => hblanks segment (List.mem_cons_of_mem _ hsegment)) h.of_blank

/-- Blank segments at the end matter only behind a link. -/
theorem Reaches.of_append_blanks (h : Reaches t links place (front ++ blanks) found sub) :
    Reaches t links place front found sub ∨
      ∃ other target, Reaches t links place front other (.link target) := by
  have hhead : ∀ {segment rest}, blanks = segment :: rest → segment = "" :=
    fun hcons => hblanks _ (hcons ▸ List.mem_cons_self)
  generalize hsegments : front ++ blanks = whole at h
  induction h generalizing front with
  | done =>
    obtain ⟨rfl, -⟩ := List.append_eq_nil_iff.mp hsegments
    exact .inl .done
  | blank go ih =>
    rcases List.append_eq_cons_iff.mp hsegments with ⟨rfl, hcons⟩ | ⟨front, rfl, hrest⟩
    · exact .inl (Reaches.of_blanks hblanks (hcons ▸ go.blank))
    · exact (ih hrest.symm).imp .blank fun ⟨other, target, hlink⟩ => ⟨other, target, hlink.blank⟩
  | current pass go ih =>
    rcases List.append_eq_cons_iff.mp hsegments with ⟨rfl, hcons⟩ | ⟨front, rfl, hrest⟩
    · exact absurd (hhead hcons) (by decide)
    · exact (ih hrest.symm).imp (.current pass)
        fun ⟨other, target, hlink⟩ => ⟨other, target, .current pass hlink⟩
  | up pass go ih =>
    rcases List.append_eq_cons_iff.mp hsegments with ⟨rfl, hcons⟩ | ⟨front, rfl, hrest⟩
    · exact absurd (hhead hcons) (by decide)
    · exact (ih hrest.symm).imp (.up pass)
        fun ⟨other, target, hlink⟩ => ⟨other, target, .up pass hlink⟩
  | enter finds go ih =>
    rcases List.append_eq_cons_iff.mp hsegments with ⟨rfl, hcons⟩ | ⟨front, rfl, hrest⟩
    · exact absurd (hhead hcons) finds.ne_empty
    · exact (ih hrest.symm).imp (.enter finds)
        fun ⟨other, target, hlink⟩ => ⟨other, target, .enter finds hlink⟩
  | @follow links place found name rest sub target finds more go ih =>
    rcases List.append_eq_cons_iff.mp hsegments with ⟨rfl, hcons⟩ | ⟨front, rfl, hrest⟩
    · exact absurd (hhead hcons) finds.ne_empty
    · -- The link itself may be what is meant if only blank segments come after it.
      by_cases hfront : front = []
      · subst hfront
        exact .inr ⟨place ++ [name], target, .last finds rfl⟩
      · have happend : (segments target.text ++ front) ++ blanks = segments target.text ++ rest := by
          rw [List.append_assoc, hrest]
        exact (ih happend).imp (.follow finds hfront)
          fun ⟨other, target, hlink⟩ => ⟨other, target, .follow finds hfront hlink⟩
  | last finds leaf =>
    rcases List.append_eq_cons_iff.mp hsegments with ⟨rfl, hcons⟩ | ⟨front, rfl, hrest⟩
    · exact absurd (hhead hcons) finds.ne_empty
    · obtain ⟨rfl, -⟩ := List.append_eq_nil_iff.mp hrest.symm
      exact .inl (.last finds leaf)

/-- A walk that goes on behind some segments ends at an entry if it stops there, too. -/
theorem Reaches.exists_of_append (h : Reaches t links place (front ++ rest) found sub)
    (hrest : ∃ segment ∈ rest, segment ≠ "") :
    ∃ other last, Reaches t links place (front ++ blanks) other last := by
  generalize hsegments : front ++ rest = whole at h
  induction h generalizing front with
  | @done links place =>
    obtain ⟨rfl, -⟩ := List.append_eq_nil_iff.mp hsegments
    exact ⟨place, _, reaches_blanks hblanks t links place⟩
  | @blank links place found later sub go ih =>
    rcases List.append_eq_cons_iff.mp hsegments with ⟨rfl, -⟩ | ⟨front, rfl, hfront⟩
    · exact ⟨place, _, reaches_blanks hblanks t links place⟩
    · obtain ⟨other, last, hgo⟩ := ih hfront.symm
      exact ⟨other, last, hgo.blank⟩
  | @current links place found later sub pass go ih =>
    rcases List.append_eq_cons_iff.mp hsegments with ⟨rfl, -⟩ | ⟨front, rfl, hfront⟩
    · exact ⟨place, _, reaches_blanks hblanks t links place⟩
    · obtain ⟨other, last, hgo⟩ := ih hfront.symm
      exact ⟨other, last, .current pass hgo⟩
  | @up links place found later sub pass go ih =>
    rcases List.append_eq_cons_iff.mp hsegments with ⟨rfl, -⟩ | ⟨front, rfl, hfront⟩
    · exact ⟨place, _, reaches_blanks hblanks t links place⟩
    · obtain ⟨other, last, hgo⟩ := ih hfront.symm
      exact ⟨other, last, .up pass hgo⟩
  | @enter links place found name later sub permissions items finds go ih =>
    rcases List.append_eq_cons_iff.mp hsegments with ⟨rfl, -⟩ | ⟨front, rfl, hfront⟩
    · exact ⟨place, _, reaches_blanks hblanks t links place⟩
    · obtain ⟨other, last, hgo⟩ := ih hfront.symm
      exact ⟨other, last, .enter finds hgo⟩
  | @follow links place found name later sub target finds more go ih =>
    rcases List.append_eq_cons_iff.mp hsegments with ⟨rfl, -⟩ | ⟨front, rfl, hfront⟩
    · exact ⟨place, _, reaches_blanks hblanks t _ place⟩
    · by_cases hend : front ++ blanks = []
      · rw [List.cons_append, hend]
        exact ⟨_, _, .last finds rfl⟩
      · have happend : (segments target.text ++ front) ++ rest = segments target.text ++ later := by
          rw [List.append_assoc, hfront]
        obtain ⟨other, last, hgo⟩ := ih happend
        rw [List.append_assoc] at hgo
        exact ⟨other, last, .follow finds hend hgo⟩
  | @last links place name sub finds leaf =>
    rcases List.append_eq_cons_iff.mp hsegments with ⟨rfl, -⟩ | ⟨front, rfl, hfront⟩
    · exact ⟨place, _, reaches_blanks hblanks t links place⟩
    · obtain ⟨-, rfl⟩ := List.append_eq_nil_iff.mp hfront.symm
      obtain ⟨segment, hsegment, -⟩ := hrest
      cases hsegment

end Blanks

/-! ### Segments of paths -/

/-- Slashes at the end of a text add blank segments. -/
theorem exists_segments_append_slashes (front : List Char) {slashes : List Char}
    (h : ∀ c ∈ slashes, c = '/') : ∃ blanks, (∀ segment ∈ blanks, segment = "") ∧
      segments (String.ofList (front ++ slashes)) = segments (String.ofList front) ++ blanks := by
  induction slashes generalizing front with
  | nil => exact ⟨[], nofun, by rw [List.append_nil, List.append_nil]⟩
  | cons c rest ih =>
    obtain rfl : c = '/' := h c List.mem_cons_self
    obtain ⟨blanks, hblanks, hrest⟩ := ih [] fun c hc => h c (List.mem_cons_of_mem _ hc)
    rw [List.nil_append] at hrest
    have htext : String.ofList (front ++ '/' :: rest) =
        String.ofList front ++ "/" ++ String.ofList rest := by
      apply String.toList_inj.mp
      simp
    refine ⟨"" :: blanks, by simpa using hblanks, ?_⟩
    rw [htext, segments_append, hrest]
    rfl

theorem exists_segments_withoutEndSlashes (path : Path) :
    ∃ blanks, (∀ segment ∈ blanks, segment = "") ∧
      segments path.text = segments (withoutEndSlashes path).text ++ blanks := by
  obtain ⟨kept, slashes, htext, hslashes, heq⟩ := exists_withoutEndSlashes path
  have hpath : path.text = String.ofList (kept ++ slashes) := by rw [← htext, String.ofList_toList]
  rw [heq, hpath]
  split
  · next hroot =>
    obtain ⟨rfl, htext⟩ := hroot
    cases slashes with
    | nil => exact absurd rfl htext
    | cons c rest =>
      obtain rfl : c = '/' := hslashes c List.mem_cons_self
      exact exists_segments_append_slashes ['/'] fun c hc => hslashes c (List.mem_cons_of_mem _ hc)
  · exact exists_segments_append_slashes kept hslashes

/-- A path that goes on behind another one has the same segments up to there. -/
theorem exists_segments_join_relative (path : Path) {below : Path}
    (hbelow : below.isAbsolute = false) :
    ∃ front blanks, (∀ segment ∈ blanks, segment = "") ∧ segments path.text = front ++ blanks ∧
      segments (path.join below).text = front ++ segments below.text := by
  by_cases htext : path.text = ""
  · refine ⟨[], [""], by simp, by rw [htext]; rfl, ?_⟩
    rw [Path.join, if_pos (by simp [htext]), List.nil_append]
  rw [Path.join_of_ne_empty hbelow htext]
  by_cases hslash : path.text.toList.getLast? = some '/'
  · obtain ⟨front, hfront⟩ := List.getLast?_eq_some_iff.mp hslash
    have hpath : path.text = String.ofList front ++ "/" ++ "" := by
      apply String.toList_inj.mp
      simp [hfront]
    refine ⟨segments (String.ofList front), [""], by simp, ?_, ?_⟩
    · rw [hpath, segments_append]
      rfl
    · rw [if_pos hslash, String.empty_append, hpath, String.append_empty, segments_append]
  · refine ⟨segments path.text, [], by simp, (List.append_nil _).symm, ?_⟩
    rw [if_neg hslash, ← String.append_assoc, segments_append]

/-- A relative path that is not empty has a segment that is not blank. -/
theorem exists_segment_ne_empty {path : Path} (htext : path.text ≠ "")
    (hrelative : path.isAbsolute = false) : ∃ segment ∈ segments path.text, segment ≠ "" := by
  obtain ⟨c, rest, hchars⟩ : ∃ c rest, path.text.toList = c :: rest :=
    List.exists_cons_of_ne_nil fun hnil => htext (String.toList_inj.mp hnil)
  have hslash : c ≠ '/' := by simpa [Path.isAbsolute, hchars] using hrelative
  obtain ⟨piece, more, hpieces⟩ := List.exists_cons_of_ne_nil (Text.pieces_ne_nil '/' rest)
  refine ⟨String.ofList (c :: piece), ?_, by simp⟩
  rw [segments, hchars, Text.pieces, if_neg hslash, hpieces]
  exact List.mem_cons_self

/-! ### Where paths lead -/

/-- A path leads from a working directory to an entry. -/
def Leads (t : FileTree) (directory : Place) (path : Path) (found : Place) (sub : FileTree) :
    Prop :=
  Reaches t linkLimit (origin directory path) (segments path.text) found sub

section Leads

variable {directory : Place} {path : Path}

theorem leads_iff (hroot : t.isDirectory = true) : Leads t directory path found sub ↔
    t.follow directory .entry path = .ok (.present found sub) := by
  rw [Leads, reaches_iff hroot, ← walkLinks_eq_walk]
  rfl

theorem find_eq_ok_iff (hroot : t.isDirectory = true) :
    t.find directory .entry path = .ok (found, sub) ↔
      refusal? path = none ∧ Leads t directory path found sub := by
  rw [find, resolve, leads_iff hroot]
  cases hrefusal : refusal? path with
  | some cause =>
    refine iff_of_false ?_ (by simp)
    rintro ⟨⟩
  | none =>
    simp only [true_and]
    rw [bind_eq_ok_iff]
    constructor
    · rintro ⟨spot, hspot, h⟩
      cases spot with
      | present place last =>
        cases h
        exact hspot
      | vacant place => cases h
    · exact fun h => ⟨_, h, rfl⟩

theorem locate_eq_present_iff (hroot : t.isDirectory = true) :
    t.locate directory path = .ok (.present found sub) ↔
      refusal? path = none ∧ Leads t directory (withoutEndSlashes path) found sub := by
  rw [locate, leads_iff hroot]
  cases hrefusal : refusal? path with
  | some cause =>
    refine iff_of_false ?_ (by simp)
    rintro ⟨⟩
  | none => simp

/-- Slashes at the end of a path matter only behind a link. -/
theorem Leads.withoutEndSlashes (h : Leads t directory path found sub) :
    Leads t directory (withoutEndSlashes path) found sub ∨
      ∃ other target, Leads t directory (FileTree.withoutEndSlashes path) other (.link target) := by
  obtain ⟨blanks, hblanks, hsegments⟩ := exists_segments_withoutEndSlashes path
  have horigin : origin directory (FileTree.withoutEndSlashes path) = origin directory path := by
    rw [origin, origin, isAbsolute_withoutEndSlashes]
  rw [Leads, hsegments] at h
  simp only [Leads, horigin]
  exact h.of_append_blanks hblanks

theorem Leads.exists_withoutEndSlashes (h : Leads t directory path found sub) :
    ∃ other last, Leads t directory (FileTree.withoutEndSlashes path) other last := by
  rcases h.withoutEndSlashes with hbare | ⟨other, target, hbare⟩
  · exact ⟨found, sub, hbare⟩
  · exact ⟨other, .link target, hbare⟩

/-- What a name at the end of a path stands for is there. -/
theorem Leads.get?_of_name {slashed : Bool} (hlast : lastStep path = .name slashed)
    (h : Leads t directory (FileTree.withoutEndSlashes path) found sub) :
    found ≠ [] ∧ t.get? found = some sub := by
  obtain ⟨last, hsome⟩ : ∃ last,
      (segments (FileTree.withoutEndSlashes path).text).getLast? = some last := by
    have hne : segments (FileTree.withoutEndSlashes path).text ≠ [] := by
      simp [segments, Text.pieces_ne_nil]
    exact ⟨_, List.getLast?_eq_some_getLast hne⟩
  rw [lastStep, hsome] at hlast
  refine Reaches.get?_of_name h hsome ?_ ?_ ?_
  · rintro rfl
    cases hlast
  · rintro rfl
    cases hlast
  · rintro rfl
    cases hlast

/-- A path below another one leads nowhere if that one does not. -/
theorem Leads.of_join {below : Path} (hbelow : below.text ≠ "")
    (hrelative : below.isAbsolute = false) (h : Leads t directory (path.join below) found sub) :
    ∃ other last, Leads t directory path other last := by
  obtain ⟨front, blanks, hblanks, hpath, hjoin⟩ :=
    exists_segments_join_relative path hrelative
  have horigin : origin directory (path.join below) = origin directory path := by
    rw [origin, origin, isAbsolute_join path hrelative]
  rw [Leads, horigin, hjoin] at h
  simp only [Leads, hpath]
  exact h.exists_of_append hblanks (exists_segment_ne_empty hbelow hrelative)

end Leads

end BridgingHeader.FileTree
