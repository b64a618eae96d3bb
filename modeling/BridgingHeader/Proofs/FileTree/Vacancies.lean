import BridgingHeader.Proofs.FileTree.Placement
import BridgingHeader.Proofs.Path.Endings

/-!
# Places where nothing stands yet

A path that leads nowhere although its parent is there has a name at which nothing stands. If only
slashes come after that name, a directory can be made there and removed again by the same path.
Otherwise nothing can be made by the path at all.
-/

namespace BridgingHeader.FileTree

variable {t : FileTree} {directory place : Place}

/-! ### Directories on the way -/

theorem isDirectoryAt_of_below {above : Place} (h : t.isDirectoryAt place = true)
    (habove : above <+: place) : t.isDirectoryAt above = true := by
  rcases Stand.here_cases t place with ⟨-, hnone⟩ | ⟨permissions, items, -, hget⟩
  · rw [hnone] at h
    cases h
  · obtain ⟨rest, rfl⟩ := habove
    obtain ⟨permissions, entries, hdirectory⟩ := exists_directory_of_prefix hget
    rw [isDirectoryAt, hdirectory]
    rfl

theorem isDirectoryAt_of_passStep {next : Place} {segment : String}
    (h : t.isDirectoryAt place = true) (hstep : t.passStep place segment = .ok next) :
    t.isDirectoryAt next = true := by
  unfold passStep at hstep
  split at hstep
  · cases hstep
    exact h
  split at hstep
  · cases hstep
  split at hstep
  · cases hstep
    exact h
  split at hstep
  · cases hstep
    exact isDirectoryAt_of_below h (List.dropLast_prefix place)
  split at hstep
  · cases hstep
  split at hstep
  · cases hstep
  split at hstep
  · next hkind =>
    cases hstep
    exact isDirectoryAt_iff.mpr ((kind_eq_directory_iff t _).mp hkind)
  · cases hstep
  · cases hstep

/-- A way that starts in a directory leads through directories. -/
theorem isDirectoryAt_of_pass {last : Place} {segments front : List String}
    (h : t.isDirectoryAt place = true) (hpass : t.pass place segments = .ok last)
    (hfront : front <+: segments) : t.isDirectoryAt (placeAfter place front) = true := by
  induction front generalizing place segments with
  | nil => exact h
  | cons segment front ih =>
    obtain ⟨rest, rfl⟩ := hfront
    obtain ⟨next, hstep, hrest⟩ := bind_eq_ok_iff.mp hpass
    rw [placeAfter_cons, ← passStep_eq_ok hstep]
    exact ih (isDirectoryAt_of_passStep h hstep) hrest (List.prefix_append _ _)

/-- A directory to which a name leads is let through. -/
theorem passStep_of_endAt {found : Place} {sub : FileTree} {name : String} (hname : IsName name)
    (h : t.endAt place name = .ok (.present found sub)) (hsub : sub.isDirectory = true) :
    t.passStep place name = .ok found := by
  rw [endAt] at h
  rw [passStep, if_neg hname.ne_empty]
  split at h
  · cases h
  next hpassable =>
  rw [if_neg hpassable, if_neg hname.ne_current, if_neg hname.ne_up]
  split at h
  · cases h
  next hthere =>
  rw [if_neg hthere]
  split at h
  · cases h
  next hshort =>
  rw [if_neg hshort]
  split at h
  · next hget =>
    cases h
    have hkind : (t.node? (place ++ [name])).map kind = some .directory := by
      rw [node?, hget, Option.map_some, Option.map_some, kind_shallow]
      exact congrArg some (by simpa [isDirectory] using hsub)
    rw [hkind]
  · cases h

/-- A walk that ends in a directory is let through. -/
theorem pass_of_walkSegments (hplain : Plain t) {aim : Aim} (haim : aim ≠ .output)
    {visit : Stand → List String → Except Cause Spot} {segments : List String}
    (hslash : ∀ segment ∈ segments, '/' ∉ segment.toList) {found : Place} {sub : FileTree}
    (hwalk : walkSegments t aim visit (.ofPlace t place) segments = .ok (.present found sub))
    (hsub : sub.isDirectory = true) : t.pass place segments = .ok found := by
  induction segments generalizing place with
  | nil =>
    rw [walkSegments, Stand.place_ofPlace] at hwalk
    cases hwalk
    rfl
  | cons segment rest ih =>
    have hcons : walkSegments t aim visit (.ofPlace t place) (segment :: rest) =
        t.passStep place segment >>= fun next =>
          walkSegments t aim visit (.ofPlace t next) rest := by
      by_cases hsegment : segment = "" ∨ segment = "." ∨ segment = ".."
      · exact walkSegments_of_not_isName visit hsegment place rest
      · simp only [not_or] at hsegment
        have hname : IsName segment :=
          ⟨hsegment.1, hsegment.2.1, hsegment.2.2, hslash segment List.mem_cons_self⟩
        refine walkSegments_cons hplain visit (fun hoff => haim hoff.1) fun hlast => ?_
        rw [hlast, walkSegments_name hplain aim visit place hname] at hwalk
        exact ⟨found, passStep_of_endAt hname hwalk hsub⟩
    rw [hcons] at hwalk
    obtain ⟨next, hstep, hrest⟩ := bind_eq_ok_iff.mp hwalk
    rw [pass, hstep]
    exact ih (fun s hs => hslash s (List.mem_cons_of_mem _ hs)) hrest

/-- A directory to which a path leads can be passed to. -/
theorem pass_of_find (hplain : Plain t) {aim : Aim} (haim : aim ≠ .output) {path : Path}
    {found : Place} {sub : FileTree} (hfind : t.find directory aim path = .ok (found, sub))
    (hsub : sub.isDirectory = true) :
    t.pass (origin directory path) (steps path) = .ok (placeOf directory path) := by
  obtain ⟨spot, hspot, hfound⟩ := bind_eq_ok_iff.mp hfind
  have hfollow : t.follow directory aim path = .ok (.present found sub) := by
    unfold resolve at hspot
    split at hspot
    · cases hspot
    · split at hfound <;> cases hfound
      exact hspot
  obtain ⟨visit, hvisit⟩ := walkLinks_eq t aim linkLimit
  rw [follow, hvisit, ← origin] at hfollow
  have hpass := pass_of_walkSegments hplain haim (fun _ => no_slash_of_mem_segments) hfollow hsub
  rw [steps, pass_filter, placeOf, steps, placeAfter_filter, ← pass_eq_ok hpass]
  exact hpass

/-! ### Following a path by its steps -/

/-- A path is followed along some of its steps, and a walk goes on with the step after them. -/
theorem exists_follow_eq (hplain : Plain t) (directory : Place) (aim : Aim) {path : Path}
    {front after : List String} {step : String} (hsteps : steps path = front ++ step :: after) :
    ∃ visit before rest, segments path.text = before ++ step :: rest ∧
      rest.filter (· ≠ "") = after ∧
      t.follow directory aim path = t.pass (origin directory path) front >>= fun place =>
        walkSegments t aim visit (.ofPlace t place) (step :: rest) := by
  obtain ⟨visit, hvisit⟩ := walkLinks_eq t aim linkLimit
  obtain ⟨before, last, hsegments, hbefore, hlast⟩ := List.filter_eq_append_iff.mp hsteps
  obtain ⟨void, rest, rfl, hvoid, hstep, hrest⟩ := List.filter_eq_cons_iff.mp hlast
  have hsegments' : segments path.text = (before ++ void) ++ step :: rest := by
    rw [hsegments, List.append_assoc]
  have hfront : (before ++ void).filter (· ≠ "") = front := by
    rw [List.filter_append, hbefore]
    simpa [List.filter_eq_nil_iff] using hvoid
  refine ⟨visit, before ++ void, rest, hsegments', hrest, ?_⟩
  rw [follow, hvisit, hsegments',
    walkSegments_append hplain _ _ _ _ ⟨step, List.mem_cons_self, by simpa using hstep⟩,
    ← pass_filter, hfront]
  rfl

/-- What holds of the steps among some segments holds of all segments that are not empty. -/
theorem eq_empty_or_of_filter {rest after : List String} {P : String → Prop}
    (hrest : rest.filter (· ≠ "") = after) (h : ∀ step ∈ after, P step) :
    ∀ segment ∈ rest, segment = "" ∨ P segment := by
  intro segment hsegment
  by_cases hempty : segment = ""
  · exact .inl hempty
  · right
    apply h
    rw [← hrest]
    exact List.mem_filter.mpr ⟨hsegment, by simpa using hempty⟩

/-- A path is not followed further than its way can be walked. -/
theorem follow_of_pass_error (hplain : Plain t) {path : Path} {front after : List String}
    {step : String} (hsteps : steps path = front ++ step :: after) {cause : Cause}
    (h : t.pass (origin directory path) front = .error cause) (aim : Aim) :
    t.follow directory aim path = .error cause := by
  obtain ⟨visit, before, rest, -, -, hfollow⟩ := exists_follow_eq hplain directory aim hsteps
  rw [hfollow, h]
  rfl

/-- Steps that only climb lead somewhere, or they may not be passed. -/
theorem walkSegments_of_climb {aim : Aim} (visit : Stand → List String → Except Cause Spot)
    {segments : List String}
    (h : ∀ segment ∈ segments, segment = "" ∨ segment = "." ∨ segment = "..") (place : Place) :
    walkSegments t aim visit (.ofPlace t place) segments = .error .permissionDenied ∨
      ∃ found sub, walkSegments t aim visit (.ofPlace t place) segments =
        .ok (.present found sub) := by
  induction segments generalizing place with
  | nil => exact .inr ⟨_, _, by rw [walkSegments]⟩
  | cons segment rest ih =>
    have hsegment := h segment List.mem_cons_self
    have hrest := ih fun s hs => h s (List.mem_cons_of_mem _ hs)
    rw [walkSegments_of_not_isName visit hsegment, passStep]
    by_cases hempty : segment = ""
    · rw [if_pos hempty]
      exact hrest place
    rw [if_neg hempty]
    by_cases hpass : (!t.isPassableAt place) = true
    · rw [if_pos hpass]
      exact .inl rfl
    rw [if_neg hpass]
    rcases hsegment.resolve_left hempty with rfl | rfl
    · exact hrest place
    · exact hrest place.dropLast

/-! ### Gaps -/

/-- Nothing stands where a name leads after some steps, but an entry could stand there. -/
structure Gap (t : FileTree) (place : Place) (front : List String) (name : String) : Prop where
  isName : IsName name
  short : name.utf8ByteSize ≤ nameLimit
  passed : t.pass place front = .ok (placeAfter place front)
  isDirectory : t.directory? (placeAfter place front) ≠ none
  isPassable : t.isPassableAt (placeAfter place front) = true
  missing : t.get? (placeAfter place front ++ [name]) = none

/-- A walk ends because nothing is there. -/
def EndsNowhere : Except Cause Spot → Prop
  | .error .noEntry => True
  | .ok (.vacant _) => True
  | _ => False

/-- A path at which nothing is found is not refused, unless it is empty, and its walk ends because
nothing is there. -/
theorem endsNowhere_of_find {path : Path} (htext : path.text ≠ "")
    (h : t.find directory .entry path = .error .noEntry) :
    refusal? path = none ∧ EndsNowhere (t.follow directory .entry path) := by
  rw [find, resolve] at h
  cases hrefusal : refusal? path with
  | some cause =>
    rw [hrefusal] at h
    cases h
    exact absurd hrefusal (refusal?_ne_noEntry htext)
  | none =>
    refine ⟨rfl, ?_⟩
    rw [hrefusal] at h
    simp only at h
    cases hfollow : t.follow directory .entry path with
    | error cause =>
      rw [hfollow] at h
      cases h
      trivial
    | ok spot =>
      rw [hfollow] at h
      cases spot with
      | present place sub => cases h
      | vacant place => trivial

section Names

variable {name : String} (hname : IsName name) (hthere : t.directory? place ≠ none)
include hthere

theorem missing_of_endAt (h : EndsNowhere (t.endAt place name)) :
    t.isPassableAt place = true ∧ name.utf8ByteSize ≤ nameLimit ∧
      t.get? (place ++ [name]) = none := by
  rw [endAt, if_neg hthere] at h
  split at h
  · cases h
  next hpassable =>
  split at h
  · cases h
  next hshort =>
  refine ⟨by simpa using hpassable, not_lt.mp hshort, ?_⟩
  split at h
  · cases h
  · assumption

include hname

/-- Nothing is there for a name that is not let through for that reason. -/
theorem passStep_eq_noEntry_iff : t.passStep place name = .error .noEntry ↔
    t.isPassableAt place = true ∧ name.utf8ByteSize ≤ nameLimit ∧
      t.get? (place ++ [name]) = none := by
  rw [passStep, if_neg hname.ne_empty, if_neg hname.ne_current, if_neg hname.ne_up, if_neg hthere]
  constructor
  · intro h
    split at h
    · cases h
    next hpassable =>
    split at h
    · cases h
    next hshort =>
    refine ⟨by simpa using hpassable, not_lt.mp hshort, ?_⟩
    split at h
    · cases h
    · cases h
    · next hnone => exact Option.map_eq_none_iff.mp (Option.map_eq_none_iff.mp hnone)
  · rintro ⟨hpassable, hshort, hnone⟩
    rw [if_neg (by simp [hpassable]), if_neg (not_lt.mpr hshort), node?, hnone]
    rfl

/-- A walk along a name that ends because nothing is there ends at that name, unless there are more
names after it. -/
theorem missing_of_walkSegments (hplain : Plain t)
    {visit : Stand → List String → Except Cause Spot} {rest : List String}
    (hrest : ∀ segment ∈ rest, segment = "" ∨ segment = ".")
    (h : EndsNowhere (walkSegments t .entry visit (.ofPlace t place) (name :: rest))) :
    t.isPassableAt place = true ∧ name.utf8ByteSize ≤ nameLimit ∧
      t.get? (place ++ [name]) = none := by
  by_cases hlast : rest = []
  · rw [hlast, walkSegments_name hplain .entry visit place hname] at h
    exact missing_of_endAt hthere h
  rw [walkSegments_cons hplain visit (by simp) fun hnil => absurd hnil hlast] at h
  refine (passStep_eq_noEntry_iff hname hthere).mp ?_
  cases hstep : t.passStep place name with
  | ok next =>
    rw [hstep, ok_bind] at h
    have hvoid : ∀ segment ∈ rest, segment = "" ∨ segment = "." ∨ segment = ".." :=
      fun s hs => (hrest s hs).imp_right .inl
    rcases walkSegments_of_climb visit hvoid next with hclimb | ⟨_, _, hclimb⟩
    · rw [hclimb] at h
      cases h
    · rw [hclimb] at h
      cases h
  | error cause =>
    rw [hstep] at h
    cases cause <;> first | rfl | cases h

end Names

/-- Steps that stay are let through, unless the place may not be passed. -/
theorem pass_current_cases {dots : List String} (h : ∀ step ∈ dots, step = ".") (place : Place) :
    t.pass place dots = .ok place ∨ t.pass place dots = .error .permissionDenied := by
  induction dots with
  | nil => exact .inl rfl
  | cons step rest ih =>
    rw [pass, passStep, h step List.mem_cons_self, if_neg (by decide)]
    split
    · exact .inr rfl
    · exact ih fun s hs => h s (List.mem_cons_of_mem _ hs)

section Parents

variable (hplain : Plain t) {path parent : Path}
  (horigin : origin directory parent = origin directory path)
  (hpass : t.pass (origin directory parent) (steps parent) = .ok (placeOf directory parent))
  (hfollow : EndsNowhere (t.follow directory .entry path))
include hplain horigin hpass hfollow

/-- A path that only climbs from its parent leads somewhere, or it may not be followed. -/
theorem not_climb_of_endsNowhere {climb : List String} (hsteps : steps path = steps parent ++ climb)
    (hclimb : ∀ step ∈ climb, step = "." ∨ step = "..") : False := by
  obtain ⟨before, rest, hsegments, hbefore, hrest⟩ := List.filter_eq_append_iff.mp hsteps
  obtain ⟨visit, hvisit⟩ := walkLinks_eq t .entry linkLimit
  rw [← hbefore, pass_filter, horigin] at hpass
  have hwalk : t.follow directory .entry path =
      walkSegments t .entry visit (.ofPlace t (placeOf directory parent)) rest := by
    rw [follow, hvisit, hsegments]
    exact walkSegments_append_of_pass hplain (by decide) visit rest hpass
  rw [hwalk] at hfollow
  rcases walkSegments_of_climb visit (eq_empty_or_of_filter hrest hclimb)
    (placeOf directory parent) with h | ⟨_, _, h⟩
  · rw [h] at hfollow
    cases hfollow
  · rw [h] at hfollow
    cases hfollow

/-- The gap of a path that has a name behind its parent is at that name. -/
theorem gap_of_endsNowhere {before after : List String} {name : String} (hname : IsName name)
    (hthere : t.directory? (placeOf directory parent) ≠ none)
    (hdots : ∀ step ∈ before ++ after, step = ".")
    (hsteps : steps path = steps parent ++ before ++ name :: after) :
    Gap t (origin directory path) (steps parent ++ before) name := by
  obtain ⟨visit, _, rest, -, hrest, hwalk⟩ := exists_follow_eq hplain directory .entry hsteps
  have hbefore : t.pass (origin directory path) (steps parent ++ before) =
      t.pass (placeOf directory parent) before := by
    rw [pass_append, ← horigin, hpass]
    rfl
  rw [hwalk, hbefore] at hfollow
  rcases pass_current_cases (t := t) (fun step h => hdots step (List.mem_append_left _ h))
    (placeOf directory parent) with hstay | hdenied
  · have hplace : placeAfter (origin directory path) (steps parent ++ before) =
        placeOf directory parent := (pass_eq_ok (hbefore.trans hstay)).symm
    have hcurrent := eq_empty_or_of_filter hrest fun s hs => hdots s (List.mem_append_right _ hs)
    rw [hstay] at hfollow
    obtain ⟨hpassable, hshort, hmissing⟩ :=
      missing_of_walkSegments hname hthere hplain hcurrent hfollow
    rw [← hplace] at hthere hpassable hmissing
    exact ⟨hname, hshort, by rw [hbefore, hstay, hplace], hthere, hpassable, hmissing⟩
  · rw [hdenied] at hfollow
    cases hfollow

end Parents

/-- A path that leads nowhere although its parent is there has a gap at its file name. -/
theorem exists_gap (hplain : Plain t) {path parent : Path} (hparent : path.parent? = some parent)
    (hstart : t.isDirectoryAt (origin directory parent) = true)
    (hpass : t.pass (origin directory parent) (steps parent) = .ok (placeOf directory parent))
    (hfollow : EndsNowhere (t.follow directory .entry path)) :
    ∃ front name after, steps path = front ++ name :: after ∧
      Gap t (origin directory path) front name := by
  have horigin : origin directory parent = origin directory path := by
    rw [origin, origin, (Path.steps_parent?_prefix hparent).1]
  have hthere : t.directory? (placeOf directory parent) ≠ none :=
    isDirectoryAt_iff.mp (isDirectoryAt_of_pass hstart hpass List.prefix_rfl)
  cases hfile : path.fileName? with
  | none =>
    obtain ⟨climb, hclimb, hsteps⟩ := Path.steps_of_fileName?_eq_none hfile hparent
    exact (not_climb_of_endsNowhere hplain horigin hpass hfollow hsteps hclimb).elim
  | some name =>
    obtain ⟨hname, parent', hparent', -, before, after, hdots, hsteps⟩ :=
      Path.exists_parent?_of_fileName? hfile
    obtain rfl : parent' = parent := Option.some.inj (hparent'.symm.trans hparent)
    exact ⟨_, name, after, hsteps,
      gap_of_endsNowhere hplain horigin hpass hfollow hname hthere hdots hsteps⟩

/-! ### Out of reach -/

/-- A path goes on behind a name at which nothing stands. -/
def Beyond (t : FileTree) (directory : Place) (path : Path) : Prop :=
  ∃ front name after, Gap t (origin directory path) front name ∧
    steps path = front ++ name :: after ∧ after ≠ []

namespace Beyond

variable {path : Path} (h : Beyond t directory path)
include h

/-- Only where a path starts and its steps matter. -/
theorem congr {other : Path} (habsolute : other.isAbsolute = path.isAbsolute)
    (hsteps : steps other = steps path) : Beyond t directory other := by
  obtain ⟨front, name, after, hgap, hpath, hafter⟩ := h
  have horigin : origin directory other = origin directory path := by
    rw [origin, origin, habsolute]
  exact ⟨front, name, after, horigin ▸ hgap, hsteps.trans hpath, hafter⟩

theorem join_empty : Beyond t directory (path.join ⟨""⟩) := by
  refine h.congr (isAbsolute_join path rfl) ?_
  rw [steps_join path rfl]
  exact List.append_nil _

variable (hplain : Plain t)
include hplain

theorem follow_error (aim : Aim) : t.follow directory aim path = .error .noEntry := by
  obtain ⟨front, name, after, hgap, hsteps, hafter⟩ := h
  obtain ⟨step, rest, rfl⟩ := List.exists_cons_of_ne_nil hafter
  have hpass : t.pass (origin directory path) (front ++ [name]) = .error .noEntry := by
    rw [pass_append, hgap.passed, ok_bind, pass, (passStep_eq_noEntry_iff hgap.isName
      hgap.isDirectory).mpr ⟨hgap.isPassable, hgap.short, hgap.missing⟩]
    rfl
  have hsteps' : steps path = (front ++ [name]) ++ step :: rest := by
    rw [hsteps, List.append_assoc]
    rfl
  exact follow_of_pass_error hplain hsteps' hpass aim

theorem resolve_error (aim : Aim) : ∃ cause, t.resolve directory aim path = .error cause := by
  rw [resolve, h.follow_error hplain]
  cases refusal? path <;> exact ⟨_, rfl⟩

theorem find_error (aim : Aim) : ∃ cause, t.find directory aim path = .error cause := by
  obtain ⟨cause, hcause⟩ := h.resolve_error hplain aim
  exact ⟨cause, by rw [find, hcause]; rfl⟩

theorem openOutput_error : ∃ cause, t.openOutput directory path = .error cause := by
  obtain ⟨cause, hcause⟩ := h.resolve_error hplain .output
  exact ⟨cause, by rw [openOutput, hcause]; rfl⟩

theorem makeDirectory_error : ∃ cause, t.makeDirectory directory path = .error cause := by
  have hbare : Beyond t directory (withoutEndSlashes path) :=
    h.congr (isAbsolute_withoutEndSlashes path) (steps_withoutEndSlashes path)
  rw [makeDirectory, locate, hbare.follow_error hplain]
  cases refusal? path <;> exact ⟨_, rfl⟩

end Beyond

/-! ### Slashes after a name -/

/-- Behind the last name of a path with slashes at its end come empty segments. -/
theorem exists_follow_of_isSlashed (hplain : Plain t) (directory : Place) (aim : Aim) {path : Path}
    (h : IsSlashed path) {front : List String} {name : String} (hname : IsName name)
    (hsteps : steps path = front ++ [name]) :
    ∃ visit rest, rest ≠ [] ∧ (∀ segment ∈ rest, segment = "") ∧
      t.follow directory aim path = t.pass (origin directory path) front >>= fun place =>
        walkSegments t aim visit (.ofPlace t place) (name :: rest) := by
  obtain ⟨visit, before, rest, hsegments, hrest, hfollow⟩ :=
    exists_follow_eq hplain directory aim hsteps
  refine ⟨visit, rest, ?_, ?_, hfollow⟩
  · rintro rfl
    have hlast := h.getLast?_segments
    rw [hsegments, List.getLast?_concat, Option.some.injEq] at hlast
    exact hname.ne_empty hlast
  · simpa [List.filter_eq_nil_iff] using hrest

/-- No file is written to a path with slashes after a name. -/
theorem openOutput_of_isSlashed (hplain : Plain t) (directory : Place) {path : Path}
    (h : IsSlashed path) {front : List String} {name : String} (hname : IsName name)
    (hsteps : steps path = front ++ [name]) :
    ∃ cause, t.openOutput directory path = .error cause := by
  suffices hresolve : ∃ cause, t.resolve directory .output path = .error cause by
    obtain ⟨cause, hcause⟩ := hresolve
    exact ⟨cause, by rw [openOutput, hcause]; rfl⟩
  obtain ⟨visit, rest, hne, hvoid, hfollow⟩ :=
    exists_follow_of_isSlashed hplain directory .output h hname hsteps
  rw [resolve]
  cases refusal? path with
  | some cause => exact ⟨cause, rfl⟩
  | none =>
    simp only [hfollow]
    cases t.pass (origin directory path) front with
    | error cause => exact ⟨cause, rfl⟩
    | ok place =>
      have hall : rest.all (· = "") = true := by simpa using hvoid
      rw [ok_bind, walkSegments, if_neg hname.ne_empty]
      by_cases hpass : (!(Stand.ofPlace t place).isPassable) = true
      · exact ⟨_, if_pos hpass⟩
      · rw [if_neg hpass, if_neg hname.ne_current, if_neg hname.ne_up, if_pos ⟨rfl, hne, hall⟩]
        exact ⟨_, rfl⟩

/-- A path that follows a name from another path, perhaps with slashes after it, is not refused. -/
structure IsEntry (path base : Path) (name : String) : Prop where
  isName : IsName name
  short : name.utf8ByteSize ≤ nameLimit
  bare : withoutEndSlashes path = base.join ⟨name⟩
  accepted : refusal? path = none

namespace IsEntry

variable {path base : Path} {name : String} (h : IsEntry path base name)
include h

theorem isAbsolute_eq : path.isAbsolute = base.isAbsolute := by
  rw [← isAbsolute_withoutEndSlashes, h.bare, isAbsolute_join base h.isName.isAbsolute_eq]

theorem steps_eq : steps path = steps base ++ [name] := by
  rw [← steps_withoutEndSlashes, h.bare, steps_join base h.isName.isAbsolute_eq, h.isName.steps_eq]

theorem origin_eq (directory : Place) : origin directory path = origin directory base := by
  rw [origin, origin, h.isAbsolute_eq]

theorem placeOf_eq (directory : Place) :
    placeOf directory path = placeOf directory base ++ [name] := by
  rw [← placeOf_withoutEndSlashes, h.bare, placeOf_join_name directory base h.isName]

theorem text_ne_empty : path.text ≠ "" := by
  intro hempty
  have haccepted := h.accepted
  rw [refusal?, hempty] at haccepted
  cases haccepted

theorem refusal?_eq_none : refusal? (base.join ⟨name⟩) = none := by
  rw [← h.bare]
  exact refusal?_withoutEndSlashes h.accepted (by simp [h.steps_eq])

theorem lastStep_eq : ∃ slashed, lastStep path = .name slashed := by
  rw [lastStep, h.bare, getLast?_segments_join base h.isName]
  split
  · next hroot => exact absurd (Option.some.inj hroot) h.isName.ne_empty
  · next hcurrent => exact absurd (Option.some.inj hcurrent) h.isName.ne_current
  · next hup => exact absurd (Option.some.inj hup) h.isName.ne_up
  · exact ⟨_, rfl⟩

theorem locate_eq (t : FileTree) (directory : Place) :
    t.locate directory path = t.locate directory (base.join ⟨name⟩) := by
  rw [locate, locate, h.accepted, h.refusal?_eq_none, h.bare, withoutEndSlashes_join base h.isName]

/-- Slashes at the end do not matter when an empty directory is removed. -/
theorem removeDirectory_eq (t : FileTree) (directory : Place) :
    t.removeDirectory directory path = t.removeDirectory directory (base.join ⟨name⟩) := by
  obtain ⟨slashed, hlast⟩ := h.lastStep_eq
  rw [removeDirectory, removeDirectory, h.locate_eq, hlast, lastStep_join base h.isName]
  refine bind_congr_of_ok fun spot _ => ?_
  cases spot <;> rfl

variable (hplain : Plain t) (hway : HasWay t directory base)
include hplain hway

/-- The path leads nowhere if nothing stands there. -/
theorem find_of_missing (hnone : t.get? (placeOf directory base ++ [name]) = none) :
    ∃ cause, t.find directory .entry path = .error cause := by
  by_cases hslash : IsSlashed path
  · obtain ⟨visit, rest, hne, -, hfollow⟩ :=
      exists_follow_of_isSlashed hplain directory .entry hslash h.isName h.steps_eq
    have hstep : t.passStep (placeOf directory base) name = .error .noEntry :=
      (passStep_eq_noEntry_iff h.isName hway.isDirectory).mpr ⟨hway.isPassable, h.short, hnone⟩
    refine ⟨.noEntry, ?_⟩
    rw [find, resolve, h.accepted]
    simp only
    rw [hfollow, h.origin_eq, hway.passed, ok_bind,
      walkSegments_cons hplain visit (by simp) fun hnil => absurd hnil hne, hstep]
    rfl
  · rw [← withoutEndSlashes_of_not_isSlashed hslash, h.bare]
    refine (hway.find_error_iff hplain h.isName .entry).mpr (.inr (.inr ?_))
    rw [node?, hnone]
    rfl

/-- The path leads to the directory that stands there. -/
theorem find_of_directory {sub : FileTree}
    (hget : t.get? (placeOf directory base ++ [name]) = some sub) (hsub : sub.isDirectory = true) :
    t.find directory .entry path = .ok (placeOf directory base ++ [name], sub) := by
  have hstep : t.passStep (placeOf directory base) name =
      .ok (placeOf directory base ++ [name]) := by
    refine passStep_of_endAt h.isName ?_ hsub
    rcases hway.endAt_cases name with ⟨hlong, -⟩ | ⟨-, ⟨found, hfound, hend⟩ | ⟨hnone, -⟩⟩
    · exact absurd hlong (not_lt.mpr h.short)
    · rw [hget] at hfound
      cases hfound
      exact hend
    · rw [hget] at hnone
      cases hnone
  have hpass : t.pass (origin directory path) (segments path.text) =
      .ok (placeOf directory base ++ [name]) := by
    rw [← pass_filter, ← steps, h.steps_eq, pass_append, h.origin_eq, hway.passed, ok_bind, pass,
      hstep]
    rfl
  obtain ⟨visit, hvisit⟩ := walkLinks_eq t .entry linkLimit
  have hfollow := walkSegments_of_pass hplain (by decide : Aim.entry ≠ .output) visit hpass
  rw [find, resolve, h.accepted]
  simp only [follow, hvisit]
  rw [← origin, hfollow, Stand.here_ofPlace, hget]
  simp only [Option.filter, hsub]
  rfl

/-- A directory with everything in it is removed by a path with slashes at its end, too. -/
theorem removeTree_eq_ok (hclear : Clearable t) (hspares : Spares directory base name)
    {sub : FileTree} (hget : t.get? (placeOf directory base ++ [name]) = some sub)
    (hsub : sub.isDirectory = true) : ∃ t', t.removeTree directory path = (t', .ok ()) ∧
      t'.get? (placeOf directory base ++ [name]) = none := by
  have hbare : IsEntry (base.join ⟨name⟩) base name :=
    ⟨h.isName, h.short, withoutEndSlashes_join base h.isName, h.refusal?_eq_none⟩
  have hfind := hbare.find_of_directory hplain hway hget hsub
  have hsame : t.removeTree directory path = t.removeTree directory (base.join ⟨name⟩) := by
    rw [removeTree, removeTree, h.find_of_directory hplain hway hget hsub, hfind]
    simp only [h.removeDirectory_eq]
  rw [hsame]
  exact hway.removeTree_eq_ok hplain hclear h.isName hspares hfind hsub

end IsEntry

/-- A path that ends in its gap, up to slashes, follows the name from where there is a way. -/
theorem Gap.exists_isEntry {path : Path} {front : List String} {name : String}
    (h : Gap t (origin directory path) front name) (hsteps : steps path = front ++ [name])
    (haccepted : refusal? path = none) : ∃ base, IsEntry path base name ∧ HasWay t directory base ∧
      t.get? (placeOf directory base ++ [name]) = none := by
  obtain ⟨base, hbare, rfl, habsolute⟩ := exists_join_of_steps h.isName hsteps
  have horigin : origin directory path = origin directory base := by
    rw [origin, origin, habsolute]
  rw [horigin] at h
  exact ⟨base, ⟨h.isName, h.short, hbare, haccepted⟩, ⟨h.passed, h.isDirectory, h.isPassable⟩,
    h.missing⟩

/-- A way does not lead through a place where nothing stands. -/
theorem HasWay.spares {base : Path} {name : String} (h : HasWay t directory base)
    (hstart : t.isDirectoryAt (origin directory base) = true)
    (hmissing : t.get? (placeOf directory base ++ [name]) = none) :
    Spares directory base name := by
  intro front hfront hprefix
  have hthere := isDirectoryAt_of_pass hstart h.passed hfront
  obtain ⟨below, hbelow⟩ := hprefix
  rw [← hbelow, FileTree.isDirectoryAt, get?_append, hmissing] at hthere
  cases hthere

/-- No directory is made where one stands already. -/
theorem makeDirectory_of_pass (hplain : Plain t) {path : Path} {last : Place}
    (h : t.pass (origin directory path) (steps path) = .ok last) :
    ∃ cause, t.makeDirectory directory path = .error cause ∧
      (path.text ≠ "" → cause ≠ .noEntry) := by
  rw [makeDirectory, locate]
  cases hrefusal : refusal? path with
  | some cause =>
    refine ⟨cause, rfl, ?_⟩
    rintro htext rfl
    exact refusal?_ne_noEntry htext hrefusal
  | none =>
    obtain ⟨visit, hvisit⟩ := walkLinks_eq t .entry linkLimit
    have horigin : origin directory (withoutEndSlashes path) = origin directory path := by
      rw [origin, origin, isAbsolute_withoutEndSlashes]
    rw [← horigin, ← steps_withoutEndSlashes, steps, pass_filter] at h
    have hfollow := walkSegments_of_pass hplain (by decide : Aim.entry ≠ .output) visit h
    refine ⟨.alreadyExists, ?_, fun _ => by decide⟩
    simp only [follow, hvisit]
    rw [← origin, hfollow]
    rfl

/-- A file that may not be put out is not copied. -/
theorem copyFile_of_openOutput_error {source target : Path} {cause : Cause}
    (h : t.openOutput directory target = .error cause) :
    ∃ other, t.copyFile directory source target = .error other := by
  rw [copyFile, h]
  cases t.openFile directory source .notRegular <;> exact ⟨_, rfl⟩

end BridgingHeader.FileTree
