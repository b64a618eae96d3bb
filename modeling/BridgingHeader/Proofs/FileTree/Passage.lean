import BridgingHeader.Proofs.FileTree.Ways

/-!
# The way to the end of a path

Without links a path is followed in two parts. The way leads through directories to the one that
holds the last name, and what it meets are the entries at the places on it; the last name is then
looked up. Trees with the same entries on the way let the same paths through.
-/

namespace BridgingHeader.FileTree

/-- The directory at a place, if one stands there. -/
def directory? (t : FileTree) (place : Place) : Option FileTree :=
  (t.node? place).filter isDirectory

theorem isDirectoryAt_iff {t : FileTree} {place : Place} :
    t.isDirectoryAt place = true ↔ t.directory? place ≠ none := by
  rw [isDirectoryAt_eq, directory?]
  cases t.node? place with
  | none => simp
  | some node => simp [Option.filter]

/-- The directory at a place may be passed through. -/
def isPassableAt (t : FileTree) (place : Place) : Bool :=
  (t.directory? place).all fun directory => directory.permissions.executable

/-- The place to which a segment leads on the way to another one. -/
def passStep (t : FileTree) (place : Place) (segment : String) : Except Cause Place :=
  if segment = "" then .ok place
  else if !t.isPassableAt place then .error .permissionDenied
  else if segment = "." then .ok place
  else if segment = ".." then .ok place.dropLast
  else if t.directory? place = none then .error .noEntry
  else if segment.utf8ByteSize > nameLimit then .error .nameTooLong
  else
    match (t.node? (place ++ [segment])).map kind with
    | some .directory => .ok (place ++ [segment])
    | some _ => .error .notDirectory
    | none => .error .noEntry

/-- The place to which segments lead on the way to another one. -/
def pass (t : FileTree) : Place → List String → Except Cause Place
  | place, [] => .ok place
  | place, segment :: rest => do pass t (← t.passStep place segment) rest

/-- What a name at the end of a path stands for in the directory at a place. -/
def endAt (t : FileTree) (place : Place) (name : String) : Except Cause Spot :=
  if !t.isPassableAt place then .error .permissionDenied
  else if t.directory? place = none then .error .noEntry
  else if name.utf8ByteSize > nameLimit then .error .nameTooLong
  else
    match t.get? (place ++ [name]) with
    | some sub => .ok (.present (place ++ [name]) sub)
    | none => .ok (.vacant (place ++ [name]))

/-! ### The two parts of a walk -/

theorem Stand.isPassable_ofPlace (t : FileTree) (place : Place) :
    (Stand.ofPlace t place).isPassable = t.isPassableAt place := by
  rw [Stand.isPassable, Stand.here_ofPlace, isPassableAt, directory?, node?]
  cases t.get? place with
  | none => rfl
  | some sub => cases sub <;> rfl

theorem Stand.here_eq_none_iff (t : FileTree) (place : Place) :
    (Stand.ofPlace t place).here = none ↔ t.directory? place = none := by
  rw [Stand.here_ofPlace, directory?, node?]
  cases t.get? place with
  | none => simp
  | some sub => cases sub <;> simp [shallow, isDirectory, kind, Option.filter]

theorem kind_shallow (t : FileTree) : t.shallow.kind = t.kind := by
  cases t <;> rfl

/-- A segment that is no name leads on, or it may not be passed. -/
theorem walkSegments_of_not_isName {t : FileTree} {aim : Aim}
    (visit : Stand → List String → Except Cause Spot)
    {segment : String} (h : segment = "" ∨ segment = "." ∨ segment = "..") (place : Place)
    (rest : List String) :
    walkSegments t aim visit (.ofPlace t place) (segment :: rest) =
      t.passStep place segment >>= fun next => walkSegments t aim visit (.ofPlace t next) rest := by
  rw [walkSegments, passStep, Stand.isPassable_ofPlace, Stand.parent_ofPlace]
  by_cases hempty : segment = ""
  · rw [if_pos hempty, if_pos hempty]
    rfl
  rw [if_neg hempty, if_neg hempty]
  by_cases hpass : (!t.isPassableAt place) = true
  · rw [if_pos hpass, if_pos hpass]
    rfl
  rw [if_neg hpass, if_neg hpass]
  rcases h.resolve_left hempty with rfl | rfl
  · rfl
  · rfl

/-- A walk takes a segment as the way does, unless it ends there in another way. -/
theorem walkSegments_cons {t : FileTree} (hplain : Plain t) {aim : Aim}
    (visit : Stand → List String → Except Cause Spot) {place : Place} {segment : String}
    {rest : List String} (hoff : ¬ (aim = .output ∧ rest ≠ [] ∧ rest.all (· = "") = true))
    (hend : rest = [] → ∃ next, t.passStep place segment = .ok next) :
    walkSegments t aim visit (.ofPlace t place) (segment :: rest) =
      t.passStep place segment >>= fun next => walkSegments t aim visit (.ofPlace t next) rest := by
  by_cases hsegment : segment = "" ∨ segment = "." ∨ segment = ".."
  · exact walkSegments_of_not_isName visit hsegment place rest
  obtain ⟨hempty, hcurrent, hup⟩ : segment ≠ "" ∧ segment ≠ "." ∧ segment ≠ ".." := by
    simpa only [not_or] using hsegment
  rw [passStep, if_neg hempty] at hend ⊢
  rw [walkSegments, if_neg hempty, Stand.isPassable_ofPlace]
  by_cases hpass : (!t.isPassableAt place) = true
  · rw [if_pos hpass, if_pos hpass]
    rfl
  rw [if_neg hpass, if_neg hcurrent, if_neg hup] at hend ⊢
  rw [if_neg hpass, if_neg hcurrent, if_neg hup, if_neg hoff]
  rcases Stand.here_cases t place with ⟨hhere, -⟩ | ⟨permissions, items, hhere, hget⟩
  · rw [if_pos ((Stand.here_eq_none_iff t place).mp hhere), hhere]
    rfl
  have hdirectory : t.directory? place ≠ none :=
    mt (Stand.here_eq_none_iff t place).mpr (by rw [hhere]; simp)
  rw [if_neg hdirectory] at hend
  rw [if_neg hdirectory, hhere]
  by_cases hlong : segment.utf8ByteSize > nameLimit
  · simp only [if_pos hlong]
    rfl
  have hnode : (t.node? (place ++ [segment])).map kind = (items.lookup segment).map kind := by
    rw [node?, get?_concat, hget, Option.map_map]
    exact congrArg (fun f => Option.map f _) (funext kind_shallow)
  rw [if_neg hlong, hnode] at hend
  simp only [if_neg hlong]
  rw [hnode]
  cases hchild : items.lookup segment with
  | none =>
    have hrest : rest ≠ [] := by
      rintro rfl
      obtain ⟨next, hnext⟩ := hend rfl
      rw [hchild] at hnext
      cases hnext
    simp only [FileTree.children, hchild, if_neg hrest]
    rfl
  | some child =>
    cases child with
    | directory childPermissions childItems =>
      simp only [FileTree.children, hchild]
      rw [Stand.child_ofPlace hget hchild]
      rfl
    | file childPermissions contents =>
      have hrest : rest ≠ [] := by
        rintro rfl
        obtain ⟨next, hnext⟩ := hend rfl
        rw [hchild] at hnext
        cases hnext
      simp only [FileTree.children, hchild, if_neg hrest]
      rfl
    | link target =>
      exact absurd ((hplain.get? hget).of_mem (mem_of_lookup hchild)).here id

/-- A walk with a segment still before it goes on from where the way leads. -/
theorem walkSegments_append {t : FileTree} (hplain : Plain t) (aim : Aim)
    (visit : Stand → List String → Except Cause Spot) (place : Place) (front : List String)
    {rest : List String} (hrest : ∃ segment ∈ rest, segment ≠ "") :
    walkSegments t aim visit (.ofPlace t place) (front ++ rest) =
      t.pass place front >>= fun next => walkSegments t aim visit (.ofPlace t next) rest := by
  obtain ⟨other, hmem, hother⟩ := hrest
  induction front generalizing place with
  | nil => rfl
  | cons segment front ih =>
    have hmem' : other ∈ front ++ rest := List.mem_append_right _ hmem
    have hoff : ¬ (aim = .output ∧ front ++ rest ≠ [] ∧ (front ++ rest).all (· = "") = true) :=
      fun h => hother (by simpa using List.all_eq_true.mp h.2.2 other hmem')
    rw [List.cons_append, pass,
      walkSegments_cons hplain visit hoff fun hnil => absurd hnil (List.ne_nil_of_mem hmem')]
    cases t.passStep place segment with
    | error cause => rfl
    | ok next => exact ih next

/-- A walk that is let through goes on from where the way leads. -/
theorem walkSegments_append_of_pass {t : FileTree} (hplain : Plain t) {aim : Aim}
    (haim : aim ≠ .output) (visit : Stand → List String → Except Cause Spot) {place last : Place}
    {front : List String} (rest : List String) (h : t.pass place front = .ok last) :
    walkSegments t aim visit (.ofPlace t place) (front ++ rest) =
      walkSegments t aim visit (.ofPlace t last) rest := by
  induction front generalizing place with
  | nil =>
    cases h
    rfl
  | cons segment front ih =>
    obtain ⟨next, hstep, hfront⟩ := bind_eq_ok_iff.mp h
    rw [List.cons_append,
      walkSegments_cons hplain visit (fun hoff => haim hoff.1) fun _ => ⟨next, hstep⟩, hstep]
    exact ih hfront

/-- A walk that is let through ends where the way leads. -/
theorem walkSegments_of_pass {t : FileTree} (hplain : Plain t) {aim : Aim} (haim : aim ≠ .output)
    (visit : Stand → List String → Except Cause Spot) {place last : Place} {segments : List String}
    (h : t.pass place segments = .ok last) :
    walkSegments t aim visit (.ofPlace t place) segments =
      .ok (.present last ((Stand.ofPlace t last).here.getD empty)) := by
  have hwalk := walkSegments_append_of_pass hplain haim visit [] h
  rw [List.append_nil] at hwalk
  rw [hwalk, walkSegments, Stand.place_ofPlace]

/-- A walk along one name ends with it, whatever it is for. -/
theorem walkSegments_name {t : FileTree} (hplain : Plain t) (aim : Aim)
    (visit : Stand → List String → Except Cause Spot) (place : Place) {name : String}
    (hname : IsName name) :
    walkSegments t aim visit (.ofPlace t place) [name] = t.endAt place name := by
  rw [walkSegments, endAt, if_neg hname.ne_empty, Stand.isPassable_ofPlace]
  by_cases hpass : (!t.isPassableAt place) = true
  · rw [if_pos hpass, if_pos hpass]
  rw [if_neg hpass, if_neg hpass, if_neg hname.ne_current, if_neg hname.ne_up,
    if_neg fun hoff => hoff.2.1 rfl]
  rcases Stand.here_cases t place with ⟨hhere, -⟩ | ⟨permissions, items, hhere, hget⟩
  · rw [if_pos ((Stand.here_eq_none_iff t place).mp hhere), hhere]
  rw [if_neg (mt (Stand.here_eq_none_iff t place).mpr (by rw [hhere]; simp)), hhere]
  by_cases hlong : name.utf8ByteSize > nameLimit
  · simp only [if_pos hlong]
  simp only [if_neg hlong, if_true]
  rw [get?_concat, hget, Option.bind_some, Stand.place_ofPlace]
  cases hchild : (FileTree.directory permissions items).children.lookup name with
  | none => rfl
  | some child =>
    cases child with
    | directory childPermissions childItems =>
      simp only [walkSegments]
      rw [Stand.child_ofPlace hget hchild, Stand.place_ofPlace]
      have hhere' : (Stand.ofPlace t (place ++ [name])).here =
          some (.directory childPermissions childItems) := by
        rw [Stand.here_ofPlace, get?_concat, hget, Option.bind_some, hchild]
        rfl
      rw [hhere']
      rfl
    | file childPermissions contents => rfl
    | link target => exact absurd ((hplain.get? hget).of_mem (mem_of_lookup hchild)).here id

/-! ### Ways -/

theorem pass_append (t : FileTree) (place : Place) (front rest : List String) :
    t.pass place (front ++ rest) = t.pass place front >>= fun next => t.pass next rest := by
  induction front generalizing place with
  | nil => rfl
  | cons segment front ih =>
    rw [List.cons_append, pass, pass]
    cases t.passStep place segment with
    | error cause => rfl
    | ok next => exact ih next

/-- Empty segments do not matter on the way. -/
theorem pass_filter (t : FileTree) (place : Place) (segments : List String) :
    t.pass place (segments.filter (· ≠ "")) = t.pass place segments := by
  induction segments generalizing place with
  | nil => rfl
  | cons segment rest ih =>
    by_cases h : segment = ""
    · rw [List.filter_cons_of_neg (by simpa using h), ih, pass, passStep, if_pos h]
      rfl
    · rw [List.filter_cons_of_pos (by simpa using h), pass, pass]
      exact congrArg _ (funext ih)

theorem passStep_eq_ok {t : FileTree} {place next : Place} {segment : String}
    (h : t.passStep place segment = .ok next) : next = stepFrom place segment := by
  unfold passStep at h
  unfold stepFrom
  split at h
  · next hempty =>
    cases h
    rw [if_pos (.inl hempty)]
  next hempty =>
  split at h
  · cases h
  split at h
  · next hcurrent =>
    cases h
    rw [if_pos (.inr hcurrent)]
  next hcurrent =>
  rw [if_neg (not_or.mpr ⟨hempty, hcurrent⟩)]
  split at h
  · next hup =>
    cases h
    rw [if_pos hup]
  next hup =>
  rw [if_neg hup]
  split at h
  · cases h
  split at h
  · cases h
  split at h <;> cases h
  rfl

/-- Where the way leads is told by the segments. -/
theorem pass_eq_ok {t : FileTree} {place last : Place} {segments : List String}
    (h : t.pass place segments = .ok last) : last = placeAfter place segments := by
  induction segments generalizing place with
  | nil =>
    cases h
    rfl
  | cons segment rest ih =>
    obtain ⟨next, hstep, hrest⟩ := bind_eq_ok_iff.mp h
    rw [placeAfter_cons, ← passStep_eq_ok hstep]
    exact ih hrest

theorem passStep_congr {t t' : FileTree} {place : Place} {segment : String}
    (hhere : t'.node? place = t.node? place)
    (hnext : t'.node? (stepFrom place segment) = t.node? (stepFrom place segment)) :
    t'.passStep place segment = t.passStep place segment := by
  have hdirectory : t'.directory? place = t.directory? place := by
    rw [directory?, directory?, hhere]
  rw [passStep, passStep, isPassableAt, isPassableAt, hdirectory]
  split
  · rfl
  next hempty =>
  split
  · rfl
  split
  · rfl
  next hcurrent =>
  split
  · rfl
  next hup =>
  rw [stepFrom, if_neg (not_or.mpr ⟨hempty, hcurrent⟩), if_neg hup] at hnext
  rw [hnext]

/-- Trees with the same entries on the way let the same paths through. -/
theorem pass_congr {t t' : FileTree} {place : Place} {segments : List String}
    (h : ∀ front, front <+: segments →
      t'.node? (placeAfter place front) = t.node? (placeAfter place front)) :
    t'.pass place segments = t.pass place segments := by
  induction segments generalizing place with
  | nil => rfl
  | cons segment rest ih =>
    have hstep : t'.passStep place segment = t.passStep place segment :=
      passStep_congr (h [] List.nil_prefix) (h [segment] (by simp))
    rw [pass, pass, hstep]
    cases hnext : t.passStep place segment with
    | error cause => rfl
    | ok next =>
      refine ih fun front hfront => ?_
      rw [passStep_eq_ok hnext, ← placeAfter_cons]
      exact h _ (List.prefix_cons_inj segment |>.mpr hfront)

/-! ### Paths that end in a name -/

theorem exists_segments_join (base : Path) {name : String} (hname : IsName name) :
    ∃ front, segments (base.join ⟨name⟩).text = front ++ [name] ∧
      front.filter (· ≠ "") = steps base := by
  rcases Path.text_join_name base hname with ⟨hempty, hjoin⟩ | ⟨front, htext, hbase⟩
  · refine ⟨[], ?_, ?_⟩
    · rw [hjoin, segments_of_no_slash hname.no_slash, List.nil_append]
    · rw [steps, hempty]
      rfl
  · refine ⟨segments (String.ofList front), ?_, ?_⟩
    · rw [← segments_of_no_slash hname.no_slash, ← segments_append]
      refine congrArg segments (String.toList_inj.mp ?_)
      simpa using htext
    · rcases hbase with hbase | hbase
      · rw [steps, ← hbase, String.ofList_toList]
      · have htext' : base.text = String.ofList front ++ "/" ++ "" :=
          String.toList_inj.mp (by simpa using hbase)
        rw [steps_of_text_eq htext', steps]
        simp [steps, segments, Text.pieces]

/-- A path that ends in a name is followed along its way, and then the name is looked up. -/
theorem follow_join {t : FileTree} (hplain : Plain t) (directory : Place) (aim : Aim) (base : Path)
    {name : String} (hname : IsName name) :
    t.follow directory aim (base.join ⟨name⟩) =
      t.pass (origin directory base) (steps base) >>= fun place => t.endAt place name := by
  obtain ⟨visit, hvisit⟩ := walkLinks_eq t aim linkLimit
  obtain ⟨front, hsegments, hfront⟩ := exists_segments_join base hname
  rw [follow, hvisit, hsegments, isAbsolute_join base hname.isAbsolute_eq,
    walkSegments_append hplain _ _ _ _ ⟨name, by simp, hname.ne_empty⟩, ← hfront, pass_filter]
  exact congrArg _ (funext fun place => walkSegments_name hplain aim visit place hname)

/-- The entries of a directory can be reached by a path that names the directory. -/
structure HasWay (t : FileTree) (directory : Place) (base : Path) : Prop where
  passed : t.pass (origin directory base) (steps base) = .ok (placeOf directory base)
  isDirectory : t.directory? (placeOf directory base) ≠ none
  isPassable : t.isPassableAt (placeOf directory base) = true

/-- The way ends before a directory that is not there. -/
def Missing (t : FileTree) (place : Place) (segments : List String) : Prop :=
  t.pass place segments = .error .noEntry ∨
    ∃ last, t.pass place segments = .ok last ∧ t.directory? last = none

variable {t t' : FileTree} {directory : Place} {base : Path}

theorem HasWay.congr (h : HasWay t directory base)
    (hnodes : ∀ front, front <+: steps base → t'.node? (placeAfter (origin directory base) front) =
      t.node? (placeAfter (origin directory base) front)) : HasWay t' directory base := by
  have hbase : t'.directory? (placeOf directory base) = t.directory? (placeOf directory base) := by
    rw [directory?, directory?, placeOf, hnodes _ List.prefix_rfl]
  refine ⟨(pass_congr hnodes).trans h.passed, hbase ▸ h.isDirectory, ?_⟩
  rw [isPassableAt, hbase]
  exact h.isPassable

/-- Where there is a way depends on where it starts only. -/
theorem HasWay.of_origin_eq {directory' : Place} (h : HasWay t directory base)
    (horigin : origin directory' base = origin directory base) : HasWay t directory' base := by
  have hplace : placeOf directory' base = placeOf directory base := by
    rw [placeOf, placeOf, horigin]
  constructor
  case passed =>
    rw [horigin, hplace]
    exact h.passed
  case isDirectory =>
    rw [hplace]
    exact h.isDirectory
  case isPassable =>
    rw [hplace]
    exact h.isPassable

/-- Where there is a way, a name is too long, or it is there or not as the tree has it. -/
theorem HasWay.endAt_cases (h : HasWay t directory base) (name : String) :
    (nameLimit < name.utf8ByteSize ∧
      t.endAt (placeOf directory base) name = .error .nameTooLong) ∨
    name.utf8ByteSize ≤ nameLimit ∧
      ((∃ sub, t.get? (placeOf directory base ++ [name]) = some sub ∧
        t.endAt (placeOf directory base) name =
          .ok (.present (placeOf directory base ++ [name]) sub)) ∨
      t.get? (placeOf directory base ++ [name]) = none ∧
        t.endAt (placeOf directory base) name =
          .ok (.vacant (placeOf directory base ++ [name]))) := by
  rw [endAt, if_neg (by simp [h.isPassable]), if_neg h.isDirectory]
  by_cases hlong : name.utf8ByteSize > nameLimit
  · exact .inl ⟨hlong, if_pos hlong⟩
  · rw [if_neg hlong]
    refine .inr ⟨not_lt.mp hlong, ?_⟩
    cases t.get? (placeOf directory base ++ [name]) with
    | some sub => exact .inl ⟨sub, rfl, rfl⟩
    | none => exact .inr ⟨rfl, rfl⟩

theorem HasWay.follow_join (hplain : Plain t) (h : HasWay t directory base) (aim : Aim)
    {name : String} (hname : IsName name) : t.follow directory aim (base.join ⟨name⟩) =
      t.endAt (placeOf directory base) name := by
  rw [FileTree.follow_join hplain directory aim base hname, h.passed]
  rfl

/-- Where there is no way, all names are out of reach for one cause. -/
theorem hasWay_or_error (hplain : Plain t) (directory : Place) (base : Path) :
    HasWay t directory base ∨ ∃ cause, (∀ aim name, IsName name →
        t.follow directory aim (base.join ⟨name⟩) = .error cause) ∧
      (cause = .noEntry → Missing t (origin directory base) (steps base)) := by
  cases hpass : t.pass (origin directory base) (steps base) with
  | error cause =>
    refine .inr ⟨cause, fun aim name hname => ?_, ?_⟩
    · rw [follow_join hplain directory aim base hname, hpass]
      rfl
    · rintro rfl
      exact .inl hpass
  | ok last =>
    obtain rfl : last = placeOf directory base := pass_eq_ok hpass
    by_cases hpassable : t.isPassableAt (placeOf directory base) = true
    · by_cases hdirectory : t.directory? (placeOf directory base) = none
      · refine .inr ⟨.noEntry, fun aim name hname => ?_, fun _ => .inr ⟨_, hpass, hdirectory⟩⟩
        rw [follow_join hplain directory aim base hname, hpass]
        change t.endAt (placeOf directory base) name = _
        rw [endAt, if_neg (by simp [hpassable]), if_pos hdirectory]
      · exact .inl ⟨hpass, hdirectory, hpassable⟩
    · refine .inr ⟨.permissionDenied, fun aim name hname => ?_, nofun⟩
      rw [follow_join hplain directory aim base hname, hpass]
      change t.endAt (placeOf directory base) name = _
      rw [endAt, if_pos (by simpa using hpassable)]

/-! ### Missing directories -/

theorem missing_iff_of_pass {place last : Place} {segments : List String}
    (h : t.pass place segments = .ok last) :
    Missing t place segments ↔ t.directory? last = none := by
  rw [Missing, h]
  simp

/-- Segments that stay do not help. -/
theorem Missing.append_current {place : Place} {front dots : List String}
    (h : Missing t place front) (hdots : ∀ segment ∈ dots, segment = ".") :
    Missing t place (front ++ dots) := by
  rcases h with herror | ⟨last, hlast, hnone⟩
  · left
    rw [pass_append, herror]
    rfl
  · refine .inr ⟨last, ?_, hnone⟩
    rw [pass_append, hlast]
    change t.pass last dots = .ok last
    induction dots with
    | nil => rfl
    | cons segment rest ih =>
      have hstep : t.passStep last segment = .ok last := by
        rw [hdots segment List.mem_cons_self, passStep, isPassableAt, hnone]
        rfl
      rw [pass, hstep]
      exact ih fun s hs => hdots s (List.mem_cons_of_mem _ hs)

/-- A path whose way is missing leads nowhere. -/
theorem Missing.find_error (hplain : Plain t) {path : Path} {front after : List String}
    {name : String} (h : Missing t (origin directory path) front) (hname : IsName name)
    (hsteps : steps path = front ++ name :: after) {aim : Aim} (haim : aim ≠ .output) :
    ∃ cause, t.find directory aim path = .error cause := by
  obtain ⟨visit, hvisit⟩ := walkLinks_eq t aim linkLimit
  obtain ⟨before, rest, hsegments, hbefore, hrest⟩ := List.filter_eq_append_iff.mp hsteps
  obtain ⟨void, last, rfl, hvoid, -, -⟩ := List.filter_eq_cons_iff.mp hrest
  have hfollow : t.follow directory aim path = .error .noEntry := by
    rw [follow, hvisit, hsegments]
    change walkSegments t aim visit (.ofPlace t (origin directory path)) _ = _
    rw [walkSegments_append hplain _ _ _ _ ⟨name, by simp, hname.ne_empty⟩, ← pass_filter, hbefore]
    rcases h with herror | ⟨place, hplace, hnone⟩
    · rw [herror]
      rfl
    · rw [hplace]
      change walkSegments t aim visit (.ofPlace t place) (void ++ name :: last) = _
      have hvoid' : void.filter (· ≠ "") = [] := by
        simpa [List.filter_eq_nil_iff] using hvoid
      rw [walkSegments_append hplain _ _ _ _ ⟨name, by simp, hname.ne_empty⟩, ← pass_filter, hvoid']
      change walkSegments t aim visit (.ofPlace t place) (name :: last) = _
      rw [walkSegments, if_neg hname.ne_empty, Stand.isPassable_ofPlace, isPassableAt, hnone,
        if_neg (by simp), if_neg hname.ne_current, if_neg hname.ne_up,
        if_neg fun hoff => haim hoff.1, (Stand.here_eq_none_iff t place).mpr hnone]
  rw [find, resolve]
  cases refusal? path with
  | some cause => exact ⟨cause, rfl⟩
  | none => exact ⟨.noEntry, by rw [hfollow]; rfl⟩

/-- Something stands below a place only if a directory stands there. -/
theorem exists_directory_of_get? {place : Place} {name : String} {rest : Place} {sub : FileTree}
    (h : t.get? (place ++ name :: rest) = some sub) :
    ∃ permissions items child, t.get? place = some (.directory permissions items) ∧
      t.get? (place ++ [name]) = some child ∧ child.get? rest = some sub := by
  rw [get?_append, Option.bind_eq_some_iff] at h
  obtain ⟨here, hhere, h⟩ := h
  rw [get?, Option.bind_eq_some_iff] at h
  obtain ⟨child, hchild, hsub⟩ := h
  cases here with
  | directory permissions items =>
    exact ⟨permissions, items, child, hhere, by rw [get?_concat, hhere]; exact hchild, hsub⟩
  | file permissions contents => cases hchild
  | link target => cases hchild

theorem exists_directory_of_prefix {place rest : Place} {permissions : Permissions}
    {items : List (String × FileTree)}
    (h : t.get? (place ++ rest) = some (.directory permissions items)) :
    ∃ permissions items, t.get? place = some (.directory permissions items) := by
  cases rest with
  | nil => exact ⟨permissions, items, by rwa [List.append_nil] at h⟩
  | cons name rest =>
    obtain ⟨permissions, items, _, hget, -⟩ := exists_directory_of_get? h
    exact ⟨permissions, items, hget⟩

/-- Something stands below the root only if that is a directory. -/
theorem isDirectory_of_below {place : Place} {sub : FileTree} (hplace : place ≠ [])
    (h : t.get? place = some sub) : t.isDirectory = true := by
  obtain ⟨name, rest, rfl⟩ := List.exists_cons_of_ne_nil hplace
  change t.get? ([] ++ name :: rest) = some sub at h
  obtain ⟨_, _, _, hroot, -⟩ := exists_directory_of_get? h
  exact isDirectory_of_get? hroot

theorem directory?_of_get? {place : Place} {permissions : Permissions}
    {items : List (String × FileTree)} (h : t.get? place = some (.directory permissions items)) :
    t.directory? place = some (.directory permissions []) := by
  rw [directory?, node?, h]
  rfl

/-- The way down to a directory of the tree is not missing. -/
theorem not_missing_of_get? (hplain : Plain t) {place names : Place} {permissions : Permissions}
    {items : List (String × FileTree)}
    (h : t.get? (place ++ names) = some (.directory permissions items)) :
    ¬ Missing t place names := by
  induction names generalizing place with
  | nil =>
    rw [List.append_nil] at h
    rw [missing_iff_of_pass (rfl : t.pass place [] = .ok place), directory?_of_get? h]
    simp
  | cons name rest ih =>
    obtain ⟨herePermissions, hereItems, child, hhere, -⟩ := exists_directory_of_get? h
    have hname : IsName name := hplain.isName_of_get? h name (by simp)
    have hnext : t.get? ((place ++ [name]) ++ rest) = some (.directory permissions items) := by
      rw [List.append_assoc]
      exact h
    have hkind : (t.node? (place ++ [name])).map kind = some .directory := by
      obtain ⟨_, _, hdirectory⟩ := exists_directory_of_prefix hnext
      rw [node?, hdirectory]
      rfl
    have hdirectory := directory?_of_get? hhere
    rw [Missing, pass, passStep, if_neg hname.ne_empty]
    by_cases hpass : (!t.isPassableAt place) = true
    · rw [if_pos hpass]
      rintro (h | ⟨last, h, -⟩) <;> cases h
    rw [if_neg hpass, if_neg hname.ne_current, if_neg hname.ne_up, if_neg (by simp [hdirectory])]
    by_cases hlong : name.utf8ByteSize > nameLimit
    · rw [if_pos hlong]
      rintro (h | ⟨last, h, -⟩) <;> cases h
    rw [if_neg hlong, hkind]
    exact ih hnext

theorem Missing.of_append {place : Place} {front rest : List String}
    (h : Missing t place (front ++ rest)) (hfront : ¬ Missing t place front) :
    Missing t (placeAfter place front) rest := by
  rw [Missing, pass_append] at h
  cases hpass : t.pass place front with
  | error cause =>
    rw [hpass] at h
    rcases h with h | ⟨last, h, -⟩ <;> cases h
    exact absurd (.inl hpass) hfront
  | ok next =>
    rw [hpass] at h
    rw [← pass_eq_ok hpass]
    exact h

/-- If the way to the entries beside a path is missing, then the path leads nowhere, also when it is
followed from the working directory instead of the root. -/
theorem find_error_of_missing (hplain : Plain t) {path source base : Path} {name : String}
    (hsource : path = source ∨ source.isAbsolute = false ∧ t.isDirectoryAt directory = true ∧
      path = (pathOf directory).join source)
    (hname : path.fileName? = some name) (hbase : path.parent? = some base)
    (hmissing : Missing t (origin directory base) (steps base)) {aim : Aim} (haim : aim ≠ .output) :
    ∃ cause, t.find directory aim source = .error cause := by
  obtain ⟨hisName, base', hbase', habsolute, before, after, hdots, hsteps⟩ :=
    Path.exists_parent?_of_fileName? hname
  obtain rfl : base' = base := Option.some.inj (hbase'.symm.trans hbase)
  have hway : Missing t (origin directory path) (steps base' ++ before) := by
    rw [origin, ← habsolute]
    exact hmissing.append_current fun step hstep => hdots step (List.mem_append_left _ hstep)
  rcases hsource with rfl | ⟨hrelative, hdirectory, rfl⟩
  · exact hway.find_error hplain hisName hsteps haim
  · rcases Stand.here_cases t directory with ⟨-, hnone⟩ | ⟨permissions, items, -, hget⟩
    · rw [hnone] at hdirectory
      cases hdirectory
    have hnames := hplain.isName_of_get? hget
    rw [steps_join _ hrelative, steps_pathOf hnames] at hsteps
    rw [origin, isAbsolute_join _ hrelative, isAbsolute_pathOf] at hway
    rcases List.append_eq_append_iff.mp hsteps with ⟨rest, hfront, hrest⟩ | ⟨rest, hfront, -⟩
    · rw [hfront] at hway
      have hdown := hway.of_append (not_missing_of_get? hplain hget)
      rw [if_pos rfl, placeAfter_names _ hnames, List.nil_append] at hdown
      have horigin : origin directory source = directory := by
        rw [origin, hrelative]
        rfl
      exact (horigin ▸ hdown).find_error hplain hisName hrest haim
    · -- The way goes no further down than the working directory.
      rw [hfront] at hget
      obtain ⟨above, entries, habove⟩ := exists_directory_of_prefix hget
      have hroot : t.get? ([] ++ (steps base' ++ before)) = some (.directory above entries) := habove
      exact absurd hway (not_missing_of_get? hplain hroot)

end BridgingHeader.FileTree
