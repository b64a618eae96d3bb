import BridgingHeader.Proofs.FileTree.Changes
import BridgingHeader.Proofs.FileTree.Passage

/-!
# Clearing entries

The entry to which a path with a name at its end leads can be removed from a tree that can be
cleared, whatever stands there. This takes that the way to the entry does not lead through it, since
it has to be walked again when the entry is empty.
-/

namespace BridgingHeader.FileTree

/-! ### Paths that end in a name -/

section Names

variable (base : Path) {name : String} (hname : IsName name)
include hname

theorem exists_text_join : ∃ front c,
    (base.join ⟨name⟩).text.toList = front ++ [c] ∧ c ≠ '/' := by
  have hne : name.toList ≠ [] := fun hnil => hname.ne_empty (String.toList_inj.mp hnil)
  obtain ⟨init, c, hinit⟩ := (List.eq_nil_or_concat' name.toList).resolve_left hne
  have hc : c ≠ '/' := by
    rintro rfl
    exact hname.no_slash (by simp [hinit])
  rcases Path.text_join_name base hname with ⟨-, hjoin⟩ | ⟨front, htext, -⟩
  · exact ⟨init, c, by rw [hjoin, hinit], hc⟩
  · exact ⟨front ++ '/' :: init, c, by simp [htext, hinit], hc⟩

theorem text_join_ne_empty : (base.join ⟨name⟩).text ≠ "" := by
  obtain ⟨front, c, htext, -⟩ := exists_text_join base hname
  intro hempty
  rw [hempty] at htext
  simp at htext

theorem withoutEndSlashes_join : withoutEndSlashes (base.join ⟨name⟩) = base.join ⟨name⟩ := by
  obtain ⟨front, c, htext, hc⟩ := exists_text_join base hname
  have hkept : ((base.join ⟨name⟩).text.toList.reverse.dropWhile (· = '/')).reverse =
      (base.join ⟨name⟩).text.toList := by
    rw [htext, List.reverse_concat, List.dropWhile_cons_of_neg (by simpa using hc)]
    simp
  rw [withoutEndSlashes, hkept, if_neg (by simp [htext]), String.ofList_toList]

theorem join_empty_eq : (base.join ⟨name⟩).join ⟨""⟩ = ⟨(base.join ⟨name⟩).text ++ "/"⟩ := by
  obtain ⟨front, c, htext, hc⟩ := exists_text_join base hname
  have hlast : (front ++ [c]).getLast? ≠ some '/' := by simpa using hc
  rw [Path.join.eq_def (base.join ⟨name⟩), if_neg (by simp [htext, Path.isAbsolute]),
    if_neg (by rw [htext]; exact hlast)]
  exact congrArg Path.mk (String.append_empty)

theorem withoutEndSlashes_join_empty :
    withoutEndSlashes ((base.join ⟨name⟩).join ⟨""⟩) = base.join ⟨name⟩ := by
  obtain ⟨front, c, htext, hc⟩ := exists_text_join base hname
  have hkept : (((base.join ⟨name⟩).text ++ "/").toList.reverse.dropWhile (· = '/')).reverse =
      (base.join ⟨name⟩).text.toList := by
    rw [String.toList_append, htext]
    simp [hc]
  rw [join_empty_eq base hname, withoutEndSlashes, hkept, if_neg (by simp [htext]),
    String.ofList_toList]

theorem getLast?_segments_join : (segments (base.join ⟨name⟩).text).getLast? = some name := by
  obtain ⟨front, hsegments, -⟩ := exists_segments_join base hname
  rw [hsegments, List.getLast?_concat]

theorem lastStep_join : lastStep (base.join ⟨name⟩) = .name false := by
  rw [lastStep, withoutEndSlashes_join base hname, getLast?_segments_join base hname]
  split
  · next h => exact absurd (Option.some.inj h) hname.ne_empty
  · next h => exact absurd (Option.some.inj h) hname.ne_current
  · next h => exact absurd (Option.some.inj h) hname.ne_up
  · simp

end Names

theorem refusal?_ne_noEntry {path : Path} (h : path.text ≠ "") : refusal? path ≠ some .noEntry := by
  rw [refusal?, if_neg h]
  split
  · nofun
  · split <;> nofun

/-! ### Removing -/

theorem isChangeable_of_clearable {t : FileTree} (h : Clearable t) {place : Place} {name : String}
    {sub : FileTree} (hget : t.get? (place ++ [name]) = some sub) :
    t.isChangeable (place ++ [name]) = true := by
  obtain ⟨permissions, items, child, hdirectory, hchild, -⟩ := exists_directory_of_get? hget
  obtain ⟨-, hitems⟩ := (h.get? hdirectory).here
  rw [isChangeable, List.dropLast_concat, hdirectory]
  rcases hitems with rfl | ⟨hwritable, -⟩
  · rw [get?_concat, hdirectory] at hchild
    cases hchild
  · exact hwritable

/-- The way to the entries beside a path does not lead through one of them, or below it. -/
def Spares (directory : Place) (base : Path) (name : String) : Prop :=
  ∀ front, front <+: steps base →
    ¬ placeOf directory base ++ [name] <+: placeAfter (origin directory base) front

variable {t t' : FileTree} {directory : Place} {base : Path} {name : String}

theorem HasWay.of_changed (h : HasWay t directory base) (hspares : Spares directory base name)
    (hchanged : Changed t (placeOf directory base ++ [name]) t') : HasWay t' directory base :=
  h.congr fun front hfront => hchanged.entries _ (hspares front hfront)

/-- A path with a name at its end is refused, or it leads to where the way ends. -/
theorem HasWay.resolve_cases (hplain : Plain t) (h : HasWay t directory base)
    (hname : IsName name) :
    (∃ cause, refusal? (base.join ⟨name⟩) = some cause ∧
      (∀ aim, t.resolve directory aim (base.join ⟨name⟩) = .error cause) ∧
      t.locate directory (base.join ⟨name⟩) = .error cause) ∨
    refusal? (base.join ⟨name⟩) = none ∧
      (∀ aim, t.resolve directory aim (base.join ⟨name⟩) = t.endAt (placeOf directory base) name) ∧
      t.locate directory (base.join ⟨name⟩) = t.endAt (placeOf directory base) name := by
  cases hrefusal : refusal? (base.join ⟨name⟩) with
  | some cause =>
    refine .inl ⟨cause, rfl, fun aim => ?_, ?_⟩
    · rw [resolve, hrefusal]
    · rw [locate, hrefusal]
  | none =>
    refine .inr ⟨rfl, fun aim => ?_, ?_⟩
    · rw [resolve, hrefusal]
      exact h.follow_join hplain aim hname
    · rw [locate, hrefusal, withoutEndSlashes_join base hname]
      exact h.follow_join hplain .entry hname

/-- A path with a name at its end leads nowhere exactly if it is refused, the name is too long, or
nothing stands there. -/
theorem HasWay.find_error_iff (hplain : Plain t) (h : HasWay t directory base)
    (hname : IsName name) (aim : Aim) :
    (∃ cause, t.find directory aim (base.join ⟨name⟩) = .error cause) ↔
      refusal? (base.join ⟨name⟩) ≠ none ∨ nameLimit < name.utf8ByteSize ∨
        t.node? (placeOf directory base ++ [name]) = none := by
  rw [find]
  rcases h.resolve_cases hplain hname with ⟨cause, hrefusal, hresolve, -⟩ | ⟨hrefusal, hresolve, -⟩
  · rw [hresolve, hrefusal]
    exact iff_of_true ⟨cause, rfl⟩ (.inl (by simp))
  rw [hresolve, hrefusal]
  rcases h.endAt_cases name with ⟨hlong, hend⟩ | ⟨hshort, ⟨sub, hget, hend⟩ | ⟨hget, hend⟩⟩
  · rw [hend]
    exact iff_of_true ⟨_, rfl⟩ (.inr (.inl hlong))
  · rw [hend, node?, hget]
    refine iff_of_false ?_ (by simp [hshort])
    rintro ⟨_, ⟨⟩⟩
  · rw [hend, node?, hget]
    exact iff_of_true ⟨_, rfl⟩ (.inr (.inr rfl))

/-- What a path with a name at its end leads to stands at the place that its text tells. -/
theorem HasWay.of_find_ok (hplain : Plain t) (h : HasWay t directory base) (hname : IsName name)
    {aim : Aim} {place : Place} {sub : FileTree}
    (hfind : t.find directory aim (base.join ⟨name⟩) = .ok (place, sub)) :
    place = placeOf directory base ++ [name] ∧
      t.get? (placeOf directory base ++ [name]) = some sub ∧
      refusal? (base.join ⟨name⟩) = none ∧ name.utf8ByteSize ≤ nameLimit := by
  rw [find] at hfind
  rcases h.resolve_cases hplain hname with ⟨cause, -, hresolve, -⟩ | ⟨hrefusal, hresolve, -⟩
  · rw [hresolve] at hfind
    cases hfind
  rw [hresolve] at hfind
  rcases h.endAt_cases name with ⟨-, hend⟩ | ⟨hshort, ⟨found, hget, hend⟩ | ⟨-, hend⟩⟩
  · rw [hend] at hfind
    cases hfind
  · rw [hend] at hfind
    cases hfind
    exact ⟨rfl, hget, hrefusal, hshort⟩
  · rw [hend] at hfind
    cases hfind

/-- Where something stands at the end of a path, that is what is meant by its last name. -/
theorem HasWay.locate_of_get? (hplain : Plain t) (h : HasWay t directory base) (hname : IsName name)
    {sub : FileTree} (hget : t.get? (placeOf directory base ++ [name]) = some sub)
    (hrefusal : refusal? (base.join ⟨name⟩) = none) (hshort : name.utf8ByteSize ≤ nameLimit) :
    t.locate directory (base.join ⟨name⟩) =
      .ok (.present (placeOf directory base ++ [name]) sub) := by
  rcases h.resolve_cases hplain hname with ⟨cause, hrefused, -⟩ | ⟨-, -, hlocate⟩
  · rw [hrefusal] at hrefused
    cases hrefused
  rw [hlocate]
  rcases h.endAt_cases name with ⟨hlong, -⟩ | ⟨-, ⟨found, hfound, hend⟩ | ⟨hnone, -⟩⟩
  · exact absurd hlong (not_lt.mpr hshort)
  · rw [hget] at hfound
    cases hfound
    exact hend
  · rw [hget] at hnone
    cases hnone

/-- Where something stands at the end of a path, the path leads to it. -/
theorem HasWay.find_of_get? (hplain : Plain t) (h : HasWay t directory base) (hname : IsName name)
    {sub : FileTree} (hget : t.get? (placeOf directory base ++ [name]) = some sub)
    (hrefusal : refusal? (base.join ⟨name⟩) = none) (hshort : name.utf8ByteSize ≤ nameLimit)
    (aim : Aim) : t.find directory aim (base.join ⟨name⟩) =
      .ok (placeOf directory base ++ [name], sub) := by
  rcases h.resolve_cases hplain hname with ⟨cause, hrefused, -⟩ | ⟨-, hresolve, -⟩
  · rw [hrefusal] at hrefused
    cases hrefused
  rw [find, hresolve]
  rcases h.endAt_cases name with ⟨hlong, -⟩ | ⟨-, ⟨found, hfound, hend⟩ | ⟨hnone, -⟩⟩
  · exact absurd hlong (not_lt.mpr hshort)
  · rw [hget] at hfound
    cases hfound
    rw [hend]
    rfl
  · rw [hget] at hnone
    cases hnone

/-- What stands at a place can be changed there. -/
theorem get?_alter_of_get? {place : Place} {sub : FileTree} (hplace : place ≠ [])
    (h : t.get? place = some sub) (change : Option FileTree → Option FileTree) :
    (t.alter place change).get? place = change (some sub) := by
  obtain ⟨parent, name, rfl⟩ := (List.eq_nil_or_concat' place).resolve_left hplace
  obtain ⟨permissions, items, -, hparent, -⟩ := exists_directory_of_get? h
  have hthere : t.isDirectoryAt (parent ++ [name]).dropLast = true := by
    rw [List.dropLast_concat, FileTree.isDirectoryAt, hparent]
    rfl
  rw [get?_alter_self hthere hplace, h]

theorem get?_remove {place : Place} {sub : FileTree} (hplace : place ≠ [])
    (h : t.get? place = some sub) : (t.remove place).get? place = none :=
  get?_alter_of_get? hplace h _

/-- Nothing stands any more where a file was removed. -/
theorem HasWay.removeFile_eq_ok (hplain : Plain t) (hclear : Clearable t)
    (h : HasWay t directory base) (hname : IsName name) {aim : Aim} {place : Place}
    {sub : FileTree} (hfind : t.find directory aim (base.join ⟨name⟩) = .ok (place, sub))
    (hfile : sub.isDirectory = false) : ∃ t', t.removeFile directory (base.join ⟨name⟩) = .ok t' ∧
      t'.get? (placeOf directory base ++ [name]) = none := by
  obtain ⟨-, hget, hrefusal, hshort⟩ := h.of_find_ok hplain hname hfind
  refine ⟨_, ?_, get?_remove (by simp) hget⟩
  rw [removeFile, h.locate_of_get? hplain hname hget hrefusal hshort, lastStep_join base hname]
  simp [bind, Except.bind, pure, Except.pure, isChangeable_of_clearable hclear hget, hfile]

/-- Nothing stands any more where a directory was removed with everything in it. -/
theorem HasWay.removeTree_eq_ok (hplain : Plain t) (hclear : Clearable t)
    (h : HasWay t directory base) (hname : IsName name) (hspares : Spares directory base name)
    {place : Place} {sub : FileTree}
    (hfind : t.find directory .entry (base.join ⟨name⟩) = .ok (place, sub))
    (hdirectory : sub.isDirectory = true) :
    ∃ t', t.removeTree directory (base.join ⟨name⟩) = (t', .ok ()) ∧
      t'.get? (placeOf directory base ++ [name]) = none := by
  obtain ⟨rfl, hget, hrefusal, hshort⟩ := h.of_find_ok hplain hname hfind
  have hchanged := Changed.emptied hplain hget
  cases sub with
  | file _ _ => cases hdirectory
  | link _ => cases hdirectory
  | directory permissions items =>
    have hempty : emptied (.directory permissions items) = (.directory permissions [], .ok ()) :=
      Prod.ext (Clearable.emptied_fst (hclear.get? hget)) (Clearable.emptied (hclear.get? hget))
    obtain ⟨cleared, hcleared⟩ : ∃ cleared, t.alter (placeOf directory base ++ [name])
      (Option.map fun _ => .directory permissions []) = cleared := ⟨_, rfl⟩
    have hleft : cleared.get? (placeOf directory base ++ [name]) =
        some (.directory permissions []) := by
      rw [← hcleared, get?_alter_of_get? (by simp) hget]
      rfl
    rw [hempty, hcleared] at hchanged
    have hway := h.of_changed hspares hchanged
    have hremoved : cleared.removeDirectory directory (base.join ⟨name⟩) =
        .ok (cleared.remove (placeOf directory base ++ [name])) := by
      rw [removeDirectory, hway.locate_of_get? hchanged.plain hname hleft hrefusal hshort,
        lastStep_join base hname]
      simp [bind, Except.bind, pure, Except.pure, FileTree.isDirectory, FileTree.kind,
        FileTree.children, isChangeable_of_clearable (hchanged.clearable hclear) hleft]
    refine ⟨_, ?_, get?_remove (by simp) hleft⟩
    rw [removeTree, hfind]
    simp only [hempty, hcleared, hremoved]
    rfl

/-! ### Directories on the way -/

/-- Where there is a way, making a directory at its end does not fail because something on the way
is not there. -/
theorem HasWay.makeDirectory_ne_noEntry (hplain : Plain t) (h : HasWay t directory base)
    (hname : IsName name) {path : Path} (htext : path.text ≠ "")
    (hpath : withoutEndSlashes path = base.join ⟨name⟩) :
    t.makeDirectory directory path ≠ .error .noEntry := by
  rw [makeDirectory, locate]
  cases hrefusal : refusal? path with
  | some cause =>
    intro hnone
    cases hnone
    exact refusal?_ne_noEntry htext hrefusal
  | none =>
    simp only [hpath, h.follow_join hplain .entry hname]
    rcases h.endAt_cases name with ⟨-, hend⟩ | ⟨-, ⟨sub, -, hend⟩ | ⟨-, hend⟩⟩
    · rw [hend]
      nofun
    · rw [hend]
      nofun
    · rw [hend]
      simp only [bind, Except.bind]
      split <;> nofun

/-- A path that can be passed leads somewhere, unless it is refused. -/
theorem find_cases_of_pass (hplain : Plain t) {path : Path} {last : Place}
    (h : t.pass (origin directory path) (steps path) = .ok last) :
    (∃ cause, refusal? path = some cause) ∨ ∃ found, t.find directory .target path = .ok found := by
  cases hrefusal : refusal? path with
  | some cause => exact .inl ⟨cause, rfl⟩
  | none =>
    rw [steps, pass_filter] at h
    obtain ⟨visit, hvisit⟩ := walkLinks_eq t .target linkLimit
    have hfollow := walkSegments_of_pass hplain (by decide : Aim.target ≠ .output) visit h
    refine .inr ⟨(last, (Stand.ofPlace t last).here.getD empty), ?_⟩
    rw [find, resolve, hrefusal]
    simp only [follow, hvisit]
    rw [← origin, hfollow]
    rfl

/-- The parent of a path with a name at its end is there if there is a way to that end. -/
theorem HasWay.parent_cases (hplain : Plain t) (h : HasWay t directory base) (hname : IsName name)
    {parent : Path} (hparent : (base.join ⟨name⟩).parent? = some parent) :
    (∃ cause, refusal? parent = some cause) ∨
      ∃ found, t.find directory .target parent = .ok found := by
  obtain ⟨habsolute, dots, -, hsteps⟩ := Path.steps_parent?_join base hname hparent
  have hpassed := h.passed
  rw [hsteps, pass_append] at hpassed
  obtain ⟨last, hlast, -⟩ := bind_eq_ok_iff.mp hpassed
  have horigin : origin directory parent = origin directory base := by
    rw [origin, origin, habsolute]
  rw [← horigin] at hlast
  exact find_cases_of_pass hplain hlast

end BridgingHeader.FileTree
