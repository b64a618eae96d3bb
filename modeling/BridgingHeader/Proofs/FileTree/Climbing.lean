import Mathlib.Data.List.Induction
import Mathlib.Data.List.Infix
import BridgingHeader.Proofs.FileTree.Vacancies

/-!
# Paths that climb

A path may climb out of a directory again. As long as it does so only where a directory stands that
is not touched, the way to its end can be walked as far as that end is there. Then nothing is found
by the path exactly if nothing stands where it leads, and what is removed by the path is gone.
-/

namespace BridgingHeader.FileTree

variable {t t' : FileTree} {directory place : Place} {path : Path}

/-! ### Where a way ends -/

theorem passStep_cases {next : Place} {segment : String}
    (h : t.passStep place segment = .ok next) : next <+: place ∨ t.isDirectoryAt next = true := by
  unfold passStep at h
  split at h
  · cases h
    exact .inl List.prefix_rfl
  split at h
  · cases h
  split at h
  · cases h
    exact .inl List.prefix_rfl
  split at h
  · cases h
    exact .inl (List.dropLast_prefix place)
  split at h
  · cases h
  split at h
  · cases h
  split at h
  · next hkind =>
    cases h
    exact .inr (isDirectoryAt_iff.mpr ((kind_eq_directory_iff t _).mp hkind))
  · cases h
  · cases h

/-- A way ends in a directory, or it has only climbed from where it started. -/
theorem pass_cases {last : Place} {segments : List String}
    (h : t.pass place segments = .ok last) : last <+: place ∨ t.isDirectoryAt last = true := by
  induction segments generalizing place with
  | nil =>
    cases h
    exact .inl List.prefix_rfl
  | cons segment rest ih =>
    obtain ⟨next, hstep, hrest⟩ := bind_eq_ok_iff.mp h
    rcases ih hrest with hclimb | hlast
    · rcases passStep_cases hstep with hup | hnext
      · exact .inl (hclimb.trans hup)
      · exact .inr (isDirectoryAt_of_below hnext hclimb)
    · exact .inr hlast

/-- What a path leads to stands there, unless the path leads to a directory that was removed. -/
theorem get?_of_find (hplain : Plain t) {aim : Aim} (haim : aim ≠ .output) {found : Place}
    {sub : FileTree} (hfind : t.find directory aim path = .ok (found, sub))
    (hend : placeOf directory path <+: origin directory path →
      t.isDirectoryAt (placeOf directory path) = true) :
    found = placeOf directory path ∧ t.get? (placeOf directory path) = some sub := by
  obtain ⟨rfl, hget | ⟨rfl, hnone⟩⟩ := fits_of_find hplain hfind
  · exact ⟨rfl, hget⟩
  · have hthere : t.isDirectoryAt (placeOf directory path) = true :=
      (pass_cases (pass_of_find hplain haim hfind rfl)).elim hend id
    rw [hnone] at hthere
    cases hthere

theorem passStep_ne_noEntry {segment : String} (h : t.isDirectoryAt place = true)
    (hnext : t.isDirectoryAt (stepFrom place segment) = true) :
    t.passStep place segment ≠ .error .noEntry := by
  rw [isDirectoryAt_iff] at h hnext
  unfold stepFrom at hnext
  unfold passStep
  split
  · nofun
  next hempty =>
  split
  · nofun
  split
  · nofun
  next hcurrent =>
  rw [if_neg (not_or.mpr ⟨hempty, hcurrent⟩)] at hnext
  split
  · nofun
  next hup =>
  rw [if_neg hup] at hnext
  split
  · nofun
  rw [(kind_eq_directory_iff t _).mpr hnext]
  nofun

/-- A way that leads only to directories does not end because nothing is there. -/
theorem pass_ne_noEntry {segments : List String}
    (h : ∀ front, front <+: segments → t.isDirectoryAt (placeAfter place front) = true) :
    t.pass place segments ≠ .error .noEntry := by
  induction segments generalizing place with
  | nil => nofun
  | cons segment rest ih =>
    have hnext : t.isDirectoryAt (stepFrom place segment) = true := h [segment] (by simp)
    rw [pass]
    cases hstep : t.passStep place segment with
    | error cause =>
      rintro ⟨⟩
      exact passStep_ne_noEntry (h [] List.nil_prefix) hnext hstep
    | ok next =>
      obtain rfl := passStep_eq_ok hstep
      exact ih fun front hfront => h (segment :: front) ((List.prefix_cons_inj segment).mpr hfront)

/-! ### Ends of paths -/

theorem text_ne_empty_of_steps (h : steps path ≠ []) : path.text ≠ "" := by
  intro hempty
  rw [steps, hempty] at h
  exact h rfl

/-- A path takes some steps and then a name, with nothing but `.` behind it. -/
structure LeadsTo (path : Path) (front : List String) (name : String) : Prop where
  isName : IsName name
  steps_eq : ∃ after, (∀ step ∈ after, step = ".") ∧ steps path = front ++ name :: after

/-- A path leads to a name, it climbs at its end, or it stays where it starts. -/
theorem leadsTo_cases (path : Path) : (∃ front name, LeadsTo path front name) ∨
    (∃ front after, (∀ step ∈ after, step = ".") ∧ steps path = front ++ ".." :: after) ∨
      ∀ step ∈ steps path, step = "." := by
  have hsteps : ∀ step ∈ steps path, step ≠ "" ∧ '/' ∉ step.toList := by
    intro step hstep
    obtain ⟨hmem, hne⟩ := List.mem_filter.mp hstep
    exact ⟨by simpa using hne, no_slash_of_mem_segments hmem⟩
  suffices h : ∀ list : List String, (∀ step ∈ list, step ≠ "" ∧ '/' ∉ step.toList) →
      (∀ step ∈ list, step = ".") ∨ ∃ front last after, (∀ step ∈ after, step = ".") ∧
        list = front ++ last :: after ∧ (last = ".." ∨ IsName last) by
    rcases h _ hsteps with hstay | ⟨front, last, after, hafter, heq, rfl | hname⟩
    · exact .inr (.inr hstay)
    · exact .inr (.inl ⟨front, after, hafter, heq⟩)
    · exact .inl ⟨front, last, hname, after, hafter, heq⟩
  intro list hlist
  induction list using List.reverseRecOn with
  | nil => exact .inl nofun
  | append_singleton init last ih =>
    obtain ⟨hempty, hslash⟩ := hlist last (by simp)
    by_cases hcurrent : last = "."
    · rcases ih fun step hstep => hlist step (by simp [hstep]) with
        hstay | ⟨front, last', after, hafter, heq, hend⟩
      · left
        simpa [or_imp, forall_and] using ⟨hstay, hcurrent⟩
      · refine .inr ⟨front, last', after ++ [last], ?_, by simp [heq], hend⟩
        simpa [or_imp, forall_and] using ⟨hafter, hcurrent⟩
    · refine .inr ⟨init, last, [], nofun, rfl, ?_⟩
      by_cases hup : last = ".."
      · exact .inl hup
      · exact .inr ⟨hempty, hcurrent, hup, hslash⟩

namespace LeadsTo

variable {front : List String} {name : String} (h : LeadsTo path front name)
include h

theorem placeOf_eq (directory : Place) :
    placeOf directory path = placeAfter (origin directory path) front ++ [name] := by
  obtain ⟨after, hafter, hsteps⟩ := h.steps_eq
  rw [placeOf, hsteps, placeAfter_append, placeAfter_cons, h.isName.stepFrom_eq,
    placeAfter_current _ hafter]

theorem placeOf_ne_nil (directory : Place) : placeOf directory path ≠ [] := by
  simp [h.placeOf_eq]

theorem steps_ne_nil : steps path ≠ [] := by
  obtain ⟨after, -, hsteps⟩ := h.steps_eq
  simp [hsteps]

theorem text_ne_empty : path.text ≠ "" := text_ne_empty_of_steps h.steps_ne_nil

theorem of_steps {other : Path} (hsteps : steps other = steps path) : LeadsTo other front name :=
  ⟨h.isName, hsteps ▸ h.steps_eq⟩

theorem prefix_steps : front ++ [name] <+: steps path := by
  obtain ⟨after, -, hsteps⟩ := h.steps_eq
  exact ⟨after, by rw [hsteps, List.append_assoc, List.singleton_append]⟩

end LeadsTo

/-! ### Climbing -/

/-- Segments lead down from a place, or they climb from there or from below it. -/
theorem prefix_placeAfter_or (place : Place) (segments : List String) :
    place <+: placeAfter place segments ∨
      ∃ front, front ++ [".."] <+: segments ∧ place <+: placeAfter place front := by
  induction segments generalizing place with
  | nil => exact .inl List.prefix_rfl
  | cons segment rest ih =>
    by_cases hup : segment = ".."
    · exact .inr ⟨[], by simp [hup], List.prefix_rfl⟩
    have hstep : place <+: stepFrom place segment := by
      unfold stepFrom
      split
      · exact List.prefix_rfl
      · exact List.prefix_append _ _
    rcases ih (stepFrom place segment) with hdown | ⟨front, hfront, hclimb⟩
    · exact .inl (hstep.trans hdown)
    · exact .inr ⟨segment :: front, (List.prefix_cons_inj segment).mpr hfront, hstep.trans hclimb⟩

/-- A path starts in a directory, and wherever it climbs it does so from a directory that is there
and is not the one to which it leads, or below that. -/
structure SureFooted (t : FileTree) (directory : Place) (path : Path) : Prop where
  start : t.isDirectoryAt (origin directory path) = true
  climbs : ∀ front, front ++ [".."] <+: steps path →
    t.isDirectoryAt (placeAfter (origin directory path) front) = true ∧
      ¬ placeOf directory path <+: placeAfter (origin directory path) front

/-- Where a path climbs can be read off the beginnings of its steps. -/
theorem sureFooted_iff : SureFooted t directory path ↔
    t.isDirectoryAt (origin directory path) = true ∧
      ∀ beginning ∈ (steps path).inits, beginning.getLast? = some ".." →
        t.isDirectoryAt (placeAfter (origin directory path) beginning.dropLast) = true ∧
          ¬ placeOf directory path <+: placeAfter (origin directory path) beginning.dropLast := by
  constructor
  · rintro ⟨hstart, hclimbs⟩
    refine ⟨hstart, fun beginning hbeginning hup => hclimbs _ ?_⟩
    obtain ⟨front, rfl⟩ := List.getLast?_eq_some_iff.mp hup
    rw [List.dropLast_concat]
    exact (List.mem_inits _ _).mp hbeginning
  · rintro ⟨hstart, hclimbs⟩
    refine ⟨hstart, fun front hfront => ?_⟩
    have hclimb := hclimbs _ ((List.mem_inits _ _).mpr hfront) List.getLast?_concat
    rwa [List.dropLast_concat] at hclimb

instance : Decidable (SureFooted t directory path) := decidable_of_iff' _ sureFooted_iff

namespace SureFooted

variable {front way : List String} {name : String} (h : SureFooted t directory path)
include h

/-- A path leads down from a place on its way, or a directory stands there. -/
theorem onWay {rest : List String} (hway : way ++ rest <+: steps path) :
    placeAfter (origin directory path) way <+: placeAfter (origin directory path) (way ++ rest) ∨
      t.isDirectoryAt (placeAfter (origin directory path) way) = true ∧
        ¬ placeOf directory path <+: placeAfter (origin directory path) way := by
  rw [placeAfter_append]
  refine (prefix_placeAfter_or _ rest).imp_right ?_
  rintro ⟨climb, hclimb, hbelow⟩
  have hsteps : (way ++ climb) ++ [".."] <+: steps path := by
    rw [List.append_assoc]
    exact ((List.prefix_append_right_inj way).mpr hclimb).trans hway
  obtain ⟨hthere, hapart⟩ := h.climbs _ hsteps
  rw [placeAfter_append] at hthere hapart
  exact ⟨isDirectoryAt_of_below hthere hbelow, fun habove => hapart (habove.trans hbelow)⟩

/-- A sure-footed path leads to a name, or it stays where it starts. -/
theorem leadsTo_or : (∃ front name, LeadsTo path front name) ∨ ∀ step ∈ steps path, step = "." := by
  rcases leadsTo_cases path with hleads | ⟨front, after, hafter, hsteps⟩ | hstay
  · exact .inl hleads
  · -- The path would lead to above where it has climbed from.
    obtain ⟨-, hapart⟩ := h.climbs front ⟨after, by rw [hsteps, List.append_assoc]; rfl⟩
    refine absurd ?_ hapart
    rw [placeOf, hsteps, placeAfter_append, placeAfter_cons, placeAfter_current _ hafter]
    exact List.dropLast_prefix _
  · exact .inr hstay

variable (hleads : LeadsTo path front name)
include hleads

/-- The way to the name leads down to the directory of the name, or through directories that are
not touched. -/
theorem onWay_front (hway : way <+: front) :
    placeAfter (origin directory path) way <+: placeAfter (origin directory path) front ∨
      t.isDirectoryAt (placeAfter (origin directory path) way) = true ∧
        ¬ placeOf directory path <+: placeAfter (origin directory path) way := by
  obtain ⟨rest, rfl⟩ := hway
  exact h.onWay ((List.prefix_append _ _).trans hleads.prefix_steps)

/-- The way to the name does not lead through what stands at its end. -/
theorem apart (hway : way <+: front) :
    ¬ placeOf directory path <+: placeAfter (origin directory path) way := by
  rcases h.onWay_front hleads hway with hdown | ⟨-, hapart⟩
  · intro habove
    have hlength := (habove.trans hdown).length_le
    rw [hleads.placeOf_eq, List.length_append, List.length_singleton] at hlength
    omega
  · exact hapart

theorem apart_origin : ¬ placeOf directory path <+: origin directory path :=
  h.apart hleads List.nil_prefix

/-- If the directory of the name is there, then the way to it leads through directories. -/
theorem isDirectoryAt (hthere : t.isDirectoryAt (placeAfter (origin directory path) front) = true)
    (hway : way <+: front) : t.isDirectoryAt (placeAfter (origin directory path) way) = true :=
  (h.onWay_front hleads hway).elim (isDirectoryAt_of_below hthere) And.left

/-- A path is as sure in a tree that is the same away from its end. -/
theorem of_nodes (hnodes : ∀ other, ¬ placeOf directory path <+: other →
    t'.node? other = t.node? other) : SureFooted t' directory path where
  start := by
    rw [isDirectoryAt_eq, hnodes _ (h.apart_origin hleads), ← isDirectoryAt_eq]
    exact h.start
  climbs way hway := by
    obtain ⟨hthere, hapart⟩ := h.climbs way hway
    refine ⟨?_, hapart⟩
    rw [isDirectoryAt_eq, hnodes _ hapart, ← isDirectoryAt_eq]
    exact hthere

omit hleads in
/-- Only where a path starts and its steps matter. -/
theorem congr {directory' : Place} {other : Path}
    (horigin : origin directory' other = origin directory path)
    (hsteps : steps other = steps path) : SureFooted t directory' other := by
  have hplace : placeOf directory' other = placeOf directory path := by
    rw [placeOf, placeOf, horigin, hsteps]
  constructor
  case start =>
    rw [horigin]
    exact h.start
  case climbs =>
    rw [hsteps, horigin, hplace]
    exact h.climbs

/-! ### Removing -/

variable (hplain : Plain t)
include hplain

/-- If following the path ends because nothing is there, then nothing stands where it leads. -/
theorem get?_eq_none (hfollow : EndsNowhere (t.follow directory .entry path)) :
    t.get? (placeOf directory path) = none := by
  rw [hleads.placeOf_eq]
  obtain ⟨after, hafter, hsteps⟩ := hleads.steps_eq
  by_cases hthere : t.isDirectoryAt (placeAfter (origin directory path) front) = true
  · obtain ⟨visit, before, rest, -, hrest, hwalk⟩ :=
      exists_follow_eq hplain directory .entry hsteps
    rw [hwalk] at hfollow
    cases hpass : t.pass (origin directory path) front with
    | error cause =>
      have hcause : cause ≠ .noEntry := by
        rintro rfl
        exact pass_ne_noEntry (fun way hway => h.isDirectoryAt hleads hthere hway) hpass
      rw [hpass] at hfollow
      cases cause <;> first | exact absurd rfl hcause | cases hfollow
    | ok last =>
      rw [hpass, ok_bind, pass_eq_ok hpass] at hfollow
      exact (missing_of_walkSegments hleads.isName (isDirectoryAt_iff.mp hthere) hplain
        (eq_empty_or_of_filter hrest hafter) hfollow).2.2
  · -- Nothing stands in a directory that is not there.
    cases hget : t.get? (placeAfter (origin directory path) front ++ [name]) with
    | none => rfl
    | some sub =>
      obtain ⟨permissions, items, -, hparent, -⟩ := exists_directory_of_get? hget
      rw [FileTree.isDirectoryAt, hparent] at hthere
      exact absurd rfl hthere

/-- What the path leads to stands there. -/
theorem get?_of_find {aim : Aim} (haim : aim ≠ .output) {found : Place} {sub : FileTree}
    (hfind : t.find directory aim path = .ok (found, sub)) :
    found = placeOf directory path ∧ t.get? (placeOf directory path) = some sub :=
  FileTree.get?_of_find hplain haim hfind fun habove => absurd habove (h.apart_origin hleads)

end SureFooted

/-- A file that was removed is gone. -/
theorem get?_of_removeFile (hplain : Plain t) (hplace : placeOf directory path ≠ [])
    (h : t.removeFile directory path = .ok t') : t'.get? (placeOf directory path) = none := by
  obtain ⟨spot, hspot, h⟩ := bind_eq_ok_iff.mp h
  have hfits := fits_of_locate hplain hspot
  split at h
  · cases h
  · next found sub slashed =>
    obtain ⟨rfl, hget⟩ := hfits
    obtain ⟨-, h⟩ := of_guard_eq_ok h
    obtain ⟨-, h⟩ := of_guard_eq_ok h
    obtain ⟨hfile, h⟩ := of_guard_eq_ok h
    cases h
    rcases hget with hget | ⟨rfl, -⟩
    · exact get?_remove hplace hget
    · exact absurd rfl hfile
  · cases h

/-- A directory that was removed is gone. -/
theorem get?_of_removeDirectory (hplain : Plain t) (hplace : placeOf directory path ≠ [])
    {sub : FileTree} (hget : t.get? (placeOf directory path) = some sub)
    (h : t.removeDirectory directory path = .ok t') : t'.get? (placeOf directory path) = none := by
  obtain ⟨spot, hspot, h⟩ := bind_eq_ok_iff.mp h
  have hfits := fits_of_locate hplain hspot
  split at h <;> try cases h
  obtain ⟨rfl, -⟩ := hfits
  obtain ⟨-, h⟩ := of_guard_eq_ok h
  obtain ⟨-, h⟩ := of_guard_eq_ok h
  obtain ⟨-, h⟩ := of_guard_eq_ok h
  cases h
  exact get?_remove hplace hget

/-- No directory is found to be removed only if following the path ends because nothing is there. -/
theorem endsNowhere_of_removeDirectory (htext : path.text ≠ "")
    (h : t.removeDirectory directory path = .error .noEntry) :
    EndsNowhere (t.follow directory .entry (withoutEndSlashes path)) := by
  rw [removeDirectory, locate] at h
  cases hrefusal : refusal? path with
  | some cause =>
    rw [hrefusal] at h
    cases h
    exact absurd hrefusal (refusal?_ne_noEntry htext)
  | none =>
    rw [hrefusal] at h
    simp only at h
    cases hfollow : t.follow directory .entry (withoutEndSlashes path) with
    | error cause =>
      rw [hfollow] at h
      cases h
      trivial
    | ok spot =>
      rw [hfollow, ok_bind] at h
      cases spot with
      | vacant place => trivial
      | present place sub =>
        split at h
        · cases h
        · cases h
        · cases h
        · next hspot _ _ _ => cases hspot
        · split at h
          · cases h
          split at h
          · cases h
          split at h <;> cases h

/-- A directory that was removed with everything in it is gone. -/
theorem SureFooted.get?_of_removeTree {front : List String} {name : String}
    (h : SureFooted t directory path) (hleads : LeadsTo path front name) (hplain : Plain t)
    (hremoved : t.removeTree directory path = (t', .ok ())) :
    t'.get? (placeOf directory path) = none := by
  unfold removeTree at hremoved
  split at hremoved
  · cases hremoved
  next found sub hfind =>
  split at hremoved
  · cases hremoved
  obtain ⟨rfl, hget⟩ := h.get?_of_find hleads hplain (by decide) hfind
  have hchanged := Changed.emptied hplain hget
  have hleft : (t.alter (placeOf directory path) (Option.map fun _ => (emptied sub).1)).get?
      (placeOf directory path) = some (emptied sub).1 := by
    rw [get?_alter_of_get? (hleads.placeOf_ne_nil directory) hget]
    rfl
  dsimp only at hremoved
  split at hremoved
  · cases hremoved
  split at hremoved
  · next removed hempty =>
    cases hremoved
    exact get?_of_removeDirectory hchanged.plain (hleads.placeOf_ne_nil directory) hleft hempty
  · -- The way to the directory is still open when everything in it is gone.
    next hmissing =>
    have horigin : origin directory (withoutEndSlashes path) = origin directory path := by
      rw [origin, origin, isAbsolute_withoutEndSlashes]
    have hbare :=
      (h.of_nodes hleads hchanged.entries).congr horigin (steps_withoutEndSlashes path)
    have hnone := hbare.get?_eq_none (hleads.of_steps (steps_withoutEndSlashes path)) hchanged.plain
      (endsNowhere_of_removeDirectory hleads.text_ne_empty hmissing)
    rw [placeOf_withoutEndSlashes, hleft] at hnone
    cases hnone
  · cases hremoved

/-! ### Paths that stay -/

section Staying

variable (h : ∀ step ∈ steps path, step = ".")
include h

theorem not_endsNowhere_of_current (aim : Aim) : ¬ EndsNowhere (t.follow directory aim path) := by
  obtain ⟨visit, hvisit⟩ := walkLinks_eq t aim linkLimit
  have hclimb : ∀ segment ∈ segments path.text, segment = "" ∨ segment = "." ∨ segment = ".." :=
    eq_empty_or_of_filter rfl fun step hstep => .inl (h step hstep)
  rw [follow, hvisit]
  rcases walkSegments_of_climb visit hclimb _ with hdenied | ⟨_, _, hfound⟩
  · rw [hdenied]
    exact id
  · rw [hfound]
    exact id

theorem lastStep_of_current : lastStep path = .root ∨ lastStep path = .current := by
  have hbare : ∀ step ∈ steps (withoutEndSlashes path), step = "." := by
    rwa [steps_withoutEndSlashes]
  rw [lastStep]
  cases hlast : (segments (withoutEndSlashes path).text).getLast? with
  | none =>
    simp [segments, Text.pieces_ne_nil] at hlast
  | some last =>
    by_cases hempty : last = ""
    · left
      simp [hempty]
    · right
      have hcurrent : last = "." := hbare last (List.mem_filter.mpr
        ⟨List.mem_of_mem_getLast? hlast, by simpa using hempty⟩)
      simp [hcurrent]

/-- Nothing is removed by a path that stays where it starts. -/
theorem removeFile_of_current : t.removeFile directory path ≠ .ok t' := by
  intro hremoved
  obtain ⟨spot, -, hremoved⟩ := bind_eq_ok_iff.mp hremoved
  rcases lastStep_of_current h with hlast | hlast <;>
    rw [hlast] at hremoved <;> cases spot <;> cases hremoved

theorem removeDirectory_of_current : t.removeDirectory directory path ≠ .ok t' := by
  intro hremoved
  obtain ⟨spot, -, hremoved⟩ := bind_eq_ok_iff.mp hremoved
  rcases lastStep_of_current h with hlast | hlast <;>
    rw [hlast] at hremoved <;> cases spot <;> cases hremoved

theorem removeTree_of_current (htext : path.text ≠ "") :
    t.removeTree directory path ≠ (t', .ok ()) := by
  intro hremoved
  unfold removeTree at hremoved
  split at hremoved
  · cases hremoved
  split at hremoved
  · cases hremoved
  dsimp only at hremoved
  split at hremoved
  · cases hremoved
  split at hremoved
  · next hempty => exact removeDirectory_of_current h hempty
  · next hmissing =>
    refine not_endsNowhere_of_current ?_ .entry (endsNowhere_of_removeDirectory htext hmissing)
    rwa [steps_withoutEndSlashes]
  · cases hremoved

end Staying

/-- A tree after what stood at a place was removed. -/
structure Cleared (t : FileTree) (place : Place) (t' : FileTree) : Prop
    extends Changed t place t' where
  missing : t'.get? place = none

end BridgingHeader.FileTree
