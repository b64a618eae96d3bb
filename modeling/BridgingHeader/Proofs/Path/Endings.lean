import BridgingHeader.Proofs.Path.Segments

/-!
# The ends of paths

A path may go on behind its last name with slashes. What comes before the name is a path again, and
a path that does not end in a name only climbs from its parent.
-/

namespace BridgingHeader

namespace FileTree

/-! ### Slashes at the end -/

/-- A slash stands at the end of a path. -/
def IsSlashed (path : Path) : Prop := path.text.toList.getLast? = some '/'

/-- Slashes are only taken away from a path that has them at its end. -/
theorem withoutEndSlashes_of_not_isSlashed {path : Path} (h : ¬ IsSlashed path) :
    withoutEndSlashes path = path := by
  have hkept : (path.text.toList.reverse.dropWhile (· = '/')).reverse = path.text.toList := by
    rw [IsSlashed, ← List.head?_reverse] at h
    cases hreverse : path.text.toList.reverse with
    | nil => simpa using hreverse
    | cons c rest =>
      rw [hreverse] at h
      have hc : c ≠ '/' := fun hc => h (congrArg some hc)
      rw [List.dropWhile_cons_of_neg (by simpa using hc), ← hreverse, List.reverse_reverse]
  rw [withoutEndSlashes, hkept, if_neg, String.ofList_toList]
  rintro ⟨hnil, hne⟩
  exact hne (String.toList_inj.mp hnil)

theorem isSlashed_join_empty {path : Path} (h : path.text ≠ "") :
    IsSlashed (path.join ⟨""⟩) := by
  rw [Path.join_of_ne_empty rfl h, IsSlashed]
  by_cases hlast : path.text.toList.getLast? = some '/'
  · rw [if_pos hlast]
    simpa using hlast
  · rw [if_neg hlast]
    simp

/-- The last segment of a path with a slash at its end is empty. -/
theorem IsSlashed.getLast?_segments {path : Path} (h : IsSlashed path) :
    (segments path.text).getLast? = some "" := by
  obtain ⟨front, hfront⟩ := List.getLast?_eq_some_iff.mp h
  rw [segments, hfront, Text.pieces_append_cons, List.map_append]
  simp [Text.pieces]

theorem not_isSlashed_withoutEndSlashes {path : Path} (h : steps path ≠ []) :
    ¬ IsSlashed (withoutEndSlashes path) := by
  obtain ⟨c, kept, hkept⟩ : ∃ c kept, path.text.toList.reverse.dropWhile (· = '/') = c :: kept := by
    refine List.exists_cons_of_ne_nil fun hnil => h ?_
    rw [← steps_withoutEndSlashes, withoutEndSlashes, hnil]
    split <;> rfl
  have hc : c ≠ '/' := by
    have hhead := List.head?_dropWhile_not (· = '/') path.text.toList.reverse
    rw [hkept] at hhead
    simpa using hhead
  rw [IsSlashed, withoutEndSlashes, hkept, if_neg (by simp)]
  simpa using hc

/-- Up to slashes at its end, a path whose last step is a name follows that name from a path. -/
theorem exists_join_of_steps {path : Path} {front : List String} {name : String}
    (hname : IsName name) (hsteps : steps path = front ++ [name]) :
    ∃ base : Path, withoutEndSlashes path = base.join ⟨name⟩ ∧ steps base = front ∧
      base.isAbsolute = path.isAbsolute := by
  have hbare : ¬ IsSlashed (withoutEndSlashes path) :=
    not_isSlashed_withoutEndSlashes (by simp [hsteps])
  rw [← steps_withoutEndSlashes] at hsteps
  rw [← isAbsolute_withoutEndSlashes]
  generalize withoutEndSlashes path = bare at hbare hsteps
  obtain ⟨init, last, hpieces⟩ :=
    (List.eq_nil_or_concat' _).resolve_left (Text.pieces_ne_nil '/' bare.text.toList)
  have htext := Text.intercalate_pieces '/' bare.text.toList
  rw [hpieces] at htext
  -- The last piece is not empty, so that it is the last step.
  have hlast : last = name.toList := by
    rw [steps_eq_pieces, hpieces, List.filter_append, List.map_append] at hsteps
    by_cases hnil : last = []
    · rcases List.eq_nil_or_concat' init with rfl | ⟨more, piece, rfl⟩
      · simp [hnil] at hsteps
      · rw [Text.intercalate_append (by simp) (by simp), hnil] at htext
        refine absurd ?_ hbare
        rw [IsSlashed, ← htext]
        simp
    · rw [List.filter_cons_of_pos (by simpa using hnil)] at hsteps
      have hsame := (List.append_inj' hsteps rfl).2
      simpa using congrArg (List.map String.toList) hsame
  subst hlast
  suffices hbase : ∃ base : Path, bare = base.join ⟨name⟩ by
    obtain ⟨base, rfl⟩ := hbase
    rw [steps_join base hname.isAbsolute_eq, hname.steps_eq] at hsteps
    exact ⟨base, rfl, List.append_left_inj _ |>.mp hsteps,
      (isAbsolute_join base hname.isAbsolute_eq).symm⟩
  by_cases hinit : init = []
  · refine ⟨⟨""⟩, ?_⟩
    rw [hinit, List.nil_append, List.intercalate_singleton] at htext
    rw [Path.join, if_pos (by simp)]
    exact congrArg Path.mk (String.toList_inj.mp htext.symm)
  · refine ⟨⟨String.ofList (['/'].intercalate init ++ ['/'])⟩, ?_⟩
    rw [Text.intercalate_append hinit (by simp), List.intercalate_singleton] at htext
    rw [Path.join_of_ne_empty hname.isAbsolute_eq (by simp), if_pos (by simp)]
    refine congrArg Path.mk (String.toList_inj.mp ?_)
    simp [← htext]

/-- A path that is not refused is not refused where its text is cut off, unless nothing is left. -/
theorem refusal?_of_append {path more : Path} {rest : String} (htext : path.text ≠ "")
    (hmore : more.text = path.text ++ rest) (h : refusal? more = none) : refusal? path = none := by
  rw [refusal?] at h ⊢
  split at h
  · cases h
  next hzero =>
  split at h
  · cases h
  split at h
  · cases h
  next hshort =>
  rw [if_neg, if_neg htext, if_neg]
  · rw [hmore, String.utf8ByteSize_append] at hshort
    omega
  · rw [hmore, String.toList_append] at hzero
    simp only [List.contains_eq_mem, List.mem_append, decide_eq_true_eq, not_or] at hzero
    simpa using hzero.1

/-- A path that is not refused is not refused without the slashes at its end. -/
theorem refusal?_withoutEndSlashes {path : Path} (h : refusal? path = none)
    (hsteps : steps path ≠ []) : refusal? (withoutEndSlashes path) = none := by
  obtain ⟨kept, slashes, htext, -, heq⟩ := exists_withoutEndSlashes path
  have hkept : kept ≠ [] := by
    rintro rfl
    rw [← steps_withoutEndSlashes, heq] at hsteps
    split at hsteps <;> exact hsteps rfl
  rw [if_neg fun hempty => hkept hempty.1] at heq
  have hpath : path.text = String.ofList kept ++ String.ofList slashes := by
    apply String.toList_inj.mp
    simpa using htext
  rw [heq]
  exact refusal?_of_append (by simpa using hkept) hpath h

end FileTree

namespace Path

open FileTree (steps)

/-! ### Parents -/

/-- The empty path has no parent. -/
theorem text_ne_empty_of_parent? {p parent : Path} (h : p.parent? = some parent) :
    p.text ≠ "" := by
  obtain ⟨text⟩ := p
  rintro rfl
  cases h

/-- Slashes at the end of a path do not change its parent. -/
theorem parent?_join_empty {p : Path} (h : p.text ≠ "") : (p.join ⟨""⟩).parent? = p.parent? := by
  rw [join_of_ne_empty rfl h]
  by_cases hlast : p.text.toList.getLast? = some '/'
  · rw [if_pos hlast]
    simp
  · have hnil : p.text.toList ≠ [] := fun hnil => h (String.toList_inj.mp hnil)
    have htext : (p.text ++ ("/" ++ "")).toList = p.text.toList ++ '/' :: [] := by simp
    have hreversed : reversedSegments ((splitStart p.text.toList).2 ++ '/' :: []) =
        reversedSegments (splitStart p.text.toList).2 := by
      rw [reversedSegments, Text.pieces_append_cons, List.reverse_append]
      rfl
    rw [if_neg hlast, parent?, parent?]
    simp only [htext, splitStart_append hnil, hreversed]

/-- The last component of a path stands for the last segment that is not void. -/
theorem getLast?_components {p : Path} {segment : List Char} {before : List (List Char)}
    (h : reversedSegments (splitStart p.text.toList).2 = segment :: before) :
    p.components.getLast? = some (.ofSegment segment) := by
  obtain ⟨hsegment, void, after, hvoid, hpieces⟩ := pieces_of_reversedSegments h
  have hafter : after.filter (fun piece => !isVoid piece) = [] := by
    simpa [List.filter_eq_nil_iff] using fun piece hpiece =>
      hvoid piece (List.mem_append_right _ hpiece)
  simp [components, hpieces, List.filter_append, hsegment, hafter]

/-- A path that does not end in a name climbs from its parent, if it leads on at all. -/
theorem steps_of_fileName?_eq_none {p parent : Path} (hname : p.fileName? = none)
    (hparent : p.parent? = some parent) :
    ∃ climb, (∀ step ∈ climb, step = "." ∨ step = "..") ∧ steps p = steps parent ++ climb := by
  cases hreversed : reversedSegments (splitStart p.text.toList).2 with
  | nil =>
    simp only [parent?, hreversed] at hparent
    split at hparent
    · next hcurrent =>
      cases hparent
      have hvoid : ∀ piece ∈ Text.pieces '/' (splitStart p.text.toList).2,
          isVoid piece = true := by
        intro piece hpiece
        exact List.dropWhile_eq_nil_iff.mp hreversed piece (List.mem_reverse.mpr hpiece)
      refine ⟨_, fun step hstep => ?_, (List.nil_append _).symm⟩
      rw [steps_eq_append (List.nil_append _).symm (Text.pieces_ne_nil _ _), hcurrent] at hstep
      rcases List.mem_append.mp hstep with hstart | hrest
      · left
        exact List.mem_singleton.mp hstart
      · left
        exact eq_current_of_isVoid hvoid step hrest
    · cases hparent
  | cons segment before =>
    have hup : segment = ['.', '.'] := by
      by_contra hup
      rw [fileName?, getLast?_components hreversed, Component.ofSegment, if_neg hup] at hname
      cases hname
    obtain ⟨-, void, after, hvoid, hpieces⟩ := pieces_of_reversedSegments hreversed
    simp only [parent?, hreversed, Option.some.injEq] at hparent
    subst hparent
    refine ⟨_, fun step hstep => ?_, steps_eq_append hpieces (by simp)⟩
    obtain ⟨piece, hpiece, rfl⟩ := List.mem_map.mp hstep
    by_cases hsegment : piece = segment
    · right
      rw [hsegment, hup]
    · left
      obtain ⟨hmem, hne⟩ := List.mem_filter.mp hpiece
      have hmem : piece ∈ void ++ after := by simpa [hsegment] using hmem
      exact eq_current_of_isVoid hvoid _ (List.mem_map_of_mem (List.mem_filter.mpr ⟨hmem, hne⟩))

end Path

end BridgingHeader
