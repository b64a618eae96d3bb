import Mathlib.Data.List.DropRight
import Mathlib.Data.List.TakeDrop
import BridgingHeader.Path.Relative
import BridgingHeader.Proofs.Path.Components

/-!
# Where relative paths lead

The path from a base to a target climbs once for each component of the base that they do not share.
Climbing undoes the names among these components, but a `..` among them takes one component of the
shared part away with it, and climbing for it takes another. So the path leads to the target, or to
where the rest of the target leads from above the shared part.
-/

namespace BridgingHeader.Path

open FileTree (origin placeOf steps)

/-! ### Shared components -/

/-- The components with which two lists both start. -/
def shared : (components others : List Component) → List Component
  | c :: components, d :: others => if c = d then c :: shared components others else []
  | _, _ => []

/-- The components of a path behind those which it shares with another one. -/
def beyond (p q : Path) : List Component :=
  p.components.drop (shared p.components q.components).length

theorem shared_cons_self (c : Component) (components others : List Component) :
    shared (c :: components) (c :: others) = c :: shared components others := by
  rw [shared, if_pos rfl]

theorem shared_comm (components others : List Component) :
    shared components others = shared others components := by
  induction components generalizing others with
  | nil => cases others <;> rfl
  | cons c components ih =>
      cases others with
      | nil => rfl
      | cons d others =>
          rw [shared, shared, ih]
          by_cases h : c = d
          · rw [if_pos h, if_pos h.symm, h]
          · rw [if_neg h, if_neg (Ne.symm h)]

/-- A list is what it shares with another one and what lies beyond. -/
theorem shared_append_drop (components others : List Component) :
    shared components others ++ components.drop (shared components others).length = components := by
  induction components generalizing others with
  | nil => cases others <;> rfl
  | cons c components ih =>
      cases others with
      | nil => rfl
      | cons d others =>
          rw [shared]
          split
          · rw [List.cons_append, List.length_cons, List.drop_succ_cons, ih]
          · rfl

/-- What is shared plays no part in the way from one path to another. -/
theorem way_eq (target base : List Component) :
    way target base = wayFrom (target.drop (shared target base).length)
      (base.drop (shared target base).length) := by
  induction target generalizing base with
  | nil => cases base <;> rfl
  | cons next target ih =>
      cases base with
      | nil => rfl
      | cons step base =>
          rw [way, shared]
          by_cases h : next = step
          · rw [if_pos h, if_pos h, ih, List.length_cons, List.drop_succ_cons, List.drop_succ_cons]
          · rw [if_neg h, if_neg h]
            rfl

/-- There is no way if the base goes up where the target goes on. -/
theorem wayFrom_eq (target : List Component) {base : List Component} (h : ∀ c ∈ base, c.IsStep) :
    wayFrom target base =
      if base.head? = some .up ∧ target ≠ [] then none else some (climb base ++ target) := by
  cases base with
  | nil => cases target <;> rfl
  | cons step base =>
      cases target with
      | nil => simp [wayFrom]
      | cons next target =>
          cases h step List.mem_cons_self with
          | up => rfl
          | name hname => simp [wayFrom]

/-- The place to which two paths lead as far as they share their components. -/
def sharedPlace (p q : Path) : Place := placeAlong [] (shared p.components q.components)

theorem sharedPlace_comm (p q : Path) : sharedPlace p q = sharedPlace q p :=
  congrArg (placeAlong []) (shared_comm _ _)

theorem placeOf_eq_placeAlong_beyond (p q : Path) :
    placeOf [] p = placeAlong (sharedPlace p q) (p.beyond q) := by
  rw [placeOf_eq_placeAlong, sharedPlace, ← placeAlong_append, beyond, shared_append_drop]

/-! ### Climbing -/

theorem climb_cons (c : Component) (base : List Component) :
    climb (c :: base) = climb base ++ [.up] := by
  induction base with
  | nil => rfl
  | cons d base ih => exact congrArg (List.cons .up) ih

theorem move_up (place : Place) : Component.move place .up = place.rdrop 1 :=
  List.dropLast_eq_take

/-- Climbing out of some components undoes the names among them and repeats the steps up. -/
theorem placeAlong_append_climb (place : Place) {base : List Component}
    (h : ∀ c ∈ base, c.IsStep) :
    placeAlong place (base ++ climb base) = place.rdrop (2 * base.count .up) := by
  induction base generalizing place with
  | nil => simp [climb]
  | cons c base ih =>
      have hbase := ih (c.move place) fun d hd => h d (List.mem_cons_of_mem c hd)
      calc placeAlong place (c :: base ++ climb (c :: base))
          = (placeAlong (c.move place) (base ++ climb base)).rdrop 1 := by
            rw [climb_cons, ← List.append_assoc, placeAlong_append]
            exact move_up _
        _ = (c.move place).rdrop (2 * base.count .up + 1) := by rw [hbase, List.rdrop_add]
        _ = place.rdrop (2 * (c :: base).count .up) := by
            cases h c List.mem_cons_self with
            | up => rw [move_up, List.rdrop_add, List.count_cons_self]; congr 1; omega
            | name hname =>
                rw [Component.move, List.rdrop_concat_succ, List.count_cons_of_ne (by simp)]

/-- Steps take a number of names away and add others, wherever they start. -/
theorem exists_placeAlong_eq {components : List Component} (h : ∀ c ∈ components, c.IsStep) :
    ∃ count names, ∀ place, placeAlong place components = place.rdrop count ++ names := by
  induction components using List.reverseRecOn with
  | nil => exact ⟨0, [], fun place => by simp⟩
  | append_singleton front c ih =>
      obtain ⟨count, names, hfront⟩ := ih fun d hd => h d (List.mem_append_left _ hd)
      cases h c (by simp) with
      | @name text hname =>
          refine ⟨count, names ++ [text], fun place => ?_⟩
          rw [placeAlong_append, hfront, placeAlong_cons, placeAlong_nil, Component.move,
            List.append_assoc]
      | up =>
          rcases List.eq_nil_or_concat' names with rfl | ⟨init, last, rfl⟩
          · refine ⟨count + 1, [], fun place => ?_⟩
            rw [placeAlong_append, hfront, placeAlong_cons, placeAlong_nil, move_up,
              List.append_nil, List.append_nil, List.rdrop_add]
          · refine ⟨count, init, fun place => ?_⟩
            rw [placeAlong_append, hfront, placeAlong_cons, placeAlong_nil, Component.move,
              ← List.append_assoc, List.dropLast_concat]

theorem rdrop_eq_self_iff {place : Place} {n : Nat} :
    place.rdrop n = place ↔ n = 0 ∨ place = [] := by
  rw [List.rdrop, List.take_eq_self_iff, ← List.length_eq_zero_iff]
  omega

/-- Steps lead to the same place from above another one only if they lead there from the root too.
-/
theorem placeAlong_rdrop_eq_iff (place : Place) (n : Nat) {components : List Component}
    (h : ∀ c ∈ components, c.IsStep) :
    placeAlong (place.rdrop n) components = placeAlong place components ↔
      n = 0 ∨ placeAlong [] components = placeAlong place components := by
  obtain ⟨count, names, hplace⟩ := exists_placeAlong_eq h
  rw [hplace, hplace, hplace, List.append_left_inj, List.append_left_inj, List.rdrop_add,
    Nat.add_comm, ← List.rdrop_add, rdrop_eq_self_iff, List.rdrop_nil, eq_comm (a := [])]

/-! ### Joining steps -/

/-- Steps that are followed one after the other from a path are put behind it. -/
theorem steps_foldl_join (base : Path) {components : List Component}
    (h : ∀ c ∈ components, c.IsStep) :
    steps ((components.map Component.text).foldl (fun p segment => p.join ⟨segment⟩) base) =
        steps base ++ components.map Component.text ∧
      ((components.map Component.text).foldl (fun p segment => p.join ⟨segment⟩) base).isAbsolute =
        base.isAbsolute := by
  induction components generalizing base with
  | nil => exact ⟨(List.append_nil _).symm, rfl⟩
  | cons c rest ih =>
      have hc := h c List.mem_cons_self
      obtain ⟨hsteps, habsolute⟩ := ih (base.join ⟨c.text⟩) fun d hd =>
        h d (List.mem_cons_of_mem c hd)
      rw [List.map_cons, List.foldl_cons]
      constructor
      · rw [hsteps, FileTree.steps_join base hc.isAbsolute_eq, hc.steps_eq, List.append_assoc]
        rfl
      · exact habsolute.trans (FileTree.isAbsolute_join base hc.isAbsolute_eq)

/-- The path of some steps leads along them from wherever it is followed. -/
theorem placeOf_join_ofSegments (base : Path) {components : List Component}
    (h : ∀ c ∈ components, c.IsStep) :
    placeOf [] (base.join (ofSegments (components.map Component.text))) =
      placeAlong (placeOf [] base) components := by
  obtain ⟨hends, hrelative⟩ := steps_foldl_join ⟨""⟩ h
  rw [placeOf, origin, ofSegments, FileTree.isAbsolute_join base hrelative,
    FileTree.steps_join base hrelative, FileTree.placeAfter_append, hends]
  exact placeAfter_text _ h

/-! ### Ways between absolute paths -/

theorem way_components (source directory : Path) :
    way source.components directory.components =
      wayFrom (source.beyond directory) (directory.beyond source) := by
  rw [way_eq, beyond, beyond, shared_comm directory.components]

section Absolute

variable {source directory : Path} (hsource : source.isAbsolute = true)
  (hdirectory : directory.isAbsolute = true)
include hsource hdirectory

theorem isStep_of_mem_beyond : ∀ c ∈ source.beyond directory, c.IsStep := by
  obtain ⟨target, htarget, hsteps⟩ := components_of_isAbsolute hsource
  obtain ⟨base, hbase, -⟩ := components_of_isAbsolute hdirectory
  intro c hc
  rw [beyond, htarget, hbase, shared_cons_self, List.length_cons, List.drop_succ_cons] at hc
  exact hsteps c (List.mem_of_mem_drop hc)

/-- There is a path to the source unless it goes on where the directory goes up. -/
theorem relativeTo_eq : source.relativeTo directory =
    if (directory.beyond source).head? = some .up ∧ source.beyond directory ≠ [] then source
    else ofSegments ((climb (directory.beyond source) ++ source.beyond directory).map
      Component.text) := by
  rw [relativeTo, relative?, if_pos (by rw [hsource, hdirectory]), way_components,
    wayFrom_eq _ (isStep_of_mem_beyond hdirectory hsource)]
  split <;> rfl

/-- The path leads back to the source unless climbing takes a part of what is shared away that
matters to where the source leads. -/
theorem placeOf_join_relativeTo_eq_iff :
    placeOf [] (directory.join (source.relativeTo directory)) = placeOf [] source ↔
      .up ∉ directory.beyond source ∨
      ((directory.beyond source).head? = some .up ∧ source.beyond directory ≠ []) ∨
      placeAlong [] (source.beyond directory) = placeOf [] source := by
  have hrest := isStep_of_mem_beyond hsource hdirectory
  have hleft := isStep_of_mem_beyond hdirectory hsource
  rw [relativeTo_eq hsource hdirectory]
  split
  · next hup =>
    rw [join, if_pos (by simp [hsource])]
    exact iff_of_true rfl (.inr (.inl hup))
  · next hway =>
    have hclimb : ∀ c ∈ climb (directory.beyond source) ++ source.beyond directory, c.IsStep := by
      intro c hc
      rcases List.mem_append.mp hc with hc | hc
      · obtain ⟨-, -, rfl⟩ := List.mem_map.mp hc
        exact .up
      · exact hrest c hc
    have hplace : placeOf [] (directory.join (ofSegments
          ((climb (directory.beyond source) ++ source.beyond directory).map Component.text))) =
        placeAlong ((sharedPlace source directory).rdrop
          (2 * (directory.beyond source).count .up)) (source.beyond directory) := by
      rw [placeOf_join_ofSegments directory hclimb, placeOf_eq_placeAlong_beyond directory source,
        sharedPlace_comm, placeAlong_append, ← placeAlong_append (sharedPlace source directory),
        placeAlong_append_climb _ hleft]
    have hcount : 2 * (directory.beyond source).count .up = 0 ↔
        .up ∉ directory.beyond source := by
      rw [← List.count_eq_zero]
      omega
    rw [hplace, placeOf_eq_placeAlong_beyond source directory, placeAlong_rdrop_eq_iff _ _ hrest,
      hcount, or_iff_right (a := _ ∧ _) hway]

end Absolute

end BridgingHeader.Path
