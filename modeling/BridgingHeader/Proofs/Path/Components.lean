import BridgingHeader.Proofs.FileTree.Ways

/-!
# Places told by components

The components of a path lead to the same place as the segments of its text. Behind the start of an
absolute path every component is a step, up or down.
-/

namespace BridgingHeader.Path

open FileTree (IsName origin placeAfter placeOf segments stepFrom steps)

/-! ### Following components -/

/-- The place after one component. -/
def Component.move (place : Place) : Component → Place
  | .root => []
  | .current => place
  | .up => place.dropLast
  | .name text => place ++ [text]

/-- The place to which components lead. -/
def placeAlong (place : Place) (components : List Component) : Place :=
  components.foldl Component.move place

@[simp] theorem placeAlong_nil (place : Place) : placeAlong place [] = place := rfl

@[simp] theorem placeAlong_cons (place : Place) (c : Component) (rest : List Component) :
    placeAlong place (c :: rest) = placeAlong (c.move place) rest := rfl

theorem placeAlong_append (place : Place) (front rest : List Component) :
    placeAlong place (front ++ rest) = placeAlong (placeAlong place front) rest :=
  List.foldl_append

/-! ### Steps -/

/-- A component that leads up, or down to a name. -/
inductive Component.IsStep : Component → Prop where
  | up : IsStep .up
  | name {text : String} (isName : IsName text) : IsStep (.name text)

/-- A segment that is not void is a step. -/
theorem Component.isStep_ofSegment {segment : List Char} (hslash : '/' ∉ segment)
    (hvoid : isVoid segment = false) : (Component.ofSegment segment).IsStep := by
  rw [Component.ofSegment]
  by_cases hup : segment = ['.', '.']
  · rw [if_pos hup]
    exact .up
  · rw [if_neg hup]
    exact .name (isName_ofList hslash hvoid hup)

namespace Component.IsStep

variable {c : Component}

theorem stepFrom_eq (h : c.IsStep) (place : Place) : stepFrom place c.text = c.move place := by
  cases h with
  | up => rfl
  | name hname => exact hname.stepFrom_eq place

theorem steps_eq (h : c.IsStep) : steps ⟨c.text⟩ = [c.text] := by
  cases h with
  | up => decide
  | name hname => exact hname.steps_eq

theorem isAbsolute_eq (h : c.IsStep) : Path.isAbsolute ⟨c.text⟩ = false := by
  cases h with
  | up => decide
  | name hname => exact hname.isAbsolute_eq

end Component.IsStep

/-- The texts of steps lead where the steps do. -/
theorem placeAfter_text (place : Place) {components : List Component}
    (h : ∀ c ∈ components, c.IsStep) :
    placeAfter place (components.map Component.text) = placeAlong place components := by
  induction components generalizing place with
  | nil => rfl
  | cons c rest ih =>
      rw [List.map_cons, FileTree.placeAfter_cons, (h c List.mem_cons_self).stepFrom_eq]
      exact ih _ fun d hd => h d (List.mem_cons_of_mem c hd)

/-! ### Components of paths -/

/-- The components behind the start of a path. -/
def bodyComponents (body : List Char) : List Component :=
  ((Text.pieces '/' body).filter fun s => !isVoid s).map Component.ofSegment

theorem isStep_of_mem_bodyComponents {body : List Char} {c : Component}
    (h : c ∈ bodyComponents body) : c.IsStep := by
  obtain ⟨segment, hmem, rfl⟩ := List.mem_map.mp h
  obtain ⟨hpiece, hvoid⟩ := List.mem_filter.mp hmem
  exact Component.isStep_ofSegment (Text.not_mem_of_mem_pieces hpiece) (by simpa using hvoid)

theorem stepFrom_of_isVoid (place : Place) {segment : List Char} (h : isVoid segment = true) :
    stepFrom place (String.ofList segment) = place := by
  simp only [isVoid, Bool.or_eq_true, decide_eq_true_eq] at h
  rw [stepFrom, if_pos]
  rcases h with rfl | rfl
  · exact .inl rfl
  · exact .inr rfl

/-- Void segments lead nowhere, and the others are steps. -/
theorem placeAfter_segments (place : Place) (body : List Char) :
    placeAfter place (segments (String.ofList body)) = placeAlong place (bodyComponents body) := by
  rw [segments, String.toList_ofList, bodyComponents]
  have hslash : ∀ piece ∈ Text.pieces '/' body, '/' ∉ piece :=
    fun piece h => Text.not_mem_of_mem_pieces h
  generalize Text.pieces '/' body = pieces at hslash
  induction pieces generalizing place with
  | nil => rfl
  | cons piece rest ih =>
      have hrest := fun place => ih place fun p hp => hslash p (List.mem_cons_of_mem piece hp)
      rw [List.map_cons, FileTree.placeAfter_cons]
      cases hvoid : isVoid piece with
      | true =>
          rw [stepFrom_of_isVoid place hvoid, List.filter_cons_of_neg (by simp [hvoid])]
          exact hrest place
      | false =>
          have hstep := Component.isStep_ofSegment (hslash piece List.mem_cons_self) hvoid
          have htext : (Component.ofSegment piece).text = String.ofList piece := by
            rw [Component.ofSegment]
            split
            · next hup => rw [hup]; rfl
            · rfl
          rw [List.filter_cons_of_pos (by simp [hvoid]), List.map_cons, placeAlong_cons,
            ← hstep.stepFrom_eq, htext]
          exact hrest _

/-- A path leads where its components do. -/
theorem placeOf_eq_placeAlong (directory : Place) (p : Path) :
    placeOf directory p = placeAlong directory p.components := by
  obtain ⟨text⟩ := p
  obtain ⟨text, rfl⟩ : ∃ chars, text = String.ofList chars := ⟨text.toList, by simp⟩
  rw [placeOf, steps, FileTree.placeAfter_filter, components, origin, isAbsolute,
    String.toList_ofList, placeAfter_segments]
  rcases splitStart_cases text with ⟨body, rfl, hs⟩ | ⟨rfl, hs⟩ | ⟨rest, rfl, hs⟩ | hs
  · rw [hs]
    rfl
  · rfl
  · rw [hs]
    rfl
  · rw [hs, if_neg (by simpa using head?_ne_of_bare hs)]
    rfl

/-- An absolute path starts at the root, and steps follow. -/
theorem components_of_isAbsolute {p : Path} (h : p.isAbsolute = true) :
    ∃ body, p.components = .root :: body ∧ ∀ c ∈ body, c.IsStep := by
  rw [isAbsolute, decide_eq_true_eq] at h
  obtain ⟨body, hbody⟩ := List.head?_eq_some_iff.mp h
  refine ⟨bodyComponents body, ?_, fun c hc => isStep_of_mem_bodyComponents hc⟩
  rw [components, hbody]
  rfl

/-- The components that steps stand for. A step that stays stands for none. -/
def componentsOf (steps : List String) : List Component :=
  (steps.filter (· ≠ ".")).map fun step => .ofSegment step.toList

theorem componentsOf_append (front rest : List String) :
    componentsOf (front ++ rest) = componentsOf front ++ componentsOf rest := by
  simp [componentsOf]

theorem componentsOf_name {name : String} (h : IsName name) :
    componentsOf [name] = [.name name] := by
  have hup : name.toList ≠ ['.', '.'] := fun he => h.ne_up (String.toList_inj.mp he)
  simp [componentsOf, h.ne_current, Component.ofSegment, hup]

theorem componentsOf_eq_nil {steps : List String} (h : ∀ step ∈ steps, step = ".") :
    componentsOf steps = [] := by
  rw [componentsOf, List.filter_eq_nil_iff.mpr fun step hstep => by simp [h step hstep],
    List.map_nil]

/-- Behind the root, the components of an absolute path are those of its steps. -/
theorem components_eq_componentsOf {p : Path} (h : p.isAbsolute = true) :
    p.components = .root :: componentsOf (steps p) := by
  rw [isAbsolute, decide_eq_true_eq] at h
  obtain ⟨body, hbody⟩ := List.head?_eq_some_iff.mp h
  have hcomponents : p.components = .root :: bodyComponents body := by
    rw [components, hbody]
    rfl
  have hpieces : Text.pieces '/' p.text.toList = [] :: Text.pieces '/' body := by
    rw [hbody, Text.pieces, if_pos rfl]
  have hsolid (piece : List Char) :
      (decide (String.ofList piece ≠ ".") && decide (piece ≠ [])) = !isVoid piece := by
    have hdot : String.ofList piece = "." ↔ piece = ['.'] := by
      rw [← String.toList_inj, String.toList_ofList]
      rfl
    simp only [isVoid, ne_eq, hdot]
    by_cases hnil : piece = [] <;> simp [hnil]
  rw [hcomponents, FileTree.steps_eq_pieces, hpieces, List.filter_cons_of_neg (by simp),
    bodyComponents, componentsOf, List.filter_map, List.filter_filter, List.map_map]
  congr 1
  simp only [Function.comp_def, hsolid, String.toList_ofList]

/-- A name that is followed from an absolute path is its last component. -/
theorem components_join_name {base : Path} (h : base.isAbsolute = true) {name : String}
    (hname : IsName name) : (base.join ⟨name⟩).components = base.components ++ [.name name] := by
  have hjoin := (FileTree.isAbsolute_join base hname.isAbsolute_eq).trans h
  rw [components_eq_componentsOf hjoin, components_eq_componentsOf h,
    FileTree.steps_join base hname.isAbsolute_eq, hname.steps_eq, componentsOf_append,
    componentsOf_name hname, List.cons_append]

/-- The parent of an absolute path that ends in a name has all its components but the last. -/
theorem components_of_parent? {p directory : Path} (h : p.isAbsolute = true) {name : String}
    (hname : p.fileName? = some name) (hparent : p.parent? = some directory) :
    p.components = directory.components ++ [.name name] := by
  obtain ⟨hisName, directory', hparent', habsolute, before, after, hdots, hsteps⟩ :=
    exists_parent?_of_fileName? hname
  obtain rfl : directory' = directory := Option.some.inj (hparent'.symm.trans hparent)
  have hbefore : componentsOf before = [] :=
    componentsOf_eq_nil fun step hstep => hdots step (List.mem_append_left _ hstep)
  have hafter : componentsOf after = [] :=
    componentsOf_eq_nil fun step hstep => hdots step (List.mem_append_right _ hstep)
  have hlast : componentsOf (name :: after) = [.name name] := by
    rw [← List.singleton_append, componentsOf_append, componentsOf_name hisName, hafter,
      List.append_nil]
  rw [components_eq_componentsOf h, components_eq_componentsOf (habsolute.trans h), hsteps,
    componentsOf_append, componentsOf_append, hbefore, hlast, List.append_nil, List.cons_append]

end BridgingHeader.Path
