import BridgingHeader.Proofs.Project.Primitives
import BridgingHeader.Proofs.PropertyList.PrintedLines

/-!
# Lines that an addition writes

An addition leaves all lines of a written descriptor in their order and puts new ones among them:
seven for the file reference, four for the build file and one for each item of a list. A list that
was missing takes two lines more.
-/

namespace BridgingHeader.Project

open PropertyList (GainsLines)

/-- An identifier names an object with a list under a key. -/
def HasList (p : Project) (key id : String) : Prop :=
  ∃ object items, p.object? id = some object ∧ object.getArray? key = some items

instance (p : Project) (key id : String) : Decidable (p.HasList key id) :=
  decidable_of_iff (((p.object? id).bind (·.getArray? key)).isSome = true) <| by
    simp [HasList, Option.isSome_iff_exists, Option.bind_eq_some_iff, exists_comm]

theorem hasList_iff {p : Project} {key id : String} {object : Dictionary PropertyList}
    (hobject : p.object? id = some object) :
    p.HasList key id ↔ ∃ items, object.getArray? key = some items := by
  simp [HasList, hobject]

/-- The lines that a new item takes in a list of an object. A missing list takes two more. -/
def newItemLines (p : Project) (key id : String) : Nat := if p.HasList key id then 1 else 3

/-- The written form of a project gains lines and keeps all others in their order. -/
def Gains (n : Nat) (p q : Project) : Prop :=
  GainsLines n (.dictionary p.root) (.dictionary q.root)

/-- What a project gains shows in the lines of its text. -/
theorem Gains.lines {n : Nat} {p q : Project} (h : Gains n p q) :
    (Text.lines p.print.toList).Sublist (Text.lines q.print.toList) ∧
      (Text.lines q.print.toList).length = (Text.lines p.print.toList).length + n := by
  obtain ⟨hsub, hlength⟩ := h 0 [] []
  rw [print, print, PropertyList.lines_print, PropertyList.lines_print]
  refine ⟨hsub.cons_cons _, ?_⟩
  rw [List.length_cons, List.length_cons, hlength]
  omega

/-! ### One step -/

theorem gains_of_appendsObject {p q : Project} {id : String} {object : Dictionary PropertyList}
    (h : p.AppendsObject id object q) :
    Gains (PropertyList.lineCount (.dictionary object)) p q := by
  obtain ⟨objects, objects', ⟨-, hroot⟩, happends⟩ := h
  exact PropertyList.gainsLines_of_replaces hroot (PropertyList.gainsLines_of_appends happends)

/-- A new item takes one line in a list that is there, and three along with one that is not. -/
theorem gains_of_insertsItem {p q : Project} {owner key id : String} {index : Nat}
    (h : p.InsertsItem owner key id index q) : Gains (p.newItemLines key owner) p q := by
  obtain ⟨object, object', items, ⟨objects, objects', ⟨hobjects, hroot⟩, howner⟩, hlist⟩ := h
  have hobject : p.object? owner = some object := by
    rw [object?_eq_some_iff, value?, entries_of_objects? hobjects, howner.get?_eq]
  suffices hgains : GainsLines (p.newItemLines key owner) (.dictionary object) (.dictionary object')
    from PropertyList.gainsLines_of_replaces hroot
      (PropertyList.gainsLines_of_replaces howner hgains)
  rcases hlist with hlist | ⟨rfl, hlist⟩
  · have hhas : p.HasList key owner := by
      refine ⟨object, items, hobject, ?_⟩
      rw [Dictionary.getArray?, hlist.get?_eq]
      rfl
    have hitem := PropertyList.gainsLines_array (items.take (min index items.length))
      (items.drop (min index items.length)) id
    rw [List.take_append_drop] at hitem
    rw [newItemLines, if_pos hhas]
    exact PropertyList.gainsLines_of_replaces hlist hitem
  · have hnot : ¬ p.HasList key owner := by
      rintro ⟨object', items, hobject', hitems⟩
      obtain rfl : object = object' := Option.some.inj (hobject.symm.trans hobject')
      rw [Dictionary.getArray?, (Dictionary.get?_eq_none_iff _ _).mpr hlist.1] at hitems
      cases hitems
    have hitem : withItem [] index (.string id) = [.string id] := by simp [withItem]
    rw [hitem] at hlist
    rw [newItemLines, if_neg hnot]
    exact PropertyList.gainsLines_of_appends hlist

/-- Growth elsewhere does not touch a list. -/
theorem Grows.newItemLines_eq {p q : Project} {objects : List (String × Dictionary PropertyList)}
    {items : String → String → List String} (h : Grows p q objects items) {id key : String}
    {object : Dictionary PropertyList} (hobject : p.object? id = some object)
    (hitems : items id key = []) : q.newItemLines key id = p.newItemLines key id := by
  obtain ⟨object', hobject', hgrows⟩ := h.grown id object hobject
  have hsame : q.HasList key id ↔ p.HasList key id := by
    rw [hasList_iff hobject', hasList_iff hobject, hgrows.getArray?_eq hitems]
  exact if_congr hsame rfl rfl

/-! ### One addition -/

/-- An addition writes seven lines for its file reference, four for its build file, and those of
their items in the two lists. -/
theorem gains_addSource {digest : Digest} {target : String} {file : FileReference}
    {added : AddedSource} {p q : Project}
    (h : (addSource digest target file).outcome p = (.ok added, q))
    (hreference : HasFreeId digest (referencePurpose file) p.ids)
    (hbuild : HasFreeId digest (buildFilePurpose added.fileReference)
      (p.ids ++ [added.fileReference])) :
    ∃ group phase, p.mainGroup? = some group ∧ p.phaseOf? target = some phase ∧
      Gains (11 + p.newItemLines "children" group + p.newItemLines "files" phase) p q := by
  obtain ⟨targetId, group, phase, p₁, p₂, p₃, htarget, hgroup, hphase, h₁, h₂, h₃, h₄⟩ :=
    outcome_addSource_eq_ok h
  obtain ⟨_, groupObject, hroot, -, hgroupObject⟩ := mainGroup?_eq_some_iff.mp hgroup
  obtain ⟨objects, hobjects⟩ := exists_objects_of_object? hgroupObject
  obtain ⟨phaseObject, hphaseObject⟩ :=
    exists_object_of_isSourcesPhase (isSourcesPhase_of_sourcesPhase? hphase)
  have hphaseOf : p.phaseOf? target = some phase := by
    rw [phaseOf?, htarget]
    exact hphase
  refine ⟨group, phase, hgroup, hphaseOf, ?_⟩
  -- The four steps grow the project, and each of them writes its lines.
  have hgrows₁ := grows_createFileReference hobjects hreference h₁
  have hgrows₂ := hgrows₁.trans (grows_insertId h₂) fun _ _ hitems =>
    exists_object_of_single hgroupObject hitems
  have hids : p₂.ids = p.ids ++ [added.fileReference] := hgrows₂.ids
  have hfree := hids ▸ hbuild
  have hgrows₃ := hgrows₂.trans (grows_createBuildFile hfree h₃) (by simp)
  obtain ⟨objects₂, hobjects₂⟩ := exists_objects_of_object? (hgrows₂.added _ (.head _))
  have hgains₁ := gains_of_appendsObject
    ((creates_createFileReference digest hobjects file).created hreference _ _ h₁).2.2
  have hgains₂ := gains_of_insertsItem ((inserts_insertId ..).inserted _ h₂)
  have hgains₃ := gains_of_appendsObject
    ((creates_createBuildFile digest hobjects₂ added.fileReference).created hfree _ _ h₃).2.2
  have hgains₄ := gains_of_insertsItem ((inserts_insertId ..).inserted _ h₄)
  have hreferenceLines : PropertyList.lineCount (.dictionary (referenceObject file)) = 7 := rfl
  have hbuildLines :
      PropertyList.lineCount (.dictionary (buildFileObject added.fileReference)) = 4 := rfl
  rw [hreferenceLines] at hgains₁
  rw [hgrows₁.newItemLines_eq hgroupObject rfl] at hgains₂
  rw [hbuildLines] at hgains₃
  -- The group may be the phase, but the child has not gone into its files.
  rw [hgrows₃.newItemLines_eq hphaseObject (by simp)] at hgains₄
  have hgains := ((PropertyList.GainsLines.trans hgains₁ hgains₂).trans hgains₃).trans hgains₄
  have hsum : 11 + p.newItemLines "children" group + p.newItemLines "files" phase =
      7 + p.newItemLines "children" group + 4 + p.newItemLines "files" phase := by omega
  rw [hsum]
  exact hgains

/-- The lines of a written project stay in their order when a source is added. If both lists are
there, thirteen lines are new. Both searches for an identifier are taken to find a free one. -/
theorem lines_print_addSource {digest : Digest} {target : String} {file : FileReference}
    {added : AddedSource} {p q : Project}
    (h : (addSource digest target file).outcome p = (.ok added, q))
    (hreference : HasFreeId digest (referencePurpose file) p.ids)
    (hbuild : HasFreeId digest (buildFilePurpose added.fileReference)
      (p.ids ++ [added.fileReference])) :
    (Text.lines p.print.toList).Sublist (Text.lines q.print.toList) ∧
    ∀ group phase, p.mainGroup? = some group → p.phaseOf? target = some phase →
      p.HasList "children" group → p.HasList "files" phase →
        (Text.lines q.print.toList).length = (Text.lines p.print.toList).length + 13 := by
  obtain ⟨group, phase, hgroup, hphase, hgains⟩ := gains_addSource h hreference hbuild
  obtain ⟨hsub, hlength⟩ := hgains.lines
  refine ⟨hsub, fun group' phase' hgroup' hphase' hchildren hfiles => ?_⟩
  obtain rfl : group' = group := Option.some.inj (hgroup'.symm.trans hgroup)
  obtain rfl : phase' = phase := Option.some.inj (hphase'.symm.trans hphase)
  rw [hlength, newItemLines, newItemLines, if_pos hchildren, if_pos hfiles]

/-- The main group of this project is also the phase, and both of its lists take an item. -/
theorem lines_print_addSource_of_sharedPhase :
    let file : FileReference := ⟨"a.m", "a.m", "text"⟩
    let added : AddedSource := ⟨"6E476EB6C80BA6EF51392294", "49B57949B402CF62A087B6AD"⟩
    let p := sharedPhase ["old"] [] []
    ∃ q, (addSource .sha256 "App" file).outcome p = (.ok added, q) ∧
      HasFreeId .sha256 (referencePurpose file) p.ids ∧
      HasFreeId .sha256 (buildFilePurpose added.fileReference) (p.ids ++ [added.fileReference]) ∧
      (Text.lines p.print.toList).Sublist (Text.lines q.print.toList) ∧
      (Text.lines q.print.toList).length = (Text.lines p.print.toList).length + 13 := by
  intro file added p
  have hadded : (addSource .sha256 "App" file).outcome p = (.ok added,
      sharedPhase [added.fileReference, "old"] [added.buildFile]
        (Addition.objects ⟨"App", file, added⟩)) := by decide +kernel
  have hreference : HasFreeId .sha256 (referencePurpose file) p.ids :=
    ⟨0, by decide, by decide +kernel⟩
  have hbuild : HasFreeId .sha256 (buildFilePurpose added.fileReference)
      (p.ids ++ [added.fileReference]) := ⟨0, by decide, by decide +kernel⟩
  obtain ⟨hsub, hlength⟩ := lines_print_addSource hadded hreference hbuild
  exact ⟨_, hadded, hreference, hbuild, hsub,
    hlength "G" "G" (by decide +kernel) (by decide +kernel) (by decide +kernel)
      (by decide +kernel)⟩

end BridgingHeader.Project
