import BridgingHeader.Proofs.Project.Objects
import Mathlib.Data.List.Find

/-!
# How projects grow

Additions make a project grow in two ways only: new objects at the end, and new identifiers at the
head of lists of old objects. Growth says which ones, and that everything else stands as before, so
it composes along a run and most questions about the grown project have their old answer.
-/

namespace BridgingHeader

namespace Dictionary

/-- An object whose lists have new items at their heads. A list without new items, and any other
value, stands as before. -/
structure Grows (old new : Dictionary PropertyList) (items : String → List String) : Prop where
  keys : old.keys <+: new.keys
  new_keys : ∀ key ∈ new.keys, key ∈ old.keys ∨ items key ≠ []
  kept : ∀ key, items key = [] → new.get? key = old.get? key
  lists : ∀ key, items key ≠ [] → ∃ list, old.list? key = some list ∧
    new.get? key = some (.array ((items key).map .string ++ list))

theorem list?_of_get? {d : Dictionary PropertyList} {key : String} {items : List PropertyList}
    (h : d.get? key = some (.array items)) : d.list? key = some items := by
  rw [list?, h]
  rfl

theorem list?_congr {d e : Dictionary PropertyList} {key : String} (h : d.get? key = e.get? key) :
    d.list? key = e.list? key := by
  rw [list?, list?, h]

theorem getD_getArray?_of_list? {d : Dictionary PropertyList} {key : String}
    {items : List PropertyList} (h : d.list? key = some items) :
    (d.getArray? key).getD [] = items := by
  unfold list? at h
  split at h
  · next hnone =>
      cases h
      rw [getArray?, hnone]
      rfl
  · next value hvalue =>
      rw [getArray?, hvalue, Option.bind_some, h]
      rfl

theorem Grows.refl (d : Dictionary PropertyList) : Grows d d fun _ => [] where
  keys := List.prefix_rfl
  new_keys _ hkey := Or.inl hkey
  kept _ _ := rfl
  lists _ hitems := absurd rfl hitems

theorem Grows.trans {d e f : Dictionary PropertyList} {items₁ items₂ : String → List String}
    (h₁ : Grows d e items₁) (h₂ : Grows e f items₂) :
    Grows d f fun key => items₂ key ++ items₁ key where
  keys := h₁.keys.trans h₂.keys
  new_keys key hkey := by
    rcases h₂.new_keys key hkey with hmid | hitems
    · rcases h₁.new_keys key hmid with hold | hitems
      · exact Or.inl hold
      · exact Or.inr fun h => hitems (List.append_eq_nil_iff.mp h).2
    · exact Or.inr fun h => hitems (List.append_eq_nil_iff.mp h).1
  kept key hitems := by
    obtain ⟨hitems₂, hitems₁⟩ := List.append_eq_nil_iff.mp hitems
    exact (h₂.kept key hitems₂).trans (h₁.kept key hitems₁)
  lists key hitems := by
    by_cases hitems₁ : items₁ key = []
    · rw [hitems₁, List.append_nil] at hitems ⊢
      obtain ⟨list, hlist, hnew⟩ := h₂.lists key hitems
      rw [list?_congr (h₁.kept key hitems₁)] at hlist
      exact ⟨list, hlist, hnew⟩
    · obtain ⟨list, hlist, hmid⟩ := h₁.lists key hitems₁
      refine ⟨list, hlist, ?_⟩
      by_cases hitems₂ : items₂ key = []
      · rw [h₂.kept key hitems₂, hmid, hitems₂, List.nil_append]
      · obtain ⟨list', hlist', hnew⟩ := h₂.lists key hitems₂
        have hsame := hlist'.symm.trans (list?_of_get? hmid)
        cases hsame
        rw [hnew, List.map_append, List.append_assoc]

/-- Inserting an item at the head of a list is growth by that item. -/
theorem grows_insert {d : Dictionary PropertyList} {key : String} {list : List PropertyList}
    (h : d.list? key = some list) (item : String) :
    Grows d (d.insert key (.array (.string item :: list))) fun other =>
      if other = key then [item] else [] where
  keys := prefix_keys_insert d key _
  new_keys other hother := by
    rcases (mem_keys_insert d key other _).mp hother with rfl | hmem
    · exact Or.inr (by simp)
    · exact Or.inl hmem
  kept other hitems := by
    have hne : other ≠ key := by
      rintro rfl
      simp at hitems
    rw [get?_insert, if_neg hne]
  lists other hitems := by
    have heq : other = key := by
      by_contra hne
      exact hitems (if_neg hne)
    subst heq
    exact ⟨list, h, by simp [get?_insert]⟩

theorem Grows.getString?_eq {old new : Dictionary PropertyList} {items : String → List String}
    (h : Grows old new items) {key : String} (hitems : items key = []) :
    new.getString? key = old.getString? key := by
  rw [getString?, getString?, h.kept key hitems]

theorem Grows.getArray?_eq {old new : Dictionary PropertyList} {items : String → List String}
    (h : Grows old new items) {key : String} (hitems : items key = []) :
    new.getArray? key = old.getArray? key := by
  rw [getArray?, getArray?, h.kept key hitems]

/-- A grown list is the new items followed by the old list. -/
theorem Grows.getD_getArray? {old new : Dictionary PropertyList} {items : String → List String}
    (h : Grows old new items) (key : String) :
    (new.getArray? key).getD [] = (items key).map .string ++ (old.getArray? key).getD [] := by
  by_cases hitems : items key = []
  · rw [h.getArray?_eq hitems, hitems]
    rfl
  · obtain ⟨list, hlist, hnew⟩ := h.lists key hitems
    rw [getD_getArray?_of_list? hlist, getD_getArray?_of_list? (list?_of_get? hnew)]

end Dictionary

namespace Project

/-- A project with new objects behind the old ones and with new items at the heads of lists of old
objects. Everything else stands as before. -/
structure Grows (old new : Project) (objects : List (String × Dictionary PropertyList))
    (items : String → String → List String) : Prop where
  root_keys : new.root.keys = old.root.keys
  root_kept : ∀ key, key ≠ "objects" → new.root.get? key = old.root.get? key
  ids : new.ids = old.ids ++ objects.map Prod.fst
  nodup : (objects.map Prod.fst).Nodup
  fresh : ∀ entry ∈ objects, entry.1 ∉ old.ids
  added : ∀ entry ∈ objects, new.object? entry.1 = some entry.2
  owners : ∀ id key, items id key ≠ [] → ∃ object, old.object? id = some object
  kept : ∀ id ∈ old.ids, (∀ key, items id key = []) → new.value? id = old.value? id
  grown : ∀ id object, old.object? id = some object →
    ∃ object', new.object? id = some object' ∧ object.Grows object' (items id)

theorem grows_refl (p : Project) : Grows p p [] fun _ _ => [] where
  root_keys := rfl
  root_kept _ _ := rfl
  ids := (List.append_nil _).symm
  nodup := List.nodup_nil
  fresh := by simp
  added := by simp
  owners _ _ hitems := absurd rfl hitems
  kept _ _ _ := rfl
  grown _ object hobject := ⟨object, hobject, .refl object⟩

/-- A new object is growth by that object. -/
theorem grows_setObject {p : Project} {objects : Dictionary PropertyList}
    (h : p.objects? = some objects) {id : String} (hid : id ∉ p.ids)
    (object : Dictionary PropertyList) :
    Grows p (p.setObject id object) [(id, object)] fun _ _ => [] where
  root_keys := root_keys_setObject h id object
  root_kept _ hkey := root_get?_setObject h id object hkey
  ids := ids_setObject_of_not_mem h id object hid
  nodup := List.nodup_singleton id
  fresh := List.forall_mem_singleton.mpr hid
  added := List.forall_mem_singleton.mpr (by rw [object?_setObject h, if_pos rfl])
  owners _ _ hitems := absurd rfl hitems
  kept other hother _ := by
    have hne : other ≠ id := ne_of_mem_of_not_mem hother hid
    rw [value?_setObject h, if_neg hne]
  grown other object' hobject := by
    have hne : other ≠ id := ne_of_mem_of_not_mem (mem_ids_of_object? hobject) hid
    refine ⟨object', ?_, .refl object'⟩
    rw [object?_setObject h, if_neg hne, hobject]

/-- The owner of a single new item is an object if it was one. -/
theorem exists_object_of_single {p : Project} {owner : String} {object : Dictionary PropertyList}
    (hobject : p.object? owner = some object) {key item id other : String}
    (h : (if id = owner ∧ other = key then [item] else []) ≠ []) :
    ∃ object, p.object? id = some object := by
  split_ifs at h with hat
  · exact ⟨object, hat.1 ▸ hobject⟩
  · exact absurd rfl h

/-- An item at the head of a list of an object is growth by that item. -/
theorem grows_insertItem {p : Project} {owner key : String} {object : Dictionary PropertyList}
    {list : List PropertyList} (hobject : p.object? owner = some object)
    (hlist : object.list? key = some list) (item : String) :
    Grows p (p.setObject owner (object.insert key (.array (.string item :: list)))) []
      fun id other => if id = owner ∧ other = key then [item] else [] := by
  obtain ⟨objects, hobjects⟩ := exists_objects_of_object? hobject
  have howner : owner ∈ p.ids := mem_ids_of_object? hobject
  constructor
  case root_keys => exact root_keys_setObject hobjects owner _
  case root_kept => exact fun _ hkey => root_get?_setObject hobjects owner _ hkey
  case ids => rw [ids_setObject_of_mem hobjects owner _ howner, List.map_nil, List.append_nil]
  case nodup => exact List.nodup_nil
  case fresh => simp
  case added => simp
  case owners => exact fun _ _ hitems => exists_object_of_single hobject hitems
  case kept =>
    intro id _ hitems
    have hne : id ≠ owner := by
      rintro rfl
      simpa using hitems key
    rw [value?_setObject hobjects, if_neg hne]
  case grown =>
    intro id object' hobject'
    rw [object?_setObject hobjects]
    by_cases hid : id = owner
    · subst hid
      cases hobject.symm.trans hobject'
      refine ⟨_, if_pos rfl, ?_⟩
      simpa using Dictionary.grows_insert hlist item
    · refine ⟨object', by rw [if_neg hid, hobject'], ?_⟩
      simpa [hid] using Dictionary.Grows.refl object'

section Growth

variable {p q r : Project} {objects objects₁ objects₂ : List (String × Dictionary PropertyList)}
  {items items₁ items₂ : String → String → List String}

theorem Grows.mem_ids (h : Grows p q objects items) {id : String} (hid : id ∈ p.ids) :
    id ∈ q.ids := by
  rw [h.ids]
  exact List.mem_append_left _ hid

theorem Grows.mem_ids_added (h : Grows p q objects items)
    {entry : String × Dictionary PropertyList} (hentry : entry ∈ objects) : entry.1 ∈ q.ids := by
  rw [h.ids]
  exact List.mem_append_right _ (List.mem_map_of_mem hentry)

/-- Growth composes if the later items go to objects that were there from the beginning. -/
theorem Grows.trans (h₁ : Grows p q objects₁ items₁) (h₂ : Grows q r objects₂ items₂)
    (howners : ∀ id key, items₂ id key ≠ [] → ∃ object, p.object? id = some object) :
    Grows p r (objects₁ ++ objects₂) fun id key => items₂ id key ++ items₁ id key where
  root_keys := h₂.root_keys.trans h₁.root_keys
  root_kept key hkey := (h₂.root_kept key hkey).trans (h₁.root_kept key hkey)
  ids := by rw [h₂.ids, h₁.ids, List.map_append, List.append_assoc]
  nodup := by
    rw [List.map_append, List.nodup_append]
    refine ⟨h₁.nodup, h₂.nodup, ?_⟩
    intro id hid₁ id' hid₂
    obtain ⟨entry₁, hentry₁, rfl⟩ := List.mem_map.mp hid₁
    obtain ⟨entry₂, hentry₂, rfl⟩ := List.mem_map.mp hid₂
    exact ne_of_mem_of_not_mem (h₁.mem_ids_added hentry₁) (h₂.fresh entry₂ hentry₂)
  fresh := by
    intro entry hentry
    rcases List.mem_append.mp hentry with hentry | hentry
    · exact h₁.fresh entry hentry
    · exact fun hid => h₂.fresh entry hentry (h₁.mem_ids hid)
  added := by
    intro entry hentry
    rcases List.mem_append.mp hentry with hentry | hentry
    · -- An object of the first growth has no new items in the second one, since it is not old.
      have hitems : ∀ key, items₂ entry.1 key = [] := by
        intro key
        by_contra hne
        obtain ⟨object, hobject⟩ := howners entry.1 key hne
        exact h₁.fresh entry hentry (mem_ids_of_object? hobject)
      rw [object?_eq_value?, h₂.kept _ (h₁.mem_ids_added hentry) hitems, ← object?_eq_value?]
      exact h₁.added entry hentry
    · exact h₂.added entry hentry
  owners id key hitems := by
    by_cases hitems₂ : items₂ id key = []
    · rw [hitems₂, List.nil_append] at hitems
      exact h₁.owners id key hitems
    · exact howners id key hitems₂
  kept id hid hitems := by
    have hnil := fun key => List.append_eq_nil_iff.mp (hitems key)
    exact (h₂.kept id (h₁.mem_ids hid) fun key => (hnil key).1).trans
      (h₁.kept id hid fun key => (hnil key).2)
  grown id object hobject := by
    obtain ⟨object', hobject', hgrows₁⟩ := h₁.grown id object hobject
    obtain ⟨object'', hobject'', hgrows₂⟩ := h₂.grown id object' hobject'
    exact ⟨object'', hobject'', hgrows₁.trans hgrows₂⟩

/-- A grown list is the new items followed by the old list. -/
theorem Grows.listOf (h : Grows p q objects items) {id : String}
    {object : Dictionary PropertyList} (hobject : p.object? id = some object) (key : String) :
    q.listOf id key = (items id key).map .string ++ p.listOf id key := by
  obtain ⟨object', hobject', hgrows⟩ := h.grown id object hobject
  rw [Project.listOf, Project.listOf, hobject, hobject']
  exact hgrows.getD_getArray? key

/-- An identifier names a grown old object, a new object, or no object before and after. -/
theorem Grows.object?_cases (h : Grows p q objects items) (id : String) :
    (∃ object object', p.object? id = some object ∧ q.object? id = some object' ∧
      object.Grows object' (items id)) ∨
    (p.object? id = none ∧ ∃ object, (id, object) ∈ objects ∧ q.object? id = some object) ∨
    (p.object? id = none ∧ q.object? id = none) := by
  cases hobject : p.object? id with
  | some object =>
      obtain ⟨object', hobject', hgrows⟩ := h.grown id object hobject
      exact Or.inl ⟨object, object', rfl, hobject', hgrows⟩
  | none =>
      right
      by_cases hold : id ∈ p.ids
      · have hitems : ∀ key, items id key = [] := by
          intro key
          by_contra hne
          obtain ⟨object, hsome⟩ := h.owners id key hne
          rw [hobject] at hsome
          cases hsome
        rw [object?_eq_value?, h.kept id hold hitems, ← object?_eq_value?]
        exact Or.inr ⟨rfl, hobject⟩
      · by_cases hnew : id ∈ objects.map Prod.fst
        · obtain ⟨⟨_, object⟩, hentry, rfl⟩ := List.mem_map.mp hnew
          exact Or.inl ⟨rfl, object, hentry, h.added _ hentry⟩
        · have hnone : id ∉ q.ids := by
            rw [h.ids, List.mem_append]
            exact not_or.mpr ⟨hold, hnew⟩
          rw [object?_eq_value?, (value?_eq_none_iff q id).mpr hnone]
          exact Or.inr ⟨rfl, rfl⟩

end Growth

/-! ### Answers -/

/-- Two projects answer every question alike. -/
structure SameAnswers (p q : Project) : Prop where
  targetIds : q.targetIds = p.targetIds
  targetNames : q.targetNames = p.targetNames
  findTarget? : ∀ name, q.findTarget? name = p.findTarget? name
  mainGroup? : q.mainGroup? = p.mainGroup?
  sourcesPhase? : ∀ target, q.sourcesPhase? target = p.sourcesPhase? target

theorem SameAnswers.refl (p : Project) : SameAnswers p p :=
  ⟨rfl, rfl, fun _ => rfl, rfl, fun _ => rfl⟩

theorem SameAnswers.trans {p q r : Project} (h₁ : SameAnswers p q) (h₂ : SameAnswers q r) :
    SameAnswers p r where
  targetIds := h₂.targetIds.trans h₁.targetIds
  targetNames := h₂.targetNames.trans h₁.targetNames
  findTarget? name := (h₂.findTarget? name).trans (h₁.findTarget? name)
  mainGroup? := h₂.mainGroup?.trans h₁.mainGroup?
  sourcesPhase? target := (h₂.sourcesPhase? target).trans (h₁.sourcesPhase? target)

/-- Growth as additions do it: new items are children or files, and new objects are neither
sources phases nor targets. -/
structure Inert (objects : List (String × Dictionary PropertyList))
    (items : String → String → List String) : Prop where
  items : ∀ id key, key ∉ ["children", "files"] → items id key = []
  isa : ∀ entry ∈ objects, entry.2.getString? "isa" ≠ some "PBXSourcesBuildPhase"
  buildPhases : ∀ entry ∈ objects, entry.2.getArray? "buildPhases" = none

section Answers

variable {p q : Project} {objects : List (String × Dictionary PropertyList)}
  {items : String → String → List String}

theorem Grows.rootObject? (h : Grows p q objects items) {root : Dictionary PropertyList}
    (hroot : p.rootObject? = some root) :
    ∃ id root', q.rootObject? = some root' ∧ root.Grows root' (items id) := by
  obtain ⟨id, hid, hobject⟩ := Option.bind_eq_some_iff.mp hroot
  obtain ⟨root', hobject', hgrows⟩ := h.grown id root hobject
  refine ⟨id, root', Option.bind_eq_some_iff.mpr ⟨id, ?_, hobject'⟩, hgrows⟩
  rw [Dictionary.getString?, h.root_kept _ (by decide)]
  exact hid

theorem Grows.targetIds_eq (h : Grows p q objects items) (hinert : Inert objects items)
    {root : Dictionary PropertyList} (hroot : p.rootObject? = some root) :
    q.targetIds = p.targetIds := by
  obtain ⟨id, root', hroot', hgrows⟩ := h.rootObject? hroot
  rw [targetIds, targetIds, hroot, hroot', Option.bind_some, Option.bind_some,
    hgrows.getArray?_eq (hinert.items id _ (by decide))]

theorem Grows.nameOf?_eq (h : Grows p q objects items) (hinert : Inert objects items) {id : String}
    (hid : id ∈ p.ids) : q.nameOf? id = p.nameOf? id := by
  unfold nameOf?
  rcases h.object?_cases id with ⟨object, object', hobject, hobject', hgrows⟩ |
    ⟨-, object, hmem, -⟩ | ⟨hobject, hobject'⟩
  · rw [hobject, hobject']
    exact hgrows.getString?_eq (hinert.items id _ (by decide))
  · exact absurd hid (h.fresh _ hmem)
  · rw [hobject, hobject']

theorem Grows.mainGroup?_eq (h : Grows p q objects items) (hinert : Inert objects items)
    {group : String} (hgroup : p.mainGroup? = some group) : q.mainGroup? = some group := by
  obtain ⟨root, object, hroot, hname, hobject⟩ := mainGroup?_eq_some_iff.mp hgroup
  obtain ⟨rootId, root', hroot', hgrows⟩ := h.rootObject? hroot
  obtain ⟨object', hobject', -⟩ := h.grown group object hobject
  rw [← hgrows.getString?_eq (hinert.items rootId _ (by decide))] at hname
  exact mainGroup?_eq_some_iff.mpr ⟨root', object', hroot', hname, hobject'⟩

theorem Grows.isSourcesPhase_eq (h : Grows p q objects items) (hinert : Inert objects items)
    (id : String) : q.isSourcesPhase id = p.isSourcesPhase id := by
  unfold isSourcesPhase
  rcases h.object?_cases id with ⟨object, object', hobject, hobject', hgrows⟩ |
    ⟨hobject, object, hmem, hobject'⟩ | ⟨hobject, hobject'⟩
  · rw [hobject, hobject', Option.bind_some, Option.bind_some,
      hgrows.getString?_eq (hinert.items id _ (by decide))]
  · rw [hobject, hobject', Option.bind_some, Option.bind_none]
    simpa using hinert.isa _ hmem
  · rw [hobject, hobject']

theorem Grows.sourcesPhase?_eq (h : Grows p q objects items) (hinert : Inert objects items)
    (target : String) : q.sourcesPhase? target = p.sourcesPhase? target := by
  have hphases : q.isSourcesPhase = p.isSourcesPhase := funext (h.isSourcesPhase_eq hinert)
  unfold sourcesPhase?
  rw [hphases]
  rcases h.object?_cases target with ⟨object, object', hobject, hobject', hgrows⟩ |
    ⟨hobject, object, hmem, hobject'⟩ | ⟨hobject, hobject'⟩
  · simp only [hobject, hobject', Option.bind_eq_bind, Option.bind_some,
      hgrows.getArray?_eq (hinert.items target "buildPhases" (by decide))]
  · simp only [hobject, hobject', Option.bind_eq_bind, Option.bind_some, Option.bind_none,
      hinert.buildPhases _ hmem]
  · rw [hobject, hobject']

/-- A grown project answers as before if its targets were there already. A listed target that is
missing could otherwise be one of the new objects. -/
theorem Grows.sameAnswers (h : Grows p q objects items) (hinert : Inert objects items)
    {group : String} (hgroup : p.mainGroup? = some group)
    (htargets : ∀ id ∈ p.targetIds, id ∈ p.ids) : SameAnswers p q := by
  obtain ⟨root, -, hroot, -, -⟩ := mainGroup?_eq_some_iff.mp hgroup
  have hids := h.targetIds_eq hinert hroot
  have hnames : ∀ id ∈ p.targetIds, q.nameOf? id = p.nameOf? id :=
    fun id hid => h.nameOf?_eq hinert (htargets id hid)
  constructor
  case targetIds => exact hids
  case targetNames =>
    rw [targetNames, targetNames, hids]
    exact List.filterMap_congr hnames
  case findTarget? =>
    intro name
    rw [findTarget?, findTarget?, hids]
    exact List.find?_congr fun id hid => by rw [hnames id hid]
  case mainGroup? => rw [hgroup, h.mainGroup?_eq hinert hgroup]
  case sourcesPhase? => exact h.sourcesPhase?_eq hinert

end Answers

end Project

end BridgingHeader
