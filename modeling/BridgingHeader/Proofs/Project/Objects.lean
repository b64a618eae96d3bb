import BridgingHeader.Project.Edit
import BridgingHeader.Proofs.Dictionary

/-!
# The objects of a project

A project is seen through its entries: the value under each identifier, and the identifiers in
order. Setting an object changes one entry, and leaves everything beside the objects alone.
-/

namespace BridgingHeader

namespace Dictionary

@[simp] theorem getDictionary?_insert_self (d : Dictionary PropertyList) (key : String)
    (contents : Dictionary PropertyList) :
    (d.insert key (.dictionary contents)).getDictionary? key = some contents := by
  simp [getDictionary?, get?_insert, PropertyList.asDictionary?]

theorem getString?_insert_of_ne (d : Dictionary PropertyList) {key other : String}
    (h : other ≠ key) (value : PropertyList) :
    (d.insert key value).getString? other = d.getString? other := by
  simp [getString?, get?_insert, h]

/-- A value that is found as a dictionary is one. -/
theorem get?_of_getDictionary? {d : Dictionary PropertyList} {key : String}
    {contents : Dictionary PropertyList} (h : d.getDictionary? key = some contents) :
    d.get? key = some (.dictionary contents) := by
  obtain ⟨value, hvalue, hcontents⟩ := Option.bind_eq_some_iff.mp h
  cases value with
  | string _ => cases hcontents
  | array _ => cases hcontents
  | dictionary _ =>
      cases hcontents
      exact hvalue

/-- The items under a key. A missing key counts as no items, and a value that is no array has
none to give. -/
def list? (d : Dictionary PropertyList) (key : String) : Option (List PropertyList) :=
  match d.get? key with
  | none => some []
  | some value => value.asArray?

end Dictionary

namespace Project

/-- The entries under the identifiers; none if the project has no objects. -/
def entries (p : Project) : Dictionary PropertyList := p.objects?.getD .empty

/-- The identifiers of a project in order. -/
def ids (p : Project) : List String := p.entries.keys

/-- The value under an identifier, be it an object or not. -/
def value? (p : Project) (id : String) : Option PropertyList := p.entries.get? id

/-- The items of a list of an object. -/
def listOf (p : Project) (id key : String) : List PropertyList :=
  ((p.object? id).bind (·.getArray? key)).getD []

theorem entries_of_objects? {p : Project} {objects : Dictionary PropertyList}
    (h : p.objects? = some objects) : p.entries = objects := by
  rw [entries, h]
  rfl

/-- An object is an entry that is a dictionary. -/
theorem object?_eq_value? (p : Project) (id : String) :
    p.object? id = (p.value? id).bind PropertyList.asDictionary? := by
  unfold object? value? entries
  cases p.objects? <;> rfl

theorem object?_eq_some_iff {p : Project} {id : String} {object : Dictionary PropertyList} :
    p.object? id = some object ↔ p.value? id = some (.dictionary object) := by
  rw [object?_eq_value?]
  constructor
  · intro h
    obtain ⟨value, hvalue, hobject⟩ := Option.bind_eq_some_iff.mp h
    cases value with
    | string _ => cases hobject
    | array _ => cases hobject
    | dictionary _ =>
        cases hobject
        exact hvalue
  · intro h
    rw [h]
    rfl

theorem mem_ids_of_value? {p : Project} {id : String} {value : PropertyList}
    (h : p.value? id = some value) : id ∈ p.ids :=
  Dictionary.mem_keys_of_get? h

theorem mem_ids_of_object? {p : Project} {id : String} {object : Dictionary PropertyList}
    (h : p.object? id = some object) : id ∈ p.ids :=
  mem_ids_of_value? (object?_eq_some_iff.mp h)

theorem value?_eq_none_iff (p : Project) (id : String) : p.value? id = none ↔ id ∉ p.ids :=
  Dictionary.get?_eq_none_iff p.entries id

/-- A project with an object has objects. -/
theorem exists_objects_of_object? {p : Project} {id : String} {object : Dictionary PropertyList}
    (h : p.object? id = some object) : ∃ objects, p.objects? = some objects := by
  obtain ⟨objects, hobjects, -⟩ := Option.bind_eq_some_iff.mp h
  exact ⟨objects, hobjects⟩

theorem mainGroup?_eq_some_iff {p : Project} {group : String} :
    p.mainGroup? = some group ↔ ∃ root object, p.rootObject? = some root ∧
      root.getString? "mainGroup" = some group ∧ p.object? group = some object := by
  constructor
  · intro h
    obtain ⟨root, hroot, h⟩ := Option.bind_eq_some_iff.mp h
    obtain ⟨id, hid, h⟩ := Option.bind_eq_some_iff.mp h
    obtain ⟨object, hobject, h⟩ := Option.bind_eq_some_iff.mp h
    cases h
    exact ⟨root, object, hroot, hid, hobject⟩
  · rintro ⟨root, object, hroot, hname, hobject⟩
    simp [mainGroup?, hroot, hname, hobject]

theorem isSourcesPhase_of_sourcesPhase? {p : Project} {target phase : String}
    (h : p.sourcesPhase? target = some phase) : p.isSourcesPhase phase = true := by
  obtain ⟨object, -, h⟩ := Option.bind_eq_some_iff.mp h
  obtain ⟨phases, -, h⟩ := Option.bind_eq_some_iff.mp h
  exact List.find?_some h

theorem exists_object_of_isSourcesPhase {p : Project} {phase : String}
    (h : p.isSourcesPhase phase = true) : ∃ object, p.object? phase = some object := by
  obtain ⟨object, hobject, -⟩ := Option.bind_eq_some_iff.mp (of_decide_eq_true h)
  exact ⟨object, hobject⟩

/-! ### Setting an object -/

section SetObject

variable {p : Project} {objects : Dictionary PropertyList} (h : p.objects? = some objects)
  (id : String) (object : Dictionary PropertyList)

include h

theorem root_setObject : (p.setObject id object).root =
    p.root.insert "objects" (.dictionary (objects.insert id (.dictionary object))) := by
  simp [setObject, h]

theorem objects?_setObject :
    (p.setObject id object).objects? = some (objects.insert id (.dictionary object)) := by
  rw [objects?, root_setObject h, Dictionary.getDictionary?_insert_self]

theorem value?_setObject (other : String) : (p.setObject id object).value? other =
    if other = id then some (.dictionary object) else p.value? other := by
  rw [value?, value?, entries_of_objects? (objects?_setObject h id object),
    entries_of_objects? h, Dictionary.get?_insert]

theorem object?_setObject (other : String) : (p.setObject id object).object? other =
    if other = id then some object else p.object? other := by
  rw [object?_eq_value?, object?_eq_value?, value?_setObject h]
  split <;> rfl

theorem ids_setObject_of_mem (hid : id ∈ p.ids) : (p.setObject id object).ids = p.ids := by
  rw [ids, entries_of_objects? h] at hid
  rw [ids, ids, entries_of_objects? (objects?_setObject h id object), entries_of_objects? h,
    Dictionary.keys_insert_of_mem hid]

theorem ids_setObject_of_not_mem (hid : id ∉ p.ids) :
    (p.setObject id object).ids = p.ids ++ [id] := by
  rw [ids, entries_of_objects? h] at hid
  rw [ids, ids, entries_of_objects? (objects?_setObject h id object), entries_of_objects? h,
    Dictionary.keys_insert_of_not_mem hid]

/-- Setting an object keeps the keys of the descriptor and all values but the objects. -/
theorem root_keys_setObject : (p.setObject id object).root.keys = p.root.keys := by
  rw [root_setObject h, Dictionary.keys_insert_of_mem]
  exact Dictionary.mem_keys_of_get? (Dictionary.get?_of_getDictionary? h)

theorem root_get?_setObject {key : String} (hkey : key ≠ "objects") :
    (p.setObject id object).root.get? key = p.root.get? key := by
  rw [root_setObject h, Dictionary.get?_insert, if_neg hkey]

end SetObject

/-- An object stays an object when another one is set. -/
theorem exists_object?_setObject {p : Project} {id : String} {object : Dictionary PropertyList}
    (hobject : p.object? id = some object) (other : String) (new : Dictionary PropertyList) :
    ∃ object', (p.setObject other new).object? id = some object' := by
  obtain ⟨objects, hobjects⟩ := exists_objects_of_object? hobject
  rw [object?_setObject hobjects, hobject]
  split
  · exact ⟨new, rfl⟩
  · exact ⟨object, rfl⟩

end Project

end BridgingHeader
