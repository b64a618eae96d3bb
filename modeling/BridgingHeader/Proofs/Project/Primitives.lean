import BridgingHeader.Proofs.Project.Requirements

/-!
# The primitive edits

Two edits insert an identifier into a list of an object, and two append an object under a new
identifier. Each of them succeeds exactly when it finds what it needs, changes one place of the
project and leaves the rest as it stands, and changes nothing when it fails.
-/

namespace BridgingHeader.Project

/-! ### Identifiers -/

/-- A text of 24 upper-case hexadecimal digits. -/
def IsId (id : String) : Prop :=
  id.toList.length = 24 ∧ ∀ c ∈ id.toList, c ∈ "0123456789ABCDEF".toList

theorem isId_idFor (digest : Digest) (purpose : String) (count salt : Nat) :
    IsId (idFor digest purpose count salt) := by
  have hdigit : ∀ n < 16, Digest.upperHexDigit n ∈ "0123456789ABCDEF".toList := by decide
  unfold idFor
  generalize digest _ = bytes
  rw [IsId, String.toList_ofList]
  constructor
  · simp [Digest.length_upperHex]
  · intro c hc
    obtain ⟨byte, -, hc⟩ := List.mem_flatMap.mp hc
    have hbyte : byte.toNat < 256 := byte.toNat_lt
    simp only [Digest.upperHexByte, List.mem_cons, List.not_mem_nil, or_false] at hc
    rcases hc with rfl | rfl
    · exact hdigit _ (by omega)
    · exact hdigit _ (by omega)

/-- A new identifier is one of the candidates. -/
theorem isId_freshId {digest : Digest} {purpose : String} {p : Project}
    (h : HasFreeId digest purpose p.ids) : IsId (freshId digest p purpose) := by
  obtain ⟨salt, -, -, hid, -⟩ := firstFree?_eq_some_iff.mp (firstFree?_eq_freshId h)
  rw [← hid]
  exact isId_idFor ..

/-! ### What an edit changes -/

/-- The objects of a project have been replaced where they stand, and nothing else has changed. -/
def ReplacesObjects (p : Project) (objects objects' : Dictionary PropertyList) (q : Project) :
    Prop :=
  p.objects? = some objects ∧
    p.root.Replaces "objects" (.dictionary objects) (.dictionary objects') q.root

/-- An object has been put behind all others under a new identifier, and nothing else has
changed. -/
def AppendsObject (p : Project) (id : String) (object : Dictionary PropertyList) (q : Project) :
    Prop :=
  ∃ objects objects', p.ReplacesObjects objects objects' q ∧
    objects.Appends id (.dictionary object) objects'

/-- An object has been replaced where it stands, and nothing else has changed. -/
def ReplacesObject (p : Project) (id : String) (object object' : Dictionary PropertyList)
    (q : Project) : Prop :=
  ∃ objects objects', p.ReplacesObjects objects objects' q ∧
    objects.Replaces id (.dictionary object) (.dictionary object') objects'

/-- Items with one more at an index, or at the end if the index lies beyond it. -/
def withItem (items : List PropertyList) (index : Nat) (item : PropertyList) : List PropertyList :=
  items.take (min index items.length) ++ item :: items.drop (min index items.length)

/-- An identifier has been inserted into the list of an object, and nothing else has changed. A list
that was missing has been put behind the other keys of the object. -/
def InsertsItem (p : Project) (owner key id : String) (index : Nat) (q : Project) : Prop :=
  ∃ object object' items, p.ReplacesObject owner object object' q ∧
    (object.Replaces key (.array items) (.array (withItem items index (.string id))) object' ∨
      items = [] ∧ object.Appends key (.array (withItem items index (.string id))) object')

section SetObject

variable {p : Project} {objects : Dictionary PropertyList} (h : p.objects? = some objects)

include h

theorem replacesObjects_setObject (id : String) (object : Dictionary PropertyList) :
    p.ReplacesObjects objects (objects.insert id (.dictionary object)) (p.setObject id object) := by
  refine ⟨h, ?_⟩
  rw [root_setObject h]
  exact Dictionary.replaces_insert (Dictionary.get?_of_getDictionary? h) _

theorem appendsObject_setObject {id : String} (hid : id ∉ p.ids)
    (object : Dictionary PropertyList) : p.AppendsObject id object (p.setObject id object) := by
  rw [ids, entries_of_objects? h] at hid
  exact ⟨_, _, replacesObjects_setObject h id object, Dictionary.appends_insert hid _⟩

end SetObject

theorem replacesObject_setObject {p : Project} {id : String} {object : Dictionary PropertyList}
    (h : p.object? id = some object) (object' : Dictionary PropertyList) :
    p.ReplacesObject id object object' (p.setObject id object') := by
  obtain ⟨objects, hobjects, hobject⟩ := Option.bind_eq_some_iff.mp h
  exact ⟨_, _, replacesObjects_setObject hobjects id object',
    Dictionary.replaces_insert (Dictionary.get?_of_getDictionary? hobject) _⟩

theorem insertIdx_eq_withItem (items : List PropertyList) (index : Nat) (item : PropertyList) :
    items.insertIdx (min index items.length) item = withItem items index item := by
  have hinsert : ∀ n ≤ items.length,
      items.insertIdx n item = items.take n ++ item :: items.drop n := by
    induction items with
    | nil =>
        intro n hn
        obtain rfl : n = 0 := by simpa using hn
        rfl
    | cons first rest ih =>
        intro n hn
        cases n with
        | zero => rfl
        | succ n => simp [ih n (by simpa using hn)]
  exact hinsert _ (min_le_right ..)

/-- Setting a list of an object, with one item more than before, inserts the item. -/
theorem insertsItem_setObject {p : Project} {owner key : String} {object : Dictionary PropertyList}
    {items : List PropertyList} (hobject : p.object? owner = some object)
    (hlist : object.list? key = some items) (id : String) (index : Nat) :
    p.InsertsItem owner key id index (p.setObject owner (object.insert key
      (.array (items.insertIdx (min index items.length) (.string id))))) := by
  rw [insertIdx_eq_withItem]
  refine ⟨object, _, items, replacesObject_setObject hobject _, ?_⟩
  unfold Dictionary.list? at hlist
  split at hlist
  · next habsent =>
      cases hlist
      exact Or.inr ⟨rfl, Dictionary.appends_insert ((Dictionary.get?_eq_none_iff _ _).mp habsent) _⟩
  · next value hvalue =>
      cases value with
      | string _ => cases hlist
      | dictionary _ => cases hlist
      | array items =>
          cases hlist
          exact Or.inl (Dictionary.replaces_insert hvalue _)

/-! ### The four edits -/

/-- An edit inserts an identifier into a list of an object, or changes nothing. -/
structure Inserts (edit : Edit Unit) (p : Project) (owner key id : String) (index : Nat) :
    Prop where
  succeeds_iff : (∃ q, edit.outcome p = (.ok (), q)) ↔ p.AbsentOrList key owner
  inserted : ∀ q, edit.outcome p = (.ok (), q) → p.InsertsItem owner key id index q
  unchanged : ∀ failure q, edit.outcome p = (.error failure, q) → q = p

/-- An edit appends an object under a new identifier if a condition holds, and changes nothing
otherwise. That the identifier is new asks for a free one. -/
structure Creates (digest : Digest) (purpose : String) (edit : Edit String) (p : Project)
    (condition : Prop) (object : Dictionary PropertyList) : Prop where
  succeeds_iff : (∃ id q, edit.outcome p = (.ok id, q)) ↔ condition
  created : HasFreeId digest purpose p.ids → ∀ id q, edit.outcome p = (.ok id, q) →
    IsId id ∧ id ∉ p.ids ∧ p.AppendsObject id object q
  unchanged : ∀ failure q, edit.outcome p = (.error failure, q) → q = p

theorem inserts_insertId (p : Project) (owner key id : String) (index : Nat) :
    Inserts (insertId owner key id index) p owner key id index := by
  rcases hobject : p.object? owner with _ | object
  · have houtcome : (insertId owner key id index).outcome p =
        (.error (.invalidFileReference (.noObject owner)), p) := by
      rw [outcome_insertId, hobject]
    constructor
    case succeeds_iff => simp [houtcome, AbsentOrList, hobject]
    case inserted => simp [houtcome]
    case unchanged => simp [houtcome]
  rcases hlist : object.list? key with _ | items
  · have houtcome : (insertId owner key id index).outcome p =
        (.error (.invalidFileReference (.notList key owner)), p) := by
      simp only [outcome_insertId, hobject, hlist]
    constructor
    case succeeds_iff => simp [houtcome, absentOrList_iff hobject, hlist]
    case inserted => simp [houtcome]
    case unchanged => simp [houtcome]
  · have houtcome : (insertId owner key id index).outcome p =
        (.ok (), p.setObject owner (object.insert key
          (.array (items.insertIdx (min index items.length) (.string id))))) := by
      simp only [outcome_insertId, hobject, hlist]
    constructor
    case succeeds_iff => simp [houtcome, absentOrList_iff hobject, hlist]
    case inserted =>
      intro q hq
      rw [houtcome] at hq
      cases hq
      exact insertsItem_setObject hobject hlist id index
    case unchanged => simp [houtcome]

/-- An edit that sets an object under a fresh identifier if a condition holds, and fails at once
otherwise, creates the object. -/
theorem creates_of_outcome {digest : Digest} {purpose : String} {edit : Edit String} {p : Project}
    {condition : Prop} {object objects : Dictionary PropertyList}
    (hobjects : p.objects? = some objects)
    (hset : condition → edit.outcome p =
      (.ok (freshId digest p purpose), p.setObject (freshId digest p purpose) object))
    (hfailed : ¬ condition → ∃ failure, edit.outcome p = (.error failure, p)) :
    Creates digest purpose edit p condition object := by
  by_cases hcondition : condition
  · have houtcome := hset hcondition
    constructor
    case succeeds_iff => simp [houtcome, hcondition]
    case created =>
      intro hfree id q h
      rw [houtcome] at h
      cases h
      exact ⟨isId_freshId hfree, freshId_not_mem hfree,
        appendsObject_setObject hobjects (freshId_not_mem hfree) object⟩
    case unchanged => simp [houtcome]
  · obtain ⟨failure, houtcome⟩ := hfailed hcondition
    constructor
    case succeeds_iff => simp [houtcome, hcondition]
    case created => simp [houtcome]
    case unchanged => simp [houtcome]

section Creates

variable (digest : Digest) {p : Project} {objects : Dictionary PropertyList}
  (hobjects : p.objects? = some objects)

include hobjects

theorem creates_createFileReference (file : FileReference) :
    Creates digest (referencePurpose file) (createFileReference digest file) p
      (file.name ≠ "" ∧ file.path ≠ "") (referenceObject file) := by
  apply creates_of_outcome hobjects
  case hset =>
    intro hfile
    have hmet : Requirement.Met p "" file .file := hfile
    rw [outcome_createFileReference, Requirement.validate_of_met hmet]
  case hfailed =>
    intro hfile
    have hmet : ¬ Requirement.Met p "" file .file := hfile
    rw [outcome_createFileReference, Requirement.validate_of_not_met hmet]
    exact ⟨_, rfl⟩

theorem creates_createBuildFile (fileReference : String) :
    Creates digest (buildFilePurpose fileReference) (createBuildFile digest fileReference) p
      (∃ object, p.object? fileReference = some object) (buildFileObject fileReference) := by
  apply creates_of_outcome hobjects
  case hset =>
    rintro ⟨object, hobject⟩
    rw [outcome_createBuildFile, hobject, Option.isSome_some, if_pos rfl]
  case hfailed =>
    intro hnone
    have hobject : p.object? fileReference = none :=
      Option.eq_none_iff_forall_ne_some.mpr fun object hobject => hnone ⟨object, hobject⟩
    rw [outcome_createBuildFile, hobject, Option.isSome_none, if_neg Bool.false_ne_true]
    exact ⟨_, rfl⟩

end Creates

/-- Each primitive edit succeeds exactly when it finds what it needs. It then inserts one item or
appends one object, and it changes nothing when it fails. -/
theorem primitive_edits (digest : Digest) {p : Project} {objects : Dictionary PropertyList}
    (hobjects : p.objects? = some objects) (owner id : String) (index : Nat)
    (file : FileReference) (fileReference : String) :
    Inserts (insertGroupChild owner id index) p owner "children" id index ∧
    Inserts (insertPhaseFile owner id index) p owner "files" id index ∧
    Creates digest (referencePurpose file) (createFileReference digest file) p
      (file.name ≠ "" ∧ file.path ≠ "") (referenceObject file) ∧
    Creates digest (buildFilePurpose fileReference) (createBuildFile digest fileReference) p
      (∃ object, p.object? fileReference = some object) (buildFileObject fileReference) :=
  ⟨inserts_insertId .., inserts_insertId .., creates_createFileReference digest hobjects file,
    creates_createBuildFile digest hobjects fileReference⟩

/-- A project takes a new file reference, and a child far beyond the end of its main group. -/
theorem primitive_edits_of_sharedPhase :
    let p := sharedPhase ["old"] [] []
    let file : FileReference := ⟨"a.m", "a.m", "text"⟩
    (∃ objects, p.objects? = some objects) ∧
    (∃ id q, (createFileReference .sha256 file).outcome p = (.ok id, q) ∧ IsId id ∧
      p.AppendsObject id (referenceObject file) q) ∧
    ∃ q, (insertGroupChild "G" "new" 7).outcome p = (.ok (), q) ∧
      p.InsertsItem "G" "children" "new" 7 q := by
  intro p file
  obtain ⟨objects, hobjects⟩ : ∃ objects, p.objects? = some objects := ⟨_, rfl⟩
  have hfree : HasFreeId .sha256 (referencePurpose file) p.ids := ⟨0, by decide, by decide +kernel⟩
  have hgroup : p.AbsentOrList "children" "G" := ⟨_, rfl, Or.inr ⟨_, rfl⟩⟩
  obtain ⟨hinserts, -, hcreates, -⟩ := primitive_edits .sha256 hobjects "G" "new" 7 file "G"
  obtain ⟨id, q, hid⟩ := hcreates.succeeds_iff.mpr ⟨by decide, by decide⟩
  obtain ⟨q', hq'⟩ := hinserts.succeeds_iff.mpr hgroup
  have hcreated := hcreates.created hfree id q hid
  exact ⟨⟨objects, hobjects⟩, ⟨id, q, hid, hcreated.1, hcreated.2.2⟩, q', hq',
    hinserts.inserted q' hq'⟩

end BridgingHeader.Project
