import BridgingHeader.Digest.Sha256
import BridgingHeader.Proofs.Project.Edits
import BridgingHeader.Proofs.PropertyList.RoundTrip

/-!
# Projects that edits can reach

However a parsed project is edited, and whether the edits succeed or fail, it stays a project that
can be saved and loaded again. Every edit changes a project only by setting objects, and setting an
object keeps what parsing asks for.
-/

namespace BridgingHeader.Project

open PropertyList (DistinctKeys)

/-! ### Editable projects -/

/-- What parsing asks of a descriptor, together with the distinct keys that it gives. -/
structure Loadable (p : Project) : Prop where
  objects : ∃ objects, p.objects? = some objects
  root : ∃ root, p.rootObject? = some root
  distinct : (PropertyList.dictionary p.root).DistinctKeys

theorem distinctKeys_insert {d : Dictionary PropertyList}
    (hd : (PropertyList.dictionary d).DistinctKeys) (key : String) {value : PropertyList} (hvalue : value.DistinctKeys) :
    (PropertyList.dictionary (d.insert key value)).DistinctKeys := by
  cases hd with
  | dictionary hkeys hinner =>
      refine .dictionary (Dictionary.nodup_keys_insert hkeys key value) ?_
      intro entry hentry
      rcases Dictionary.mem_entries_insert hentry with rfl | hmem
      · exact hvalue
      · exact hinner entry hmem

theorem distinctKeys_of_get? {d : Dictionary PropertyList}
    (hd : (PropertyList.dictionary d).DistinctKeys) {key : String} {value : PropertyList}
    (h : d.get? key = some value) : value.DistinctKeys := by
  cases hd with
  | dictionary _ hinner => exact hinner _ (Dictionary.mem_entries_of_get? h)

theorem distinctKeys_of_list? {d : Dictionary PropertyList}
    (hd : (PropertyList.dictionary d).DistinctKeys) {key : String} {items : List PropertyList}
    (h : d.list? key = some items) : ∀ item ∈ items, item.DistinctKeys := by
  unfold Dictionary.list? at h
  split at h
  · cases h
    simp
  · next value hvalue =>
      cases distinctKeys_of_get? hd hvalue with
      | string _ => cases h
      | dictionary _ _ => cases h
      | array hinner =>
          cases h
          exact hinner

theorem distinctKeys_referenceObject (file : FileReference) :
    (PropertyList.dictionary (referenceObject file)).DistinctKeys := by
  refine .dictionary (by simp [Dictionary.keys, referenceObject]) ?_
  simp only [referenceObject, List.forall_mem_cons]
  exact ⟨.string _, .string _, .string _, .string _, .string _, by simp⟩

theorem distinctKeys_buildFileObject (fileReference : String) :
    (PropertyList.dictionary (buildFileObject fileReference)).DistinctKeys := by
  refine .dictionary (by simp [Dictionary.keys, buildFileObject]) ?_
  simp only [buildFileObject, List.forall_mem_cons]
  exact ⟨.string _, .string _, by simp⟩

namespace Loadable

variable {p : Project}

theorem distinct_object (h : p.Loadable) {id : String} {object : Dictionary PropertyList}
    (hobject : p.object? id = some object) : (PropertyList.dictionary object).DistinctKeys := by
  obtain ⟨objects, hobjects, hget⟩ := Option.bind_eq_some_iff.mp hobject
  have hall := distinctKeys_of_get? h.distinct (Dictionary.get?_of_getDictionary? hobjects)
  exact distinctKeys_of_get? hall (Dictionary.get?_of_getDictionary? hget)

/-- Setting an object with distinct keys keeps a project loadable. The root object may be the one
that is set, but it stays an object. -/
theorem setObject (h : p.Loadable) (id : String) {object : Dictionary PropertyList}
    (hobject : (PropertyList.dictionary object).DistinctKeys) :
    (p.setObject id object).Loadable := by
  obtain ⟨objects, hobjects⟩ := h.objects
  obtain ⟨root, hroot⟩ := h.root
  obtain ⟨rootId, hrootId, hroot⟩ := Option.bind_eq_some_iff.mp hroot
  have hall := distinctKeys_of_get? h.distinct (Dictionary.get?_of_getDictionary? hobjects)
  constructor
  · exact ⟨_, objects?_setObject hobjects id object⟩
  · refine ⟨if rootId = id then object else root, Option.bind_eq_some_iff.mpr ⟨rootId, ?_, ?_⟩⟩
    · rw [root_setObject hobjects, Dictionary.getString?_insert_of_ne _ (by decide)]
      exact hrootId
    · rw [object?_setObject hobjects, hroot]
      split <;> rfl
  · rw [root_setObject hobjects]
    exact distinctKeys_insert h.distinct _ (distinctKeys_insert hall id hobject)

end Loadable

theorem ofPropertyList_dictionary (p : Project) : ofPropertyList (.dictionary p.root) =
    if p.objects?.isNone then .error .noObjects
    else if p.rootObject?.isNone then .error .noRootObject
    else .ok p := rfl

theorem ofPropertyList_eq_ok_iff {value : PropertyList} {p : Project} :
    ofPropertyList value = .ok p ↔ value = .dictionary p.root ∧
      (∃ objects, p.objects? = some objects) ∧ ∃ root, p.rootObject? = some root := by
  constructor
  · intro h
    cases value with
    | string _ => cases h
    | array _ => cases h
    | dictionary root =>
        have hread := ofPropertyList_dictionary ⟨root⟩
        rw [h] at hread
        split_ifs at hread with hobjects hroot
        cases hread
        exact ⟨rfl, Option.ne_none_iff_exists'.mp (mt Option.isNone_iff_eq_none.mpr hobjects),
          Option.ne_none_iff_exists'.mp (mt Option.isNone_iff_eq_none.mpr hroot)⟩
  · rintro ⟨rfl, ⟨objects, hobjects⟩, ⟨root, hroot⟩⟩
    rw [ofPropertyList_dictionary, hobjects, hroot]
    rfl

/-- A parsed project is loadable. -/
theorem loadable_of_parse {text : String} {p : Project} (h : parse text = .ok p) : p.Loadable := by
  unfold parse at h
  split at h
  · next value hread =>
      obtain ⟨rfl, hobjects, hroot⟩ := ofPropertyList_eq_ok_iff.mp h
      exact ⟨hobjects, hroot, PropertyList.distinctKeys_of_read hread⟩
  · cases h

/-- A loadable project is parsed from the text that is printed for it. -/
theorem Loadable.parse_print {p : Project} (h : p.Loadable) : parse p.print = .ok p := by
  rw [parse, print, PropertyList.read_print h.distinct]
  exact ofPropertyList_eq_ok_iff.mpr ⟨rfl, h.objects, h.root⟩

/-! ### Edits keep projects loadable -/

/-- An edit keeps projects loadable, also when it fails. -/
def Safe {α : Type} (edit : Edit α) : Prop := ∀ p : Project, p.Loadable → (edit.after p).Loadable

variable {α β : Type}

theorem safe_pure (a : α) : Safe (pure a : Edit α) := by
  intro p h
  rw [Edit.after, outcome_pure]
  exact h

theorem safe_throw (failure : Failure) : Safe (throw failure : Edit α) := by
  intro p h
  rw [Edit.after, outcome_throw]
  exact h

theorem safe_ofExcept (result : Except Failure α) :
    Safe (MonadExcept.ofExcept result : Edit α) := by
  intro p h
  rw [Edit.after, outcome_ofExcept]
  exact h

theorem safe_get_bind {next : Project → Edit β} (h : ∀ p, Safe (next p)) :
    Safe (get >>= next) := by
  intro p hp
  rw [Edit.after, outcome_get_bind]
  exact h p p hp

theorem safe_bind {edit : Edit α} {next : α → Edit β} (h : Safe edit) (hnext : ∀ a, Safe (next a)) :
    Safe (edit >>= next) := by
  intro p hp
  have hq := h p hp
  rw [Edit.after] at hq ⊢
  rw [outcome_bind]
  rcases ho : edit.outcome p with ⟨result, q⟩
  rw [ho] at hq
  cases result with
  | error failure => exact hq
  | ok a => exact hnext a q hq

theorem safe_addObject (digest : Digest) (purpose : String) {object : Dictionary PropertyList}
    (h : (PropertyList.dictionary object).DistinctKeys) :
    Safe (addObject digest purpose object) := by
  intro p hp
  rw [Edit.after, outcome_addObject]
  exact hp.setObject _ h

theorem safe_insertId (owner key id : String) (index : Nat) :
    Safe (insertId owner key id index) := by
  intro p hp
  rw [Edit.after, outcome_insertId]
  cases hobject : p.object? owner with
  | none => exact hp
  | some object =>
      have hdistinct := hp.distinct_object hobject
      simp only
      cases hlist : object.list? key with
      | none => exact hp
      | some items =>
          refine hp.setObject owner (distinctKeys_insert hdistinct key (.array ?_))
          intro item hitem
          rcases (List.mem_insertIdx (min_le_right index items.length)).mp hitem with rfl | hmem
          · exact .string id
          · exact distinctKeys_of_list? hdistinct hlist item hmem

theorem safe_createFileReference (digest : Digest) (file : FileReference) :
    Safe (createFileReference digest file) := by
  apply safe_bind
  · exact safe_ofExcept file.validate
  · intro _
    exact safe_addObject digest _ (distinctKeys_referenceObject file)

theorem safe_createBuildFile (digest : Digest) (fileReference : String) :
    Safe (createBuildFile digest fileReference) := by
  apply safe_get_bind
  intro p
  cases p.object? fileReference with
  | none => exact safe_throw _
  | some object => exact safe_addObject digest _ (distinctKeys_buildFileObject fileReference)

theorem safe_placeSource (digest : Digest) (group phase : String) (file : FileReference) :
    Safe (placeSource digest group phase file) := by
  apply safe_bind (safe_createFileReference digest file)
  intro fileReference
  apply safe_bind (safe_insertId group "children" fileReference 0)
  intro _
  apply safe_bind (safe_createBuildFile digest fileReference)
  intro buildFile
  apply safe_bind (safe_insertId phase "files" buildFile 0)
  intro _
  exact safe_pure _

/-- An addition keeps a project loadable wherever it stops. -/
theorem safe_addSource (digest : Digest) (target : String) (file : FileReference) :
    Safe (addSource digest target file) := by
  intro p hp
  rw [Edit.after, outcome_addSource]
  rcases p.checkAddition target file with failure | ⟨group, phase⟩
  · exact hp
  · exact safe_placeSource digest group phase file p hp

/-! ### Reachable projects -/

/-- An edit with its arguments. -/
inductive Operation where
  | createFileReference (file : FileReference)
  | createBuildFile (fileReference : String)
  | insertGroupChild (group child : String) (index : Nat)
  | insertPhaseFile (phase buildFile : String) (index : Nat)
  | addSource (target : String) (file : FileReference)

/-- The project after an operation, whether it succeeded or not. -/
def Operation.apply (digest : Digest) (p : Project) : Operation → Project
  | .createFileReference file => (Project.createFileReference digest file).after p
  | .createBuildFile fileReference => (Project.createBuildFile digest fileReference).after p
  | .insertGroupChild group child index => (Project.insertGroupChild group child index).after p
  | .insertPhaseFile phase buildFile index =>
    (Project.insertPhaseFile phase buildFile index).after p
  | .addSource target file => (Project.addSource digest target file).after p

/-- The projects that operations can make of a parsed one. -/
inductive Reachable (digest : Digest) : Project → Prop
  | parsed {text : String} {p : Project} (h : parse text = .ok p) : Reachable digest p
  | edited {p : Project} (h : Reachable digest p) (operation : Operation) :
      Reachable digest (operation.apply digest p)

theorem Loadable.apply {p : Project} (h : p.Loadable) (digest : Digest) (operation : Operation) :
    (operation.apply digest p).Loadable := by
  cases operation with
  | createFileReference file => exact safe_createFileReference digest file p h
  | createBuildFile fileReference => exact safe_createBuildFile digest fileReference p h
  | insertGroupChild group child index => exact safe_insertId group "children" child index p h
  | insertPhaseFile phase buildFile index => exact safe_insertId phase "files" buildFile index p h
  | addSource target file => exact safe_addSource digest target file p h

theorem Reachable.loadable {digest : Digest} {p : Project} (h : Reachable digest p) :
    p.Loadable := by
  induction h with
  | parsed h => exact loadable_of_parse h
  | edited _ operation ih => exact ih.apply digest operation

/-- A reachable project has objects with a root object among them and distinct keys, and it is
parsed again from its text. -/
theorem reachable_parse_print {digest : Digest} {p : Project} (h : Reachable digest p) :
    (∃ objects id object, p.root.getDictionary? "objects" = some objects ∧
        p.root.getString? "rootObject" = some id ∧ objects.getDictionary? id = some object) ∧
      (PropertyList.dictionary p.root).DistinctKeys ∧ parse p.print = .ok p := by
  have hp := h.loadable
  obtain ⟨root, hroot⟩ := hp.root
  obtain ⟨id, hid, hobject⟩ := Option.bind_eq_some_iff.mp hroot
  obtain ⟨objects, hobjects, hobject⟩ := Option.bind_eq_some_iff.mp hobject
  exact ⟨⟨objects, id, root, hobjects, hid, hobject⟩, hp.distinct, hp.parse_print⟩

/-- A descriptor with a sources phase whose files are no list. -/
def unlistedFilesText : String :=
  "\x7bobjects=\x7bP=\x7bmainGroup=G;targets=(T);\x7d;G=\x7b\x7d;" ++
    "T=\x7bname=App;buildPhases=(S);\x7d;" ++
    "S=\x7bisa=PBXSourcesBuildPhase;files=none;\x7d;\x7d;rootObject=P;\x7d"

/-- The project of that descriptor. -/
def unlistedFiles : Project :=
  let objects : Dictionary PropertyList := ⟨[
    ("P", .dictionary ⟨[("mainGroup", .string "G"), ("targets", .array [.string "T"])]⟩),
    ("G", .dictionary ⟨[]⟩),
    ("T", .dictionary ⟨[("name", .string "App"), ("buildPhases", .array [.string "S"])]⟩),
    ("S", .dictionary ⟨[("isa", .string "PBXSourcesBuildPhase"), ("files", .string "none")]⟩)]⟩
  ⟨⟨[("objects", .dictionary objects), ("rootObject", .string "P")]⟩⟩

/-- An addition that fails at its last step leaves two new objects and a new child of the main
group. The project can still be saved and loaded. -/
theorem reachable_parse_print_of_failed_addition :
    parse unlistedFilesText = .ok unlistedFiles ∧ ∃ q,
      q = Operation.apply .sha256 unlistedFiles (.addSource "App" ⟨"a\".m", "/*/a\".m", "text"⟩) ∧
      q.ids = ["P", "G", "T", "S", "1E2043E9DB12A630B299BD8D", "8ED7DDF7438E44038B870441"] ∧
      q.listOf "G" "children" = [.string "1E2043E9DB12A630B299BD8D"] ∧
      parse q.print = .ok q := by
  have hparse : parse unlistedFilesText = .ok unlistedFiles := by decide +kernel
  refine ⟨hparse, _, rfl, by decide +kernel, by decide +kernel, ?_⟩
  exact (reachable_parse_print (.edited (.parsed hparse) _)).2.2

end BridgingHeader.Project
