import BridgingHeader.Digest.Sha256
import BridgingHeader.Proofs.Project.Edits
import BridgingHeader.Proofs.Project.Growth

/-!
# Adding sources

A successful addition of a source is four steps of growth: a file reference, its place in the main
group, a build file, and its place in a sources phase. A run of additions grows a project by the
new objects and items of each of them, and the project answers as before all along.
-/

namespace BridgingHeader.Project

/-! ### Free identifiers -/

/-- Some salt gives an identifier that is not taken. -/
def HasFreeId (digest : Digest) (purpose : String) (taken : List String) : Prop :=
  ∃ salt < saltCount, idFor digest purpose taken.length salt ∉ taken

theorem firstFree?_eq_some {candidate : Nat → String} {taken : String → Bool}
    {count start salt : Nat} (hstart : start ≤ salt) (hsalt : salt < start + count)
    (hfree : taken (candidate salt) = false) :
    ∃ id, firstFree? candidate taken count start = some id ∧ taken id = false := by
  induction count generalizing start with
  | zero => omega
  | succ count ih =>
      rw [firstFree?]
      by_cases htaken : taken (candidate start) = true
      · have hne : start ≠ salt := by
          rintro rfl
          rw [htaken] at hfree
          cases hfree
        rw [if_pos htaken]
        exact ih (by omega) (by omega)
      · rw [if_neg htaken]
        exact ⟨candidate start, rfl, Bool.eq_false_iff.mpr htaken⟩

/-- The search for an identifier ends at the first salt whose candidate is not taken. -/
theorem firstFree?_eq_some_iff {candidate : Nat → String} {taken : String → Bool}
    {count start : Nat} {id : String} :
    firstFree? candidate taken count start = some id ↔
      ∃ salt, start ≤ salt ∧ salt < start + count ∧ candidate salt = id ∧ taken id = false ∧
        ∀ earlier, start ≤ earlier → earlier < salt → taken (candidate earlier) = true := by
  induction count generalizing start with
  | zero =>
      constructor
      · intro h
        cases h
      · rintro ⟨salt, hstart, hsalt, -⟩
        omega
  | succ count ih =>
      rw [firstFree?]
      by_cases htaken : taken (candidate start) = true
      · rw [if_pos htaken, ih]
        constructor
        · rintro ⟨salt, hstart, hsalt, hid, hfree, hearlier⟩
          refine ⟨salt, by omega, by omega, hid, hfree, fun earlier hfrom hbefore => ?_⟩
          rcases Nat.eq_or_lt_of_le hfrom with rfl | hlater
          · exact htaken
          · exact hearlier earlier hlater hbefore
        · rintro ⟨salt, hstart, hsalt, rfl, hfree, hearlier⟩
          have hne : start ≠ salt := by
            rintro rfl
            rw [htaken] at hfree
            cases hfree
          exact ⟨salt, by omega, by omega, rfl, hfree,
            fun earlier hfrom hbefore => hearlier earlier (by omega) hbefore⟩
      · rw [if_neg htaken, Option.some.injEq]
        constructor
        · rintro rfl
          exact ⟨start, le_rfl, by omega, rfl, Bool.eq_false_iff.mpr htaken, by omega⟩
        · rintro ⟨salt, hstart, -, rfl, -, hearlier⟩
          rcases Nat.eq_or_lt_of_le hstart with rfl | hlater
          · rfl
          · exact absurd (hearlier start le_rfl hlater) htaken

theorem contains_entries_eq_false_iff (p : Project) (id : String) :
    p.entries.contains id = false ↔ id ∉ p.ids := by
  rw [ids, ← Dictionary.contains_iff, Bool.not_eq_true]

/-- If some candidate is not taken, the new identifier is the one that the search finds. -/
theorem firstFree?_eq_freshId {digest : Digest} {purpose : String} {p : Project}
    (h : HasFreeId digest purpose p.ids) :
    firstFree? (idFor digest purpose p.ids.length) p.entries.contains saltCount 0 =
      some (freshId digest p purpose) := by
  obtain ⟨salt, hsalt, hfree⟩ := h
  have hsize : p.ids.length = p.entries.size := List.length_map ..
  rw [← contains_entries_eq_false_iff] at hfree
  obtain ⟨id, hid, -⟩ :=
    firstFree?_eq_some (Nat.zero_le salt) (by rwa [Nat.zero_add]) hfree
  have hfresh : freshId digest p purpose = id := by
    rw [freshId]
    exact congrArg (Option.getD · "") (hsize ▸ hid)
  rw [hfresh, hid]

/-- The search for an identifier finds one that is not taken, if there is one. -/
theorem freshId_not_mem {digest : Digest} {purpose : String} {p : Project}
    (h : HasFreeId digest purpose p.ids) : freshId digest p purpose ∉ p.ids := by
  obtain ⟨_, -, -, -, hfree, -⟩ := firstFree?_eq_some_iff.mp (firstFree?_eq_freshId h)
  exact (contains_entries_eq_false_iff p _).mp hfree

/-! ### One addition -/

/-- The steps of a successful addition. -/
theorem outcome_addSource_eq_ok {digest : Digest} {target : String} {file : FileReference}
    {added : AddedSource} {p q : Project}
    (h : (addSource digest target file).outcome p = (.ok added, q)) :
    ∃ targetId group phase p₁ p₂ p₃,
      p.findTarget? target = some targetId ∧ p.mainGroup? = some group ∧
      p.sourcesPhase? targetId = some phase ∧
      (createFileReference digest file).outcome p = (.ok added.fileReference, p₁) ∧
      (insertId group "children" added.fileReference 0).outcome p₁ = (.ok (), p₂) ∧
      (createBuildFile digest added.fileReference).outcome p₂ = (.ok added.buildFile, p₃) ∧
      (insertId phase "files" added.buildFile 0).outcome p₃ = (.ok (), q) := by
  have hchecked := checked_checkAddition p target file
  rw [outcome_addSource] at h
  cases hcheck : p.checkAddition target file with
  | error failure =>
      rw [hcheck] at h
      cases h
  | ok found =>
      rw [hcheck] at h hchecked
      cases hchecked with
      | passed htarget hgroup _ hphase =>
          obtain ⟨fileReference, p₁, hreference, h⟩ := outcome_bind_eq_ok_iff.mp h
          obtain ⟨_, p₂, hchild, h⟩ := outcome_bind_eq_ok_iff.mp h
          obtain ⟨buildFile, p₃, hbuild, h⟩ := outcome_bind_eq_ok_iff.mp h
          obtain ⟨_, p₄, hfile, h⟩ := outcome_bind_eq_ok_iff.mp h
          cases h
          exact ⟨_, _, _, p₁, p₂, p₃, htarget, hgroup, hphase, hreference, hchild, hbuild, hfile⟩

/-- What an addition adds is there when it has succeeded, whatever identifiers it found. -/
theorem exists_objects_of_addSource {digest : Digest} {target : String} {file : FileReference}
    {added : AddedSource} {p q : Project}
    (h : (addSource digest target file).outcome p = (.ok added, q)) :
    (∃ object, q.object? added.fileReference = some object) ∧
      ∃ object, q.object? added.buildFile = some object := by
  obtain ⟨_, group, _, p₁, p₂, p₃, -, hgroup, -, hreference, hchild, hbuild, hfile⟩ :=
    outcome_addSource_eq_ok h
  obtain ⟨_, object, -, -, hobject⟩ := mainGroup?_eq_some_iff.mp hgroup
  obtain ⟨objects, hobjects⟩ := exists_objects_of_object? hobject
  have hreference₁ : p₁.object? added.fileReference = some (referenceObject file) := by
    rw [outcome_createFileReference] at hreference
    split at hreference
    · obtain ⟨hid, rfl⟩ := Prod.mk.inj hreference
      rw [Except.ok.injEq] at hid
      rw [hid, object?_setObject hobjects, if_pos rfl]
    · cases (Prod.mk.inj hreference).1
  obtain ⟨_, hreference₂⟩ := exists_object?_insertId hchild hreference₁
  obtain ⟨objects₂, hobjects₂⟩ := exists_objects_of_object? hreference₂
  rw [outcome_createBuildFile, hreference₂, Option.isSome_some, if_pos rfl, Prod.mk.injEq,
    Except.ok.injEq] at hbuild
  obtain ⟨hid, rfl⟩ := hbuild
  rw [hid] at hfile
  obtain ⟨_, hreference₃⟩ := exists_object?_setObject hreference₂ added.buildFile
    (buildFileObject added.fileReference)
  have hbuild₃ : (p₂.setObject added.buildFile (buildFileObject added.fileReference)).object?
      added.buildFile = some (buildFileObject added.fileReference) := by
    rw [object?_setObject hobjects₂, if_pos rfl]
  exact ⟨exists_object?_insertId hfile hreference₃, exists_object?_insertId hfile hbuild₃⟩

section Steps

variable {digest : Digest} {p q : Project}

theorem grows_createFileReference {file : FileReference} {id : String}
    {objects : Dictionary PropertyList} (hobjects : p.objects? = some objects)
    (hfree : HasFreeId digest (referencePurpose file) p.ids)
    (h : (createFileReference digest file).outcome p = (.ok id, q)) :
    Grows p q [(id, referenceObject file)] fun _ _ => [] := by
  rw [outcome_createFileReference] at h
  rcases hvalid : file.validate with failure | _
  · rw [hvalid] at h
    cases h
  · rw [hvalid] at h
    cases h
    exact grows_setObject hobjects (freshId_not_mem hfree) _

theorem grows_createBuildFile {fileReference id : String}
    (hfree : HasFreeId digest (buildFilePurpose fileReference) p.ids)
    (h : (createBuildFile digest fileReference).outcome p = (.ok id, q)) :
    Grows p q [(id, buildFileObject fileReference)] fun _ _ => [] := by
  rw [outcome_createBuildFile] at h
  split_ifs at h with hsome
  · obtain ⟨object, hobject⟩ := Option.isSome_iff_exists.mp hsome
    obtain ⟨objects, hobjects⟩ := exists_objects_of_object? hobject
    cases h
    exact grows_setObject hobjects (freshId_not_mem hfree) _
  · cases h

theorem grows_insertId {owner key id : String}
    (h : (insertId owner key id 0).outcome p = (.ok (), q)) :
    Grows p q [] fun other key' => if other = owner ∧ key' = key then [id] else [] := by
  rw [outcome_insertId] at h
  rcases hobject : p.object? owner with _ | object
  · rw [hobject] at h
    cases h
  · simp only [hobject] at h
    rcases hlist : object.list? key with _ | items
    · rw [hlist] at h
      cases h
    · simp only [hlist, Nat.zero_min, List.insertIdx_zero] at h
      cases h
      exact grows_insertItem hobject hlist id

end Steps

/-- A successful addition: the target, the file, and the identifiers of its two objects. -/
structure Addition where
  target : String
  file : FileReference
  added : AddedSource

/-- The first sources phase of the first target with a name. -/
def phaseOf? (p : Project) (target : String) : Option String :=
  (p.findTarget? target).bind p.sourcesPhase?

namespace Addition

/-- The new objects of an addition. -/
def objects (a : Addition) : List (String × Dictionary PropertyList) :=
  [(a.added.fileReference, referenceObject a.file),
    (a.added.buildFile, buildFileObject a.added.fileReference)]

/-- The new items that an addition puts at the head of a list of an object: the file reference
among the children of the main group, and the build file among the files of the phase. -/
def items (p : Project) (a : Addition) (id key : String) : List String :=
  if key = "children" ∧ p.mainGroup? = some id then [a.added.fileReference]
  else if key = "files" ∧ p.phaseOf? a.target = some id then [a.added.buildFile]
  else []

theorem exists_object_of_items {p : Project} {a : Addition} {id key : String}
    (h : a.items p id key ≠ []) : ∃ object, p.object? id = some object := by
  unfold items at h
  split_ifs at h with hgroup hphase
  · obtain ⟨_, object, -, -, hobject⟩ := mainGroup?_eq_some_iff.mp hgroup.2
    exact ⟨object, hobject⟩
  · obtain ⟨targetId, -, hphase⟩ := Option.bind_eq_some_iff.mp hphase.2
    exact exists_object_of_isSourcesPhase (isSourcesPhase_of_sourcesPhase? hphase)
  · exact absurd rfl h

theorem items_congr {p q : Project} (h : SameAnswers p q) (a : Addition) :
    a.items q = a.items p := by
  have hphase : q.phaseOf? a.target = p.phaseOf? a.target := by
    rw [phaseOf?, phaseOf?, h.findTarget?, funext h.sourcesPhase?]
  funext id key
  rw [items, items, h.mainGroup?, hphase]

theorem inert (p : Project) (a : Addition) : Inert a.objects (a.items p) where
  items id key hkey := by
    simp only [List.mem_cons, List.not_mem_nil, or_false, not_or] at hkey
    simp [Addition.items, hkey]
  isa := by
    simp [objects, referenceObject, buildFileObject, Dictionary.getString?, Dictionary.get?,
      PropertyList.asString?]
  buildPhases := by
    simp [objects, referenceObject, buildFileObject, Dictionary.getArray?, Dictionary.get?,
      List.lookup_cons]

/-- A successful addition is growth by its objects and items. -/
theorem grows {digest : Digest} {p q : Project} {a : Addition}
    (h : (addSource digest a.target a.file).outcome p = (.ok a.added, q))
    (hreference : HasFreeId digest (referencePurpose a.file) p.ids)
    (hbuild : HasFreeId digest (buildFilePurpose a.added.fileReference)
      (p.ids ++ [a.added.fileReference])) :
    Grows p q a.objects (a.items p) := by
  obtain ⟨targetId, group, phase, p₁, p₂, p₃, htarget, hgroup, hphase, h₁, h₂, h₃, h₄⟩ :=
    outcome_addSource_eq_ok h
  obtain ⟨_, object, hroot, -, hobject⟩ := mainGroup?_eq_some_iff.mp hgroup
  obtain ⟨objects, hobjects⟩ := exists_objects_of_object? hobject
  obtain ⟨phaseObject, hphaseObject⟩ :=
    exists_object_of_isSourcesPhase (isSourcesPhase_of_sourcesPhase? hphase)
  have hchild := (grows_createFileReference hobjects hreference h₁).trans (grows_insertId h₂)
    fun _ _ hitems => exists_object_of_single hobject hitems
  -- The second search runs when the file reference has its identifier already.
  have hids : p₂.ids = p.ids ++ [a.added.fileReference] := hchild.ids
  have hfile := (hchild.trans (grows_createBuildFile (hids ▸ hbuild) h₃) (by simp)).trans
    (grows_insertId h₄) fun _ _ hitems => exists_object_of_single hphaseObject hitems
  have hitems : a.items p = fun id key =>
      (if id = phase ∧ key = "files" then [a.added.buildFile] else []) ++ ([] ++
        ((if id = group ∧ key = "children" then [a.added.fileReference] else []) ++ [])) := by
    have hphaseOf : p.phaseOf? a.target = some phase := by
      rw [phaseOf?, htarget]
      exact hphase
    funext id key
    by_cases hkey : key = "children"
    · simp [items, hgroup, hkey, eq_comm]
    · simp [items, hphaseOf, hkey, eq_comm, and_comm]
  rw [hitems]
  exact hfile

end Addition

/-! ### Runs of additions -/

/-- A run of successful additions from a project, each of which finds free identifiers. -/
inductive Additions (digest : Digest) (before : Project) : List Addition → Project → Prop
  | done : Additions digest before [] before
  | add {run : List Addition} {p q : Project} {a : Addition}
      (earlier : Additions digest before run p)
      (outcome : (addSource digest a.target a.file).outcome p = (.ok a.added, q))
      (reference_free : HasFreeId digest (referencePurpose a.file) p.ids)
      (build_free : HasFreeId digest (buildFilePurpose a.added.fileReference)
        (p.ids ++ [a.added.fileReference])) :
      Additions digest before (run ++ [a]) q

/-- The new objects of a run in order. -/
def newObjects (run : List Addition) : List (String × Dictionary PropertyList) :=
  run.flatMap Addition.objects

/-- The new items of a run at the head of a list of an object, newest first. -/
def newItems (p : Project) (run : List Addition) (id key : String) : List String :=
  run.reverse.flatMap fun a => a.items p id key

theorem newItems_concat (p : Project) (run : List Addition) (a : Addition) (id key : String) :
    newItems p (run ++ [a]) id key = a.items p id key ++ newItems p run id key := by
  simp [newItems]

/-- The new children of the main group are all file references. -/
theorem newItems_children {p : Project} {group : String} (h : p.mainGroup? = some group)
    (run : List Addition) :
    newItems p run group "children" = (run.map fun a => a.added.fileReference).reverse := by
  have hitems : ∀ a : Addition, a.items p group "children" = [a.added.fileReference] :=
    fun a => if_pos ⟨rfl, h⟩
  rw [newItems, ← List.map_reverse, List.map_eq_flatMap]
  exact List.flatMap_congr fun a _ => hitems a

/-- The new files of a phase are the build files of the additions that found this phase. -/
theorem newItems_files (p : Project) (run : List Addition) (phase : String) :
    newItems p run phase "files" = ((run.filter fun a => p.phaseOf? a.target = some phase).map
      fun a => a.added.buildFile).reverse := by
  induction run using List.reverseRecOn with
  | nil => rfl
  | append_singleton run a ih =>
      rw [newItems_concat, ih]
      by_cases hphase : p.phaseOf? a.target = some phase
      · simp [Addition.items, hphase]
      · simp [Addition.items, hphase]

/-- A run of additions is growth by its objects and items, and keeps all answers. -/
theorem Additions.grows {digest : Digest} {before after : Project} {run : List Addition}
    (h : Additions digest before run after) (htargets : ∀ id ∈ before.targetIds, id ∈ before.ids) :
    Grows before after (newObjects run) (newItems before run) ∧ SameAnswers before after := by
  induction h with
  | done => exact ⟨grows_refl before, .refl before⟩
  | @add run p q a _ outcome reference_free build_free ih =>
      obtain ⟨hgrows, hanswers⟩ := ih
      obtain ⟨_, group, _, _, _, _, -, hgroup, -⟩ := outcome_addSource_eq_ok outcome
      have hstep := Addition.grows outcome reference_free build_free
      have hstepTargets : ∀ id ∈ p.targetIds, id ∈ p.ids := by
        intro id hid
        rw [hanswers.targetIds] at hid
        exact hgrows.mem_ids (htargets id hid)
      have hstepAnswers := hstep.sameAnswers (a.inert p) hgroup hstepTargets
      -- The addition finds the group and the phase that it would have found at the beginning.
      rw [a.items_congr hanswers] at hstep
      have hitems : newItems before (run ++ [a]) =
          fun id key => a.items before id key ++ newItems before run id key := by
        funext id key
        exact newItems_concat before run a id key
      have hobjects : newObjects (run ++ [a]) = newObjects run ++ a.objects := by
        simp [newObjects]
      rw [hitems, hobjects]
      exact ⟨hgrows.trans hstep fun _ _ => Addition.exists_object_of_items,
        hanswers.trans hstepAnswers⟩

/-- What a run of additions does to a project. -/
structure SourcesAdded (before after : Project) (run : List Addition) : Prop where
  /-- The new identifiers differ from each other and from those of the original objects. -/
  distinct : (run.flatMap fun a => [a.added.fileReference, a.added.buildFile]).Nodup
  fresh : ∀ a ∈ run, a.added.fileReference ∉ before.ids ∧ a.added.buildFile ∉ before.ids
  children : ∀ group, before.mainGroup? = some group → after.listOf group "children" =
    (run.map fun a => .string a.added.fileReference).reverse ++ before.listOf group "children"
  files : ∀ phase, before.isSourcesPhase phase = true → after.listOf phase "files" =
    ((run.filter fun a => before.phaseOf? a.target = some phase).map
      fun a => .string a.added.buildFile).reverse ++ before.listOf phase "files"
  references : ∀ a ∈ run, after.object? a.added.fileReference = some (referenceObject a.file)
  buildFiles : ∀ a ∈ run,
    after.object? a.added.buildFile = some (buildFileObject a.added.fileReference)
  /-- Nothing else changes. -/
  grows : Grows before after (newObjects run) (newItems before run)
  answers : SameAnswers before after

/-- A run of additions adds its sources and changes nothing else. -/
theorem sourcesAdded_of_additions {digest : Digest} {before after : Project} {run : List Addition}
    (htargets : ∀ id ∈ before.targetIds, id ∈ before.ids)
    (h : Additions digest before run after) : SourcesAdded before after run := by
  obtain ⟨hgrows, hanswers⟩ := h.grows htargets
  have hmem : ∀ a ∈ run, ∀ entry ∈ a.objects, entry ∈ newObjects run :=
    fun a ha entry hentry => List.mem_flatMap.mpr ⟨a, ha, hentry⟩
  constructor
  case distinct => simpa [newObjects, List.map_flatMap, Addition.objects] using hgrows.nodup
  case fresh =>
    intro a ha
    exact ⟨hgrows.fresh _ (hmem a ha _ (.head _)), hgrows.fresh _ (hmem a ha _ (.tail _ (.head _)))⟩
  case children =>
    intro group hgroup
    obtain ⟨_, object, -, -, hobject⟩ := mainGroup?_eq_some_iff.mp hgroup
    rw [hgrows.listOf hobject, newItems_children hgroup, List.map_reverse, List.map_map]
    rfl
  case files =>
    intro phase hphase
    obtain ⟨object, hobject⟩ := exists_object_of_isSourcesPhase hphase
    rw [hgrows.listOf hobject, newItems_files, List.map_reverse, List.map_map]
    rfl
  case references => exact fun a ha => hgrows.added _ (hmem a ha _ (.head _))
  case buildFiles => exact fun a ha => hgrows.added _ (hmem a ha _ (.tail _ (.head _)))
  case grows => exact hgrows
  case answers => exact hanswers

/-- A project whose main group is also the sources phase of both targets. -/
def sharedPhase (children files : List String) (added : List (String × Dictionary PropertyList)) :
    Project :=
  let objects := [
    ("P", ⟨[("mainGroup", .string "G"), ("targets", .array [.string "T", .string "U"])]⟩),
    ("G", ⟨[("isa", .string "PBXSourcesBuildPhase"), ("children", .array (children.map .string)),
      ("files", .array (files.map .string))]⟩),
    ("T", ⟨[("name", .string "App"), ("buildPhases", .array [.string "G"])]⟩),
    ("U", ⟨[("name", .string "Tests"), ("buildPhases", .array [.string "G"])]⟩)] ++ added
  ⟨⟨[("objects", .dictionary ⟨objects.map fun entry => (entry.1, .dictionary entry.2)⟩),
    ("rootObject", .string "P")]⟩⟩

/-- Both targets get a source through one phase, which also lists the new children. -/
theorem sourcesAdded_of_additions_to_sharedPhase :
    let a : Addition := ⟨"App", ⟨"a.m", "a.m", "text"⟩,
      ⟨"6E476EB6C80BA6EF51392294", "49B57949B402CF62A087B6AD"⟩⟩
    let b : Addition := ⟨"Tests", ⟨"b.m", "b.m", "text"⟩,
      ⟨"F1BA8E510037494ED1DCB224", "DE5DD31D4FF4AB4F3FF50C07"⟩⟩
    SourcesAdded (sharedPhase ["old"] [] [])
      (sharedPhase [b.added.fileReference, a.added.fileReference, "old"]
        [b.added.buildFile, a.added.buildFile] (a.objects ++ b.objects))
      [a, b] := by
  intro a b
  have hfirst : Additions .sha256 (sharedPhase ["old"] [] []) [a]
      (sharedPhase [a.added.fileReference, "old"] [a.added.buildFile] a.objects) :=
    .add .done (by decide +kernel) ⟨0, by decide, by decide +kernel⟩
      ⟨0, by decide, by decide +kernel⟩
  have hsecond : Additions .sha256 (sharedPhase ["old"] [] []) ([a] ++ [b])
      (sharedPhase [b.added.fileReference, a.added.fileReference, "old"]
        [b.added.buildFile, a.added.buildFile] (a.objects ++ b.objects)) :=
    hfirst.add (by decide +kernel) ⟨0, by decide, by decide +kernel⟩
      ⟨0, by decide, by decide +kernel⟩
  exact sourcesAdded_of_additions (by decide +kernel) hsecond

end BridgingHeader.Project
