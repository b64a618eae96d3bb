import Mathlib.Data.List.Induction
import BridgingHeader.Config.Files
import BridgingHeader.Proofs.Simulation.Preservation

/-!
# Layers of configurations

A configuration is what it says about each of its keys. A layer decides about the keys that it sets
and leaves the others to what is below it, so that among many layers the last one that sets a key
decides. The configuration in effect has two layers, and the specific one lies over the general one.
-/

namespace BridgingHeader.Config

/-! ### Keys -/

/-- What a configuration can set. -/
inductive Key where
  | xcodebuild
  | clang
  | sourcekitten
  | sdk
  | destination
  | legacyBuildSystem
  | assumeNonnull
  | umbrellaHeader
  deriving DecidableEq, Repr

/-- What a key is set to. -/
def Key.Value : Key → Type
  | .xcodebuild | .clang | .sourcekitten => Path
  | .sdk | .destination | .umbrellaHeader => String
  | .legacyBuildSystem | .assumeNonnull => Bool

/-- The value of a key, if it is set. -/
def value? (c : Config) : (key : Key) → Option key.Value
  | .xcodebuild => c.tools.xcodebuild
  | .clang => c.tools.clang
  | .sourcekitten => c.tools.sourcekitten
  | .sdk => c.build.sdk
  | .destination => c.build.destination
  | .legacyBuildSystem => c.build.legacyBuildSystem
  | .assumeNonnull => c.generate.assumeNonnull
  | .umbrellaHeader => c.generate.umbrellaHeader

/-- Configurations that agree about every key are the same. -/
theorem ext_of_value? {c d : Config} (h : ∀ key, c.value? key = d.value? key) : c = d := by
  obtain ⟨⟨_, _, _⟩, ⟨_, _, _⟩, ⟨_, _⟩⟩ := c
  obtain ⟨⟨_, _, _⟩, ⟨_, _, _⟩, ⟨_, _⟩⟩ := d
  obtain rfl := h .xcodebuild
  obtain rfl := h .clang
  obtain rfl := h .sourcekitten
  obtain rfl := h .sdk
  obtain rfl := h .destination
  obtain rfl := h .legacyBuildSystem
  obtain rfl := h .assumeNonnull
  obtain rfl := h .umbrellaHeader
  rfl

@[simp] theorem value?_empty (key : Key) : empty.value? key = none := by
  cases key <;> rfl

/-- A layer decides about the keys that it sets, and leaves the others to the base. -/
@[simp] theorem value?_merge (base layer : Config) (key : Key) :
    (base.merge layer).value? key = (layer.value? key).or (base.value? key) := by
  cases key <;> rfl

theorem merge_assoc (a b c : Config) : (a.merge b).merge c = a.merge (b.merge c) :=
  ext_of_value? fun key => by simp [Option.or_assoc]

theorem empty_merge (c : Config) : empty.merge c = c :=
  ext_of_value? fun key => by simp

theorem merge_empty (c : Config) : c.merge empty = c :=
  ext_of_value? fun key => by simp

/-! ### Many layers -/

/-- Layers merged one over the other, the most general one first. -/
def ofLayers (layers : List Config) : Config := layers.foldl merge empty

/-- The value of a key is the one that is found first from the last layer down. -/
theorem value?_ofLayers (layers : List Config) (key : Key) :
    (ofLayers layers).value? key = layers.reverse.findSome? fun layer => layer.value? key := by
  induction layers using List.reverseRecOn with
  | nil => exact value?_empty key
  | append_singleton layers layer ih =>
    have hlast : ofLayers (layers ++ [layer]) = (ofLayers layers).merge layer := by
      simp [ofLayers]
    rw [hlast, value?_merge, ih, List.reverse_concat, List.findSome?_cons]
    cases layer.value? key <;> rfl

/-- A layer sets a key to a value, and no layer over it sets the key. -/
def IsLastSetting (layers : List Config) (key : Key) (value : key.Value) : Prop :=
  ∃ below layer above, layers = below ++ layer :: above ∧ layer.value? key = some value ∧
    ∀ other ∈ above, other.value? key = none

theorem value?_ofLayers_eq_some_iff {layers : List Config} {key : Key} {value : key.Value} :
    (ofLayers layers).value? key = some value ↔ IsLastSetting layers key value := by
  rw [value?_ofLayers, List.findSome?_eq_some_iff]
  constructor
  · rintro ⟨above, layer, below, hlayers, hvalue, habove⟩
    refine ⟨below.reverse, layer, above.reverse, ?_, hvalue, fun other hother => ?_⟩
    · simpa using congrArg List.reverse hlayers
    · exact habove other (List.mem_reverse.mp hother)
  · rintro ⟨below, layer, above, rfl, hvalue, habove⟩
    refine ⟨above.reverse, layer, below.reverse, by simp, hvalue, fun other hother => ?_⟩
    exact habove other (List.mem_reverse.mp hother)

theorem value?_ofLayers_eq_none_iff {layers : List Config} {key : Key} :
    (ofLayers layers).value? key = none ↔ ∀ layer ∈ layers, layer.value? key = none := by
  simp [value?_ofLayers, List.findSome?_eq_none_iff]

/-! ### Configuration files -/

section Files

variable (machine : Machine)

/-- What the file at a path sets on a machine. -/
def settingsAt (path : Path) : Config := ((loadOrEmpty path : Simulation Config) machine).1

/-- The configuration that is written in a file, if the file can be read and its text is one. -/
def writtenAt? (path : Path) : Option Config := do
  let contents ← (machine.tree.read machine.directory path).toOption
  let text ← String.fromUTF8? contents
  (parse text).toOption

theorem toOption_readContents (path : Path) :
    ((readContents path : Simulation _) machine).1.toOption =
      (machine.tree.read machine.directory path).toOption.bind String.fromUTF8? := by
  have hreads : (Host.readFile path : Simulation _) machine =
      (machine.tree.read machine.directory path, machine) := rfl
  rw [readContents, bind_of_eq hreads]
  cases machine.tree.read machine.directory path with
  | error cause => rfl
  | ok contents =>
    dsimp only [Except.toOption, Option.bind_some]
    cases String.fromUTF8? contents <;> rfl

theorem toOption_load (path : Path) :
    ((load path : Work Simulation Config).run machine).1.toOption = writtenAt? machine path := by
  have hcontents : (liftM (readContents path : Simulation _) : Work Simulation _).run machine =
      (.ok ((readContents path : Simulation _) machine).1,
        ((readContents path : Simulation _) machine).2) := rfl
  rw [writtenAt?, load, run_bind_of_ok hcontents]
  simp only [Option.bind_eq_bind, ← Option.bind_assoc, ← toOption_readContents]
  cases ((readContents path : Simulation _) machine).1 with
  | error cause => rfl
  | ok text =>
    dsimp only [Except.toOption, Option.bind_some]
    cases parse text <;> rfl

theorem exist_of_read {path : Path} {contents : ByteArray}
    (h : machine.tree.read machine.directory path = .ok contents) :
    ((Files.exist path : Simulation Bool) machine).1 = true := by
  have hexist : ((Files.exist path : Simulation Bool) machine).1 =
      ((machine.find .target path).map fun found => found.2.kind).isOk := rfl
  rw [hexist]
  cases hfind : machine.find .target path with
  | ok found => rfl
  | error cause =>
    rw [FileTree.read, FileTree.openFile, ← Machine.find, hfind] at h
    cases h

/-- A file sets what is written in it. One that cannot be read, or is not a configuration, sets
nothing. -/
theorem settingsAt_eq (path : Path) :
    settingsAt machine path = (writtenAt? machine path).getD empty := by
  obtain ⟨found, hfound⟩ : ∃ found, (Files.exist path : Simulation Bool) machine =
      (found, machine) := ⟨_, rfl⟩
  rw [settingsAt, loadOrEmpty, bind_of_eq hfound]
  cases found with
  | true =>
    rw [← toOption_load, if_pos rfl]
    rcases hload : (load path : Work Simulation Config).run machine with
      ⟨report | config, after⟩ <;>
    · rw [bind_of_eq hload]
      rfl
  | false =>
    rw [if_neg Bool.false_ne_true, writtenAt?]
    cases hread : machine.tree.read machine.directory path with
    | error cause => rfl
    | ok contents =>
      have hexists := exist_of_read machine hread
      rw [hfound] at hexists
      cases hexists

theorem run_loadOrEmpty (path : Path) :
    (loadOrEmpty path : Simulation Config) machine = (settingsAt machine path, machine) := by
  have hcontents : Preserves (· = machine) (readContents path : Simulation _) := by
    refine (Preserves.of_reads fun _ => rfl).bind fun result => ?_
    cases result with
    | error cause => exact .pure _
    | ok contents =>
      dsimp only
      split <;> exact .pure _
  have hload : Preserves (· = machine) (load path : Work Simulation Config).run := by
    refine .run_bind hcontents.liftM fun result => ?_
    cases result with
    | error cause => exact .throw _
    | ok text =>
      dsimp only
      split
      · exact .pure _
      · exact .throw _
  have hkept : Preserves (· = machine) (loadOrEmpty path : Simulation Config) := by
    refine (Preserves.exist path).bind fun found => ?_
    split
    · refine hload.bind fun result => ?_
      cases result <;> exact .pure _
    · exact .pure _
  exact Prod.ext rfl (hkept machine rfl)

/-- Loading merges what the specific file sets over what the general one sets. -/
theorem run_loadLayers (general : Option Path) (specific : Path) :
    (loadLayers general specific : Simulation Config) machine =
      (ofLayers ((general.toList ++ [specific]).map (settingsAt machine)), machine) := by
  cases general with
  | none =>
    have hrun : (loadLayers none specific : Simulation Config) machine =
        let loaded := (loadOrEmpty specific : Simulation Config) machine
        ((empty.merge empty).merge loaded.1, loaded.2) := rfl
    rw [hrun, run_loadOrEmpty, merge_empty]
    rfl
  | some path =>
    have hrun : (loadLayers (some path) specific : Simulation Config) machine =
        let base := (loadOrEmpty path : Simulation Config) machine
        let loaded := (loadOrEmpty specific : Simulation Config) base.2
        ((empty.merge base.1).merge loaded.1, loaded.2) := rfl
    rw [hrun, run_loadOrEmpty]
    simp only [run_loadOrEmpty]
    rfl

end Files

/-- Merging layers is a right-biased override: each key has the value of the last layer that sets it,
whatever the layers say about other keys, and merging is a monoid with the configuration that sets
nothing. So the specific file decides about every key that it sets. -/
theorem last_layer_decides :
    (∀ layers key, (∀ value, (ofLayers layers).value? key = some value ↔
        IsLastSetting layers key value) ∧
      ((ofLayers layers).value? key = none ↔ ∀ layer ∈ layers, layer.value? key = none)) ∧
    (∀ a b c : Config, (a.merge b).merge c = a.merge (b.merge c)) ∧
    (∀ c : Config, empty.merge c = c ∧ c.merge empty = c) ∧
    ∀ (machine : Machine) (general : Option Path) (specific : Path),
      ∃ config, (loadLayers general specific : Simulation Config) machine = (config, machine) ∧
        ∀ key, config.value? key = ((settingsAt machine specific).value? key).or
          (general.bind fun path => (settingsAt machine path).value? key) := by
  refine ⟨fun layers key => ⟨fun value => value?_ofLayers_eq_some_iff,
    value?_ofLayers_eq_none_iff⟩, merge_assoc, fun c => ⟨empty_merge c, merge_empty c⟩, ?_⟩
  intro machine general specific
  refine ⟨_, run_loadLayers machine general specific, fun key => ?_⟩
  cases general <;> simp [ofLayers]

/-- A later layer may switch off what an earlier one switched on. -/
example : (ofLayers [{ build := { legacyBuildSystem := some true } },
    { build := { legacyBuildSystem := some false } },
    { build := { sdk := some "iphoneos" } }]).legacyBuildSystem = false := rfl

end BridgingHeader.Config
