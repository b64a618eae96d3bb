import Mathlib.Data.List.Nodup
import BridgingHeader.Proofs.Generation.Footprint
import BridgingHeader.Proofs.Path.Components

/-!
# Names that do not collide

The artifacts of a run have the directory of the project as their parent. The extension of the
project tells their names apart, and the number in them those of one run from those of another.
Neither lets an artifact be the project.
-/

namespace BridgingHeader

open FileTree (IsName)

/-- A name has an extension exactly when it has a dot behind its first character. -/
theorem Path.splitExtension_eq_none_iff (name : String) :
    (splitExtension name).2 = none ↔ '.' ∉ name.toList.tail := by
  have hname : name.toList = name.toList.reverse.reverse := (List.reverse_reverse _).symm
  unfold splitExtension
  split
  · next after before hsplit =>
    have htext : name.toList = before.reverse ++ '.' :: after.reverse := by
      rw [hname, Text.eq_of_splitAtFirst hsplit]
      simp
    have hafter : '.' ∉ after := Text.not_mem_of_splitAtFirst hsplit
    split
    · next hbefore => simp [htext, hbefore, hafter]
    · next hbefore =>
      obtain ⟨c, rest, hc⟩ := List.exists_cons_of_ne_nil (mt List.reverse_eq_nil_iff.mp hbefore)
      simp [htext, hc]
  · next hsplit =>
    have hnot : '.' ∉ name.toList := by simpa using Text.splitAtFirst_eq_none_iff.mp hsplit
    exact iff_of_true rfl fun hmem => hnot (List.mem_of_mem_tail hmem)

theorem Path.no_dot_extension {name extension : String}
    (h : (splitExtension name).2 = some extension) : '.' ∉ extension.toList := by
  unfold splitExtension at h
  split at h
  · next after before hsplit =>
    split at h
    · cases h
    · cases h
      simpa using Text.not_mem_of_splitAtFirst hsplit
  · cases h

theorem Files.absolute_of_isAbsolute {m : Type → Type} [Monad m] [Host m] {path : Path}
    (h : path.isAbsolute = true) : (Files.absolute path : m Path) = pure path := by
  rw [Files.absolute, if_pos h]

namespace Workspace

/-! ### Names -/

/-- The names of the artifacts of a run on a project with a name. -/
def names (name : String) (seed : Nat) : List String :=
  [cloneName name seed, unitName seed, headerName seed]

theorem isName_of_mem_names {name other : String} (hname : IsName name) {seed : Nat}
    (h : other ∈ names name seed) : IsName other := by
  simp only [names, List.mem_cons, List.not_mem_nil, or_false] at h
  rcases h with rfl | rfl | rfl
  · exact isName_cloneName hname seed
  · exact isName_unitName seed
  · exact isName_headerName seed

theorem no_dot_toDigits (n : Nat) : '.' ∉ Nat.toDigits 10 n := fun hmem =>
  absurd (Nat.isDigit_of_mem_toDigits (by decide) (by decide) hmem) (by decide)

/-- The clone has the extension of the project. -/
theorem extension_cloneName (name : String) (seed : Nat) :
    (Path.splitExtension (cloneName name seed)).2 = (Path.splitExtension name).2 := by
  have hname := Path.splitExtension_eq name
  rcases hextension : (Path.splitExtension name).2 with _ | extension
  · rw [hextension] at hname
    have hstem : (Path.splitExtension name).1 = name := by simpa using hname
    have hdot := (Path.splitExtension_eq_none_iff name).mp hextension
    rw [Path.splitExtension_eq_none_iff, cloneName, hstem, hextension]
    rcases htext : name.toList with _ | ⟨c, rest⟩
    · simp [htext, no_dot_toDigits]
    · rw [htext, List.tail_cons] at hdot
      simp [htext, hdot, no_dot_toDigits]
  · have hclone : cloneName name seed =
        (Path.splitExtension name).1 ++ "-" ++ toString seed ++ "." ++ extension := by
      simp [cloneName, hextension, String.append_assoc]
    rw [hclone, Path.splitExtension_append (by simp) (Path.no_dot_extension hextension)]

theorem toString_inj {n m : Nat} : toString n = toString m ↔ n = m := by
  refine ⟨fun h => ?_, congrArg toString⟩
  rw [Nat.toString_eq_ofList_toDigits, Nat.toString_eq_ofList_toDigits, String.ofList_inj] at h
  rw [← Nat.ofDigitChars_ten_toDigits (n := n), h, Nat.ofDigitChars_ten_toDigits]

theorem cloneName_inj {name : String} {n m : Nat} :
    cloneName name n = cloneName name m ↔ n = m := by
  rw [cloneName, cloneName, String.append_left_inj, String.append_right_inj, toString_inj]

theorem unitName_inj {n m : Nat} : unitName n = unitName m ↔ n = m := by
  rw [unitName, unitName, String.append_left_inj, String.append_right_inj, toString_inj]

theorem headerName_inj {n m : Nat} : headerName n = headerName m ↔ n = m := by
  rw [headerName, headerName, String.append_left_inj, String.append_right_inj, toString_inj]

section Distinct

variable {name : String} (hunit : (Path.splitExtension name).2 ≠ some "m")
  (hheader : (Path.splitExtension name).2 ≠ some "h")

include hunit hheader

/-- The artifacts of one run have different extensions. -/
theorem nodup_names (seed : Nat) : (names name seed).Nodup := by
  apply List.Nodup.of_map fun other => (Path.splitExtension other).2
  simp [names, extension_cloneName, extension_unitName, extension_headerName, hunit, hheader]

/-- Artifacts of two runs differ in their extension, or else in their number. -/
theorem ne_of_mem_names {n m : Nat} (h : n ≠ m) {a b : String} (ha : a ∈ names name n)
    (hb : b ∈ names name m) : a ≠ b := by
  intro hab
  have hextension : (Path.splitExtension a).2 = (Path.splitExtension b).2 := by rw [hab]
  simp only [names, List.mem_cons, List.not_mem_nil, or_false] at ha hb
  rcases ha with rfl | rfl | rfl
  · rw [extension_cloneName] at hextension
    rcases hb with rfl | rfl | rfl
    · exact h (cloneName_inj.mp hab)
    · exact hunit (hextension.trans (extension_unitName m))
    · exact hheader (hextension.trans (extension_headerName m))
  · rw [extension_unitName] at hextension
    rcases hb with rfl | rfl | rfl
    · exact hunit (hextension.trans (extension_cloneName name m)).symm
    · exact h (unitName_inj.mp hab)
    · exact absurd (hextension.trans (extension_headerName m)) (by decide)
  · rw [extension_headerName] at hextension
    rcases hb with rfl | rfl | rfl
    · exact hheader (hextension.trans (extension_cloneName name m)).symm
    · exact absurd (hextension.trans (extension_unitName m)) (by decide)
    · exact h (headerName_inj.mp hab)

theorem ne_name_of_mem_names {seed : Nat} {other : String} (h : other ∈ names name seed) :
    other ≠ name := by
  simp only [names, List.mem_cons, List.not_mem_nil, or_false] at h
  rcases h with rfl | rfl | rfl
  · exact cloneName_ne name seed
  · rintro rfl
    exact hunit (extension_unitName seed)
  · rintro rfl
    exact hheader (extension_headerName seed)

end Distinct

/-! ### Artifacts -/

/-- The artifacts of a run on a path with a file name are followed from its parent. -/
theorem exists_artifacts_of_fileName? {project directory : Path} {name : String}
    (hname : project.fileName? = some name) (hparent : project.parent? = some directory)
    (seed : Nat) : ∃ workspace, ofProject project seed = .ok workspace ∧
      workspace.artifacts = (names name seed).map fun other => directory.join ⟨other⟩ := by
  have hstem : project.stem? = some (Path.splitExtension name).1 := by
    rw [Path.stem?, hname]
    rfl
  obtain ⟨workspace, hworkspace⟩ : ∃ workspace, ofProject project seed = .ok workspace := by
    rw [ofProject, hstem]
    exact ⟨_, rfl⟩
  obtain ⟨name', directory', hname', hparent', rfl⟩ := exists_of_ofProject hworkspace
  obtain rfl : name = name' := Option.some.inj (hname.symm.trans hname')
  obtain rfl : directory = directory' := Option.some.inj (hparent.symm.trans hparent')
  exact ⟨_, hworkspace, rfl⟩

/-- The artifacts are distinct siblings of a project, which none of them contains or lies in. -/
structure IsBeside (workspace : Workspace) (project : Path) : Prop where
  parent : ∃ directory, project.parent? = some directory ∧ ∀ artifact ∈ workspace.artifacts,
    ∃ own, artifact.parent? = some own ∧ own.components = directory.components
  distinct : (workspace.artifacts.map Path.components).Nodup
  apart : ∀ artifact ∈ workspace.artifacts,
    ¬ artifact.components <+: project.components ∧ ¬ project.components <+: artifact.components

section Siblings

variable {project directory : Path} {name : String} (habsolute : project.isAbsolute = true)
  (hname : project.fileName? = some name) (hparent : project.parent? = some directory)

include habsolute hname hparent

/-- A sibling of a project has the components of the parent and a name. -/
theorem components_sibling {other : String} (hother : IsName other) :
    (directory.join ⟨other⟩).components = directory.components ++ [.name other] ∧
      ∃ own, (directory.join ⟨other⟩).parent? = some own ∧
        own.components = directory.components := by
  obtain ⟨-, directory', hparent', hstart, -⟩ := Path.exists_parent?_of_fileName? hname
  obtain rfl : directory' = directory := Option.some.inj (hparent'.symm.trans hparent)
  have hcomponents := Path.components_join_name (hstart.trans habsolute) hother
  have hlast := Path.fileName?_join directory' hother
  obtain ⟨-, own, hown, -⟩ := Path.exists_parent?_of_fileName? hlast
  have hjoin : (directory'.join ⟨other⟩).isAbsolute = true := by
    rw [FileTree.isAbsolute_join directory' hother.isAbsolute_eq, hstart, habsolute]
  have hbefore := Path.components_of_parent? hjoin hlast hown
  rw [hcomponents] at hbefore
  exact ⟨hcomponents, own, hown, (List.append_left_inj _ |>.mp hbefore).symm⟩

theorem isBeside_of_artifacts (hunit : (Path.splitExtension name).2 ≠ some "m")
    (hheader : (Path.splitExtension name).2 ≠ some "h") {seed : Nat} {workspace : Workspace}
    (h : workspace.artifacts = (names name seed).map fun other => directory.join ⟨other⟩) :
    workspace.IsBeside project := by
  have hisName := (Path.exists_parent?_of_fileName? hname).1
  have hsibling {other : String} (hother : other ∈ names name seed) :=
    components_sibling habsolute hname hparent (isName_of_mem_names hisName hother)
  have hproject := Path.components_of_parent? habsolute hname hparent
  constructor
  case parent =>
    refine ⟨directory, hparent, fun artifact hartifact => ?_⟩
    rw [h] at hartifact
    obtain ⟨other, hother, rfl⟩ := List.mem_map.mp hartifact
    exact (hsibling hother).2
  case distinct =>
    rw [h, List.map_map]
    refine List.Nodup.map_on (fun a ha b hb hab => ?_) (nodup_names hunit hheader seed)
    simpa [(hsibling ha).1, (hsibling hb).1] using hab
  case apart =>
    intro artifact hartifact
    rw [h] at hartifact
    obtain ⟨other, hother, rfl⟩ := List.mem_map.mp hartifact
    have hne := ne_name_of_mem_names hunit hheader hother
    rw [(hsibling hother).1, hproject]
    constructor
    · intro hprefix
      have hsame := hprefix.eq_of_length (by simp)
      simp [hne] at hsame
    · intro hprefix
      have hsame := hprefix.eq_of_length (by simp)
      simp [hne.symm] at hsame

end Siblings

/-- For each number the artifacts of a run stand beside the project, and no two numbers share one.
The path that a run makes absolute first is left as it is. -/
theorem artifacts_beside {project : Path} {name : String} (habsolute : project.isAbsolute = true)
    (hname : project.fileName? = some name) (hunit : project.extension? ≠ some "m")
    (hheader : project.extension? ≠ some "h") (n m : Nat) :
    (∀ (host : Type → Type) [Monad host] [Host host],
      (Files.absolute project : host Path) = pure project) ∧
    ∃ v w, ofProject project n = .ok v ∧ ofProject project m = .ok w ∧
      v.IsBeside project ∧ w.IsBeside project ∧
      (n ≠ m → ∀ a ∈ v.artifacts, ∀ b ∈ w.artifacts, a.components ≠ b.components) := by
  obtain ⟨hisName, directory, hparent, -⟩ := Path.exists_parent?_of_fileName? hname
  rw [Path.extension?, hname] at hunit hheader
  obtain ⟨v, hv, hvArtifacts⟩ := exists_artifacts_of_fileName? hname hparent n
  obtain ⟨w, hw, hwArtifacts⟩ := exists_artifacts_of_fileName? hname hparent m
  refine ⟨fun _ _ _ => Files.absolute_of_isAbsolute habsolute, v, w, hv, hw,
    isBeside_of_artifacts habsolute hname hparent hunit hheader hvArtifacts,
    isBeside_of_artifacts habsolute hname hparent hunit hheader hwArtifacts, ?_⟩
  intro hne a ha b hb hab
  rw [hvArtifacts] at ha
  rw [hwArtifacts] at hb
  obtain ⟨other, hother, rfl⟩ := List.mem_map.mp ha
  obtain ⟨other', hother', rfl⟩ := List.mem_map.mp hb
  rw [(components_sibling habsolute hname hparent (isName_of_mem_names hisName hother)).1,
    (components_sibling habsolute hname hparent (isName_of_mem_names hisName hother')).1] at hab
  exact ne_of_mem_names hunit hheader hne hother hother' (by simpa using hab)

/-- A project whose name looks like that of an artifact is told apart from them all the same. -/
theorem artifacts_beside_of_bridging :
    let project : Path := ⟨"/work/./Bridging-7.m.h.d/"⟩
    project.isAbsolute = true ∧ project.fileName? = some "Bridging-7.m.h.d" ∧
    project.extension? ≠ some "m" ∧ project.extension? ≠ some "h" ∧
    ∃ v w, ofProject project 7 = .ok v ∧ ofProject project 70 = .ok w ∧
      v.IsBeside project ∧ w.IsBeside project ∧
      ∀ a ∈ v.artifacts, ∀ b ∈ w.artifacts, a.components ≠ b.components := by
  intro project
  have habsolute : project.isAbsolute = true := by decide
  have hname : project.fileName? = some "Bridging-7.m.h.d" := by decide
  have hunit : project.extension? ≠ some "m" := by decide
  have hheader : project.extension? ≠ some "h" := by decide
  obtain ⟨-, v, w, hv, hw, hvBeside, hwBeside, hne⟩ :=
    artifacts_beside habsolute hname hunit hheader 7 70
  exact ⟨habsolute, hname, hunit, hheader, v, w, hv, hw, hvBeside, hwBeside, hne (by decide)⟩

end Workspace

end BridgingHeader
