import BridgingHeader.Proofs.Path.Segments
import BridgingHeader.Proofs.Text.Lines
import BridgingHeader.Workspace

/-!
# Names in workspaces

What a run makes beside a project has names of its own: each differs from the name of the project,
and all can be names of children of a directory.
-/

namespace BridgingHeader

open FileTree (IsName)

/-- A file name is cut at its last dot. -/
theorem Path.splitExtension_append {stem extension : String} (hstem : stem ≠ "")
    (hextension : '.' ∉ extension.toList) :
    splitExtension (stem ++ "." ++ extension) = (stem, some extension) := by
  have htext : (stem ++ "." ++ extension).toList.reverse =
      extension.toList.reverse ++ '.' :: stem.toList.reverse := by
    simp
  rw [splitExtension, htext, Text.splitAtFirst_append (by simpa using hextension)]
  simp [hstem]

/-- A file name is its stem with its extension put back. -/
theorem Path.splitExtension_eq (name : String) :
    (splitExtension name).1 ++ ((splitExtension name).2.map ("." ++ ·)).getD "" = name := by
  unfold splitExtension
  split
  · next after before hsplit =>
    split
    · simp
    · apply String.toList_inj.mp
      rw [← List.reverse_inj, Text.eq_of_splitAtFirst hsplit]
      simp
  · simp

namespace Workspace

/-- A text without slashes that is more than dots is a name. -/
theorem isName_of_mem {name : String} (hslash : '/' ∉ name.toList) {c : Char}
    (hc : c ∈ name.toList) (hdot : c ≠ '.') : IsName name := by
  refine ⟨?_, ?_, ?_, hslash⟩ <;> rintro rfl <;> simp_all

/-- The name of a clone. -/
def cloneName (name : String) (seed : Nat) : String :=
  (Path.splitExtension name).1 ++ "-" ++ toString seed ++
    ((Path.splitExtension name).2.map ("." ++ ·)).getD ""

/-- The name of a unit. -/
def unitName (seed : Nat) : String := "Bridging-" ++ toString seed ++ ".m"

/-- The name of a preprocessed unit. -/
def headerName (seed : Nat) : String := "Bridging-" ++ toString seed ++ ".h"

theorem no_slash_toDigits (n : Nat) : '/' ∉ Nat.toDigits 10 n := fun hmem =>
  absurd (Nat.isDigit_of_mem_toDigits (by decide) (by decide) hmem) (by decide)

theorem isName_cloneName {name : String} (h : IsName name) (seed : Nat) :
    IsName (cloneName name seed) := by
  have hslash := h.no_slash
  rw [← Path.splitExtension_eq name, String.toList_append, List.mem_append, not_or] at hslash
  refine isName_of_mem (c := '-') ?_ ?_ (by decide)
  · simp [cloneName, hslash, no_slash_toDigits]
  · simp [cloneName]

theorem cloneName_ne (name : String) (seed : Nat) : cloneName name seed ≠ name := by
  intro h
  have hlength := congrArg String.length h
  conv at hlength => rhs; rw [← Path.splitExtension_eq name]
  simp only [cloneName, String.length_append] at hlength
  have hdash : "-".length = 1 := rfl
  omega

theorem isName_unitName (seed : Nat) : IsName (unitName seed) := by
  refine isName_of_mem (c := 'B') ?_ ?_ (by decide) <;> simp [unitName, no_slash_toDigits]

theorem isName_headerName (seed : Nat) : IsName (headerName seed) := by
  refine isName_of_mem (c := 'B') ?_ ?_ (by decide) <;> simp [headerName, no_slash_toDigits]

theorem extension_unitName (seed : Nat) : (Path.splitExtension (unitName seed)).2 = some "m" := by
  have hname : unitName seed = "Bridging-" ++ toString seed ++ "." ++ "m" := by
    rw [String.append_assoc]
    exact congrArg ("Bridging-" ++ toString seed ++ ·) (by decide : ".m" = "." ++ "m")
  rw [hname, Path.splitExtension_append (by simp) (by decide)]

theorem extension_headerName (seed : Nat) :
    (Path.splitExtension (headerName seed)).2 = some "h" := by
  have hname : headerName seed = "Bridging-" ++ toString seed ++ "." ++ "h" := by
    rw [String.append_assoc]
    exact congrArg ("Bridging-" ++ toString seed ++ ·) (by decide : ".h" = "." ++ "h")
  rw [hname, Path.splitExtension_append (by simp) (by decide)]

/-- What is made beside a project stands in its parent. -/
theorem exists_of_ofProject {project : Path} {seed : Nat} {workspace : Workspace}
    (h : ofProject project seed = .ok workspace) :
    ∃ name directory, project.fileName? = some name ∧ project.parent? = some directory ∧
      workspace =
        { clone := directory.join ⟨cloneName name seed⟩
          unit := directory.join ⟨unitName seed⟩
          header := directory.join ⟨headerName seed⟩ } := by
  unfold ofProject at h
  split at h
  · cases h
  next stem hstem =>
  obtain ⟨name, hname, rfl⟩ := Option.map_eq_some_iff.mp hstem
  obtain ⟨-, directory, hparent, -⟩ := Path.exists_parent?_of_fileName? hname
  refine ⟨name, directory, hname, hparent, ?_⟩
  rw [hparent, Path.extension?, hname] at h
  cases h
  rfl

/-- The clone is not the project. -/
theorem not_equivalent_of_ofProject {project : Path} {seed : Nat} {workspace : Workspace}
    (h : ofProject project seed = .ok workspace) :
    workspace.clone.equivalent project = false := by
  obtain ⟨name, directory, hname, -, rfl⟩ := exists_of_ofProject h
  obtain ⟨hisName, -⟩ := Path.exists_parent?_of_fileName? hname
  rw [Path.equivalent, decide_eq_false_iff_not]
  intro hcomponents
  have hfile : (directory.join ⟨cloneName name seed⟩).fileName? = project.fileName? := by
    rw [Path.fileName?, hcomponents, Path.fileName?]
  rw [Path.fileName?_join directory (isName_cloneName hisName seed), hname] at hfile
  exact cloneName_ne name seed (Option.some.inj hfile)

end Workspace

end BridgingHeader
