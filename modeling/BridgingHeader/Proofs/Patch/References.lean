import BridgingHeader.Patch
import BridgingHeader.Simulation.Machine
import BridgingHeader.Proofs.Path.Relative

/-!
# References and their sources

A project looks for the source of a reference from the directory in which it stands. There the path
of the reference leads back to the source, unless the directory is written with a `..` behind what
it shares with the source: climbing out of such a directory goes too far.
-/

namespace BridgingHeader.Project

open FileTree (placeOf)
open BridgingHeader.Path (Component placeAlong)

/-- Absolute paths are taken as they are. -/
theorem run_referenceTo {project source : Path} (hproject : project.isAbsolute = true)
    (hsource : source.isAbsolute = true) (machine : Machine) :
    (referenceTo project source : Simulation FileReference).run machine =
      (.forSource project source, machine) := by
  have habsolute : ∀ {path : Path}, path.isAbsolute = true →
      (Files.absolute path : Simulation Path) = pure path := by
    intro path hpath
    rw [Files.absolute, if_pos hpath]
  rw [referenceTo, habsolute hproject, habsolute hsource]
  rfl

/-- The path of a reference leads from the directory of the project to the source exactly in three
cases: the directory does not go up behind what the two share; it goes up right there, so that the
source is referred to by its absolute path; or what is shared does not matter to where the source
leads. -/
theorem reference_leads_back_iff {project source directory : Path} (machine : Machine)
    (hproject : project.isAbsolute = true) (hsource : source.isAbsolute = true)
    (hdirectory : project.parent? = some directory) :
    placeOf [] (directory.join
        ⟨((referenceTo project source : Simulation FileReference).run machine).1.path⟩) =
      placeOf [] source ↔
    .up ∉ directory.beyond source ∨
    ((directory.beyond source).head? = some .up ∧ source.beyond directory ≠ []) ∨
    placeAlong [] (source.beyond directory) = placeOf [] source := by
  have habsolute : directory.isAbsolute = true :=
    (Path.steps_parent?_prefix hdirectory).1.trans hproject
  have hpath : (⟨(FileReference.forSource project source).path⟩ : Path) =
      source.relativeTo directory := by
    rw [FileReference.forSource, hdirectory]
    rfl
  rw [run_referenceTo hproject hsource, hpath]
  exact Path.placeOf_join_relativeTo_eq_iff hsource habsolute

/-- A directory and a source that share a step up, with a step up in the rest of the source too. -/
theorem reference_leads_back_of_sharedStepUp :
    Path.parent? ⟨"/w/./lib/../app//App.xcodeproj"⟩ = some ⟨"/w/./lib/../app"⟩ ∧
    ((referenceTo ⟨"/w/./lib/../app//App.xcodeproj"⟩ ⟨"/w/lib/../src/./gen/../x.m"⟩ :
      Simulation FileReference).run {}).1.path = "../src/gen/../x.m" ∧
    placeOf [] (Path.join ⟨"/w/./lib/../app"⟩
        ⟨((referenceTo ⟨"/w/./lib/../app//App.xcodeproj"⟩ ⟨"/w/lib/../src/./gen/../x.m"⟩ :
          Simulation FileReference).run {}).1.path⟩) =
      placeOf [] ⟨"/w/lib/../src/./gen/../x.m"⟩ := by
  have hdirectory : Path.parent? ⟨"/w/./lib/../app//App.xcodeproj"⟩ =
      some ⟨"/w/./lib/../app"⟩ := by decide +kernel
  have hback := @reference_leads_back_iff _ ⟨"/w/lib/../src/./gen/../x.m"⟩ _ {} (by decide)
    (by decide) hdirectory
  exact ⟨hdirectory, by decide +kernel, hback.mpr (.inl (by decide +kernel))⟩

/-- A step up at the end of the directory makes the reference climb too far. -/
theorem exists_reference_leading_elsewhere : ∃ project source directory : Path,
    project.isAbsolute = true ∧ source.isAbsolute = true ∧ project.parent? = some directory ∧
    placeOf [] (directory.join
        ⟨((referenceTo project source : Simulation FileReference).run {}).1.path⟩) ≠
      placeOf [] source :=
  ⟨⟨"/w/a/../App.xcodeproj"⟩, ⟨"/w/s.m"⟩, ⟨"/w/a/.."⟩, by decide +kernel⟩

end BridgingHeader.Project
