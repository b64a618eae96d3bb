import BridgingHeader.Digest.Sha256
import BridgingHeader.Proofs.FileTree.Headings
import BridgingHeader.Proofs.Simulation.Cleanup

/-!
# The original of a patched project

A patch that goes to another place leaves the descriptor of the original as it was, whether it
succeeds or not, unless the path of the output heads for the descriptor or for a directory above it.
Links matter only where the output is removed first: the way to it must not lead through a link that
goes away with it, and if nothing is found to be removed, no links may be left there through which
the copy could be written elsewhere.
-/

namespace BridgingHeader

open FileTree (Plain Named Listed LinkFree Heading HeadsFor Permissions placeOf removedPlace steps)

open Temporaries (Tracking removal removal_spec cleanUp_eq)

open Temporaries.Tracking (track ofWork endOf endOf_bind endOf_track endOf_ofWork endOf_ofWork_liftM
  run_of_endOf_ofWork)

/-- What a patch does at the output once the project is there. -/
def Project.addition (digest : Digest) (options : PatchOptions) (output : Path) :
    Work Simulation PatchResult := do
  let file ← (referenceTo output options.source : Simulation _)
  let added ← registerSource digest output options.target file output
  return { project := output, file, added }

theorem Fillable.addition {I : Machine → Prop} {output : Path} (h : Fillable I output)
    (digest : Digest) (options : PatchOptions) :
    Preserves I (Project.addition digest options output).run :=
  .run_bind (Preserves.referenceTo output options.source).liftM fun file =>
    .run_bind (h.registerSource digest output options.target file) fun _ => .pure _

/-- A path heads for the same place when a change of the file tree takes the working directory away,
unless it does not leave it. -/
theorem Machine.headsFor_of_withTree {machine : Machine} {tree : FileTree} {output : Path}
    {heading : Heading} (hroot : tree.isDirectory = true)
    (hblank : ∀ place, "" ∈ place → tree.get? place = none)
    (h : HeadsFor tree (machine.withTree tree).directory output heading) :
    HeadsFor tree machine.directory output heading ∨ "" ∈ heading.place := by
  change HeadsFor tree (if tree.isDirectoryAt machine.directory then machine.directory
    else removedPlace machine.directory) output heading at h
  split at h
  · exact .inl h
  · next hgone =>
    refine h.of_removedPlace (fun hnil => hgone ?_) (by simpa using hgone) hblank
    rw [hnil]
    exact hroot

section Bundles

variable {place : Place} {permissions : Permissions} {contents : ByteArray} {output : Path}
  {machine : Machine}

/-! ### Files that are avoided -/

/-- A file stands at a place below the root, and a path heads neither there nor for a directory above
it. -/
structure Avoids (place : Place) (permissions : Permissions) (contents : ByteArray) (output : Path)
    (machine : Machine) : Prop where
  below : place ≠ []
  file : machine.tree.get? place = some (.file permissions contents)
  apart : ∀ heading, HeadsFor machine.tree machine.directory output heading →
    ¬ heading.place <+: place

/-- What is removed at a path that avoids a file is not the file. -/
theorem Avoids.get?_removal (h : Avoids place permissions contents output machine) :
    (removal output machine).2.tree.get? place = some (.file permissions contents) := by
  have hspec := removal_spec output machine
  generalize (removal output machine).1 = result, (removal output machine).2 = after at hspec
  cases hspec with
  | absent => exact h.file
  | refused => exact h.file
  | file found leaf removed =>
    obtain ⟨followed, hheads⟩ := FileTree.exists_headsFor_of_find found
    obtain ⟨-, -, rfl⟩ := FileTree.of_removeFile found removed
    have hfile := h.file
    rw [← FileTree.node?_eq_file_iff] at hfile
    exact FileTree.node?_eq_file_iff.mp
      ((FileTree.node?_alter (h.apart _ hheads) _ _).trans hfile)
  | tree found directory removed =>
    obtain ⟨followed, hheads⟩ := FileTree.exists_headsFor_of_find found
    have hkept := FileTree.file_of_removeTree h.below h.file found (h.apart _ hheads)
    rw [removed] at hkept
    exact hkept

/-! ### Filling a bundle -/

/-- A path avoids a file, and no links are left where it heads. -/
structure Secluded (place : Place) (permissions : Permissions) (contents : ByteArray) (output : Path)
    (machine : Machine) : Prop extends Avoids place permissions contents output machine where
  named : Named machine.tree
  free : ∀ heading, HeadsFor machine.tree machine.directory output heading →
    LinkFree machine.tree heading.place

namespace Secluded

/-- A leaf that is put in the place of another one is not noticed at the file or on the way. -/
theorem set (h : Secluded place permissions contents output machine) {changed : Place}
    {sub : FileTree} (hset : machine.tree.Settable changed) (hleaf : machine.tree.IsLeaf changed)
    (hold : ∀ target, machine.tree.get? changed ≠ some (.link target)) (hother : changed ≠ place)
    (hnamed : Named sub) (hsub : sub.children = []) (hnew : ∀ target, sub ≠ .link target) :
    Secluded place permissions contents output
      (machine.withTree (machine.tree.set changed sub)) := by
  have hchanged : changed ≠ [] := by
    rintro rfl
    obtain ⟨name, rest, hplace⟩ := List.exists_cons_of_ne_nil h.below
    have hbelow : machine.tree.get? (name :: rest) = none := hleaf.get?_below name rest
    rw [← hplace, h.file] at hbelow
    cases hbelow
  have hfile : (machine.tree.set changed sub).get? place = some (.file permissions contents) := by
    rw [← FileTree.node?_eq_file_iff,
      FileTree.node?_set_of_ne hset hchanged hleaf hsub hother.symm]
    exact FileTree.node?_eq_file_iff.mpr h.file
  have hnames : Named (machine.tree.set changed sub) := h.named.set hset hnamed
  have hlinks := FileTree.sameLinks_set hset hchanged hleaf hsub hold hnew
  have hroot := FileTree.isDirectory_of_below h.below hfile
  have hheading : ∀ heading, HeadsFor (machine.tree.set changed sub)
      (machine.withTree (machine.tree.set changed sub)).directory output heading →
      HeadsFor machine.tree machine.directory output heading ∨ "" ∈ heading.place :=
    fun heading hheads => (Machine.headsFor_of_withTree hroot (fun _ => hnames.get?_eq_none)
      hheads).imp_left fun hheads => hheads.of_sameLinks hlinks
  refine ⟨⟨h.below, hfile, fun heading hheads habove => ?apart⟩, hnames, ?free⟩
  case apart =>
    rcases hheading heading hheads with hbefore | hempty
    · exact h.apart heading hbefore habove
    · exact (h.named.isName_of_get? h.file "" (habove.mem hempty)).ne_empty rfl
  case free =>
    intro heading hheads below target hlink
    rcases hheading heading hheads with hbefore | hempty
    · exact h.free heading hbefore below target ((hlinks _ _).mp hlink)
    · have hnone := hnames.get?_eq_none (List.mem_append_left below hempty)
      cases hnone.symm.trans hlink

/-- A file is put at the path or below it only where no file is avoided. -/
theorem openOutput (h : Secluded place permissions contents output machine) {path : Path}
    (hpath : Under output path) {changed : Place} {found : Option Permissions}
    (hopen : machine.tree.openOutput machine.directory path = .ok (changed, found)) :
    changed ≠ place ∧ machine.tree.Settable changed ∧
      (machine.tree.get? changed = none ∧ found = none ∨ ∃ permissions contents,
        machine.tree.get? changed = some (.file permissions contents) ∧
          found = some permissions) := by
  obtain ⟨spot, hspot, -⟩ := bind_eq_ok_iff.mp hopen
  obtain ⟨heading, hheads⟩ := FileTree.exists_headsFor_of_resolve hspot
  obtain ⟨hfree, happart⟩ : LinkFree machine.tree heading.place ∧ ¬ heading.place <+: place := by
    rcases hpath with rfl | ⟨names, hnames, rfl⟩
    · exact ⟨h.free heading hheads, h.apart heading hheads⟩
    · obtain ⟨base, hbase⟩ := hheads.exists_of_join hnames
      cases (hbase.join hnames (h.free base hbase)).unique hheads
      exact ⟨(h.free base hbase).append names,
        fun habove => h.apart base hbase ((List.prefix_append _ names).trans habove)⟩
  obtain ⟨rfl, hset⟩ := FileTree.settable_of_fits (fun spot => hheads.fits hfree) hopen
  exact ⟨fun heq => happart (heq ▸ List.prefix_rfl), hset⟩

/-- Files may be written at the path and below it. -/
theorem change (h : Secluded place permissions contents output machine)
    {operation : FileTree → Place → Except Cause FileTree} {path : Path}
    (hpath : Under output path) (hoperation : ∀ t t' directory, operation t directory = .ok t' →
      ∃ changed found new bytes, t.openOutput directory path = .ok (changed, found) ∧
        t' = t.set changed (.file new bytes)) :
    Secluded place permissions contents output (Machine.change operation machine).2 := by
  unfold Machine.change
  split
  · next tree htree =>
    obtain ⟨changed, found, new, bytes, hopen, rfl⟩ := hoperation _ _ _ htree
    obtain ⟨hother, hset, hthere⟩ := h.openOutput hpath hopen
    have hleaf : machine.tree.IsLeaf changed := by
      intro sub hsub
      rcases hthere with ⟨hnone, -⟩ | ⟨permissions, contents, hfile, -⟩
      · rw [hnone] at hsub
        cases hsub
      · rw [hfile] at hsub
        cases hsub
        rfl
    refine h.set hset hleaf (fun target hlink => ?_) hother (.leaf trivial rfl) rfl
      (by simp)
    rcases hthere with ⟨hnone, -⟩ | ⟨permissions, contents, hfile, -⟩
    · rw [hnone] at hlink
      cases hlink
    · rw [hfile] at hlink
      cases hlink
  · exact h

theorem makeDirectory (path : Path) :
    Preserves (Secluded place permissions contents output)
      (Host.makeDirectory path : Simulation _) := by
  intro machine h
  change Secluded place permissions contents output (Machine.change (fun tree directory =>
    tree.makeDirectory directory path) machine).2
  unfold Machine.change
  split
  · next tree htree =>
    obtain ⟨made, -, hvacant, hchangeable, rfl⟩ := FileTree.exists_set_of_makeDirectory htree
    have hnone : machine.tree.get? made = none := hvacant.2.1
    refine h.set (.inr ⟨hvacant, hchangeable⟩) (fun sub hsub => ?_) (fun target hlink => ?_)
      (fun heq => ?_) (.leaf (List.forall_mem_nil _) rfl) rfl (by simp [FileTree.empty])
    · rw [hnone] at hsub
      cases hsub
    · rw [hnone] at hlink
      cases hlink
    · rw [heq, h.file] at hnone
      cases hnone
  · exact h

theorem makeAllDirectories (path : Path) :
    Preserves (Secluded place permissions contents output)
      (Files.makeAllDirectories path : Task Simulation Unit).run :=
  .run_at (.makeDirectories (R := fun _ => True) (fun path _ => makeDirectory path)
    (fun _ _ _ _ _ _ _ => trivial) _ trivial)

/-- A bundle may be filled where the file is avoided. -/
theorem fillable : Fillable (Secluded place permissions contents output) output where
  isName _ _ _ h := FileTree.isName_of_list h.named
  writeFile _ _ hpath _ h := h.change hpath fun _ _ _ hwrite => by
    obtain ⟨⟨changed, found⟩, hopen, hset⟩ := bind_eq_ok_iff.mp hwrite
    cases hset
    exact ⟨changed, found, _, _, hopen, rfl⟩
  copyFile _ _ hpath _ h := h.change hpath fun _ _ _ hcopy => by
    obtain ⟨_, -, hcopy⟩ := bind_eq_ok_iff.mp hcopy
    obtain ⟨⟨changed, found⟩, hopen, hset⟩ := bind_eq_ok_iff.mp hcopy
    cases hset
    exact ⟨changed, found, _, _, hopen, rfl⟩
  make path _ := makeAllDirectories path
  ensure := by
    unfold Files.ensureParent
    split
    · exact .ensureDirectory (makeAllDirectories _)
    · exact .pure _

end Secluded

/-! ### Clearing the way -/

/-- A bundle can be put at a path without reaching a place. -/
structure KeepsClear (machine : Machine) (output : Path) (place : Place) : Prop where
  /-- The path heads neither for the place nor for a directory above it. -/
  apart : ∀ heading, HeadsFor machine.tree machine.directory output heading →
    ¬ heading.place <+: place
  /-- What is removed where the path heads is no link on its way. -/
  steady : ∀ heading, HeadsFor machine.tree machine.directory output heading →
    ∀ link ∈ heading.followed, ¬ heading.place <+: link
  /-- If nothing is found to be removed, no links are there. -/
  bare : machine.find .entry output = .error .noEntry →
    ∀ heading, HeadsFor machine.tree machine.directory output heading →
      LinkFree machine.tree heading.place

section Clearing

variable (hmachine : machine.WellFormed) (hnamed : Named machine.tree) (hplace : place ≠ [])
  (hfile : machine.tree.get? place = some (.file permissions contents))
  (hclear : KeepsClear machine output place)
include hmachine hplace hfile hclear

/-- A removal at the path leaves the file alone, and the path avoids it from then on. -/
theorem KeepsClear.removed {result : Except Failure Unit} {after : Machine}
    (h : Temporaries.Removal machine output result after) :
    Avoids place permissions contents output after ∧ Listed after.tree ∧
      ∀ heading, HeadsFor after.tree after.directory output heading →
        (after = machine ∨ ∃ sub, machine.find .entry output = .ok (heading.place, sub)) ∨
          "" ∈ heading.place := by
  rcases h.cut hmachine with rfl | ⟨found, sub, tree, hfind, hcut, rfl⟩
  · exact ⟨⟨hplace, hfile, hclear.apart⟩, hmachine.listed, fun _ _ => .inl (.inl rfl)⟩
  obtain ⟨followed, hheads⟩ := FileTree.exists_headsFor_of_find hfind
  have hkept : tree.get? place = some (.file permissions contents) := by
    rw [← FileTree.node?_eq_file_iff] at hfile ⊢
    exact (hcut.beside place (hclear.apart _ hheads)).trans hfile
  have hnew : ∀ place target, tree.get? place = some (.link target) →
      machine.tree.get? place = some (.link target) := by
    intro place target hlink
    rw [← FileTree.node?_eq_link_iff] at hlink ⊢
    rcases hcut.remains place with hnone | hsame
    · rw [hnone] at hlink
      cases hlink
    · rw [← hsame, hlink]
  -- The links on the way are still there, so that the path heads for what was removed.
  have hstill : HeadsFor tree machine.directory output ⟨found, followed⟩ := by
    refine hheads.congr hnew fun link hlink target hget => ?_
    rw [← FileTree.node?_eq_link_iff] at hget ⊢
    exact (hcut.beside link (hclear.steady _ hheads link hlink)).trans hget
  have hheading : ∀ heading, HeadsFor tree (machine.withTree tree).directory output heading →
      heading.place = found ∨ "" ∈ heading.place := by
    intro heading hafter
    refine (Machine.headsFor_of_withTree (FileTree.isDirectory_of_below hplace hkept)
      (fun _ => hcut.listed.get?_eq_none) hafter).imp_left fun hbefore => ?_
    rw [hstill.unique hbefore]
  refine ⟨⟨hplace, hkept, fun heading hafter habove => ?_⟩, hcut.listed, fun heading hafter => ?_⟩
  · rcases hheading heading hafter with rfl | hempty
    · exact hclear.apart _ hheads habove
    · rw [hcut.listed.get?_eq_none (habove.mem hempty)] at hkept
      cases hkept
  · refine (hheading heading hafter).imp_left fun hplace => .inr ⟨sub, ?_⟩
    rw [hplace]
    exact hfind

include hnamed

/-- After a removal that succeeds no links are left where the path heads. -/
theorem KeepsClear.secluded {after : Machine}
    (h : Temporaries.Removal machine output (.ok ()) after) :
    Secluded place permissions contents output after := by
  obtain ⟨havoids, hlisted, hheading⟩ := hclear.removed hmachine hplace hfile h
  have hremains := (h.dwindled hmachine).remains
  refine ⟨havoids, hremains.named hlisted hnamed, fun heading hheads => ?_⟩
  rcases hheading heading hheads with (rfl | ⟨sub, hfind⟩) | hempty
  · rcases h.done hmachine with ⟨hmissing, -⟩ | ⟨found, sub, hfind, hswept, -⟩
    · exact hclear.bare hmissing heading hheads
    · obtain ⟨followed, hfound⟩ := FileTree.exists_headsFor_of_find hfind
      cases hfound.unique hheads
      exact hswept.linkFree
  · exact (h.swept hmachine hfind).1.linkFree
  · intro below target hlink
    cases (hlisted.get?_eq_none (List.mem_append_left below hempty)).symm.trans hlink

/-- A clone to the path leaves the file alone, and if it succeeds, the bundle may be filled. -/
theorem KeepsClear.clone (source : Path) :
    Avoids place permissions contents output
      ((Project.clone source output : Work Simulation Unit).run machine).2 ∧
    (((Project.clone source output : Work Simulation Unit).run machine).1 = .ok () →
      Secluded place permissions contents output
        ((Project.clone source output : Work Simulation Unit).run machine).2) := by
  have hspec := removal_spec output machine
  have hrun : (Project.clone source output : Work Simulation Unit).run machine = _ :=
    run_toWork_within _ _ machine
  rw [hrun]
  rcases hremoval : removal output machine with ⟨failure | _, after⟩
  · rw [hremoval] at hspec
    rw [run_bind_of_error hremoval]
    exact ⟨(hclear.removed hmachine hplace hfile hspec).1, nofun⟩
  · rw [hremoval] at hspec
    rw [run_bind_of_ok hremoval]
    have hcopy : Preserves (Secluded place permissions contents output)
        (Files.copyAll source output >>= Pure.pure : Task Simulation Unit).run :=
      .run_bind (Secluded.fillable.copyAll source) fun _ => .pure _
    have hcopied := hcopy after (hclear.secluded hmachine hnamed hplace hfile hspec)
    exact ⟨hcopied.toAvoids, fun _ => hcopied⟩

end Clearing

end Bundles

/-- In a tree without links all that matters is where the text of the path leads. -/
theorem keepsClear_of_plain {machine : Machine} {output : Path} {place : Place}
    (hplain : Plain machine.tree) (hapart : ¬ placeOf machine.directory output <+: place) :
    KeepsClear machine output place := by
  have hheading : ∀ heading, HeadsFor machine.tree machine.directory output heading →
      heading = ⟨placeOf machine.directory output, []⟩ := by
    intro heading hheads
    rw [hheads.eq_of_plain hplain, placeOf, steps, FileTree.placeAfter_filter]
  constructor
  case apart =>
    intro heading hheads
    rwa [hheading heading hheads]
  case steady =>
    intro heading hheads
    rw [hheading heading hheads]
    exact List.forall_mem_nil _
  case bare => exact fun _ _ _ _ => hplain.get?_ne_link _

namespace Project

/-! ### Patches -/

/-- A patch in place is nothing but the addition. A patch at another place comes after a clone, and if
either fails, what stands at the output is removed. -/
theorem run_patch (digest : Digest) {options : PatchOptions} {output : Path}
    (houtput : options.output.getD options.project = output) (machine : Machine) :
    (patch (m := Simulation) digest options).run machine =
      if (samePlace (m := Simulation) output options.project machine).1 then
        (addition digest options output).run machine
      else match (clone (m := Simulation) options.project output).run machine with
        | (.error report, left) => (.error report, (removal output left).2)
        | (.ok (), made) =>
          let (result, left) := (addition digest options output).run made
          (result, if result.isOk then left else (removal output left).2) := by
  let work : Tracking Simulation PatchResult :=
    ofWork (liftM (samePlace (m := Simulation) output options.project)) >>= fun same =>
      if same then ofWork (addition digest options output)
      else track output >>= fun _ => ofWork (clone options.project output) >>= fun _ =>
        ofWork (addition digest options output)
  have hpatch : patch (m := Simulation) digest options =
      Temporaries.cleaningUpOnFailure work := by
    subst houtput
    rfl
  have hreads : (samePlace (m := Simulation) output options.project machine).2 = machine :=
    Preserves.samePlace (I := (· = machine)) output options.project machine rfl
  rcases hend : endOf work {} machine with ⟨⟨result, tracked⟩, left⟩
  rw [hpatch, run_cleaningUpOnFailure hend, cleanUp_eq]
  rw [endOf_bind, endOf_ofWork_liftM, hreads] at hend
  dsimp only at hend
  cases hsame : (samePlace (m := Simulation) output options.project machine).1 with
  | true =>
    rw [hsame, if_pos rfl] at hend
    obtain ⟨hrun, rfl⟩ := run_of_endOf_ofWork hend
    rw [if_pos rfl, hrun]
    cases result <;> rfl
  | false =>
    rw [hsame, if_neg (by decide), endOf_bind, endOf_track] at hend
    dsimp only at hend
    rw [endOf_bind, endOf_ofWork] at hend
    rw [if_neg Bool.false_ne_true]
    rcases hclone : (clone (m := Simulation) options.project output).run machine with
      ⟨report | ⟨⟩, made⟩
    · rw [hclone] at hend
      cases hend
      rfl
    · rw [hclone] at hend
      obtain ⟨hrun, rfl⟩ := run_of_endOf_ofWork hend
      dsimp only at hrun ⊢
      rw [hrun]
      rfl

/-- The descriptor of a project is the same after a patch that goes to another place, whether that
succeeds or not, if the output keeps clear of the descriptor. -/
theorem patch_leaves_original (digest : Digest) (options : PatchOptions) {machine : Machine}
    (hmachine : machine.WellFormed) (hnamed : Named machine.tree) {place : Place}
    {permissions : Permissions} {contents : ByteArray}
    (hfind : machine.find .target (descriptorOf options.project) =
      .ok (place, .file permissions contents))
    (hother : (samePlace (m := Simulation) (options.output.getD options.project) options.project
      machine).1 = false)
    (hclear : KeepsClear machine (options.output.getD options.project) place) :
    ((patch (m := Simulation) digest options).run machine).2.tree.get? place =
      some (.file permissions contents) := by
  have hfile := FileTree.get?_of_find_file hfind
  have hplace : place ≠ [] := by
    rintro rfl
    have hroot := hmachine.grounded [] List.nil_prefix
    rw [hfile] at hroot
    cases hroot
  obtain ⟨havoids, hmade⟩ := hclear.clone hmachine hnamed hplace hfile options.project
  rw [run_patch digest rfl, if_neg (by simp [hother])]
  rcases hclone : (clone (m := Simulation) options.project
    (options.output.getD options.project)).run machine with ⟨report | ⟨⟩, made⟩
  · rw [hclone] at havoids
    exact havoids.get?_removal
  · rw [hclone] at hmade
    have hadded := Secluded.fillable.addition digest options made (hmade rfl)
    rcases hrun : (addition digest options (options.output.getD options.project)).run made with
      ⟨result, left⟩
    rw [hrun] at hadded
    simp only [hrun]
    cases result with
    | ok added => exact hadded.file
    | error report => exact hadded.get?_removal

/-! ### A bundle in a directory -/

/-- A descriptor of a project with one target. -/
@[irreducible] def nestedDescriptor : ByteArray :=
  ("\x7bobjects=\x7bP=\x7bmainGroup=G;targets=(T);\x7d;G=\x7bchildren=();\x7d;" ++
    "T=\x7bname=App;buildPhases=(S);\x7d;" ++
    "S=\x7bisa=PBXSourcesBuildPhase;files=();\x7d;\x7d;rootObject=P;\x7d").toUTF8

/-- A machine on which a bundle stands in a directory. -/
def nestedBundle : Machine where
  tree := .directory {} [("work", .directory {}
    [("App.xcodeproj", .directory {} [("project.pbxproj", .file .plain nestedDescriptor)])])]

/-- A patch of that bundle. -/
def patchNested (output : Path) : PatchOptions where
  project := ⟨"work/App.xcodeproj"⟩
  target := "App"
  source := ⟨"a.m"⟩
  output := some output

theorem plain_nestedBundle : Plain nestedBundle.tree := by decide

/-- That bundle beside an old one in which there is only a link to its descriptor, and a link to the
directory in which they are. -/
def linkedBundle : Machine where
  tree := .directory {} [
    ("work", .directory {} [
      ("App.xcodeproj", .directory {} [("project.pbxproj", .file .plain nestedDescriptor)]),
      ("Old.xcodeproj", .directory {} [
        ("project.pbxproj", .link ⟨"../App.xcodeproj/project.pbxproj"⟩)])]),
    ("shortcut", .link ⟨"work"⟩)]

/-- The old bundle, by way of the shortcut. -/
def staleOutput : Path := ⟨"shortcut/Old.xcodeproj"⟩

theorem headsFor_staleOutput : HeadsFor linkedBundle.tree linkedBundle.directory staleOutput
    ⟨["work", "Old.xcodeproj"], [["shortcut"]]⟩ := by
  have hsegments : FileTree.segments staleOutput.text = ["shortcut", "Old.xcodeproj"] := by decide
  have htarget : FileTree.segments "work" ++ ["Old.xcodeproj"] = ["work", "Old.xcodeproj"] := by
    decide
  have hlink : linkedBundle.tree.get? ([] ++ ["shortcut"]) = some (.link ⟨"work"⟩) := rfl
  have hbehind : FileTree.Heads linkedBundle.tree 39 (FileTree.origin [] ⟨"work"⟩)
      (FileTree.segments "work" ++ ["Old.xcodeproj"]) ⟨["work", "Old.xcodeproj"], []⟩ := by
    rw [htarget]
    exact .enter (by decide) (.inr nofun) (.enter (by decide) (.inl rfl) .done)
  have hname : FileTree.IsName "shortcut" := by decide
  rw [HeadsFor, hsegments]
  exact .follow hname hlink (List.cons_ne_nil _ _) hbehind

theorem keepsClear_staleOutput : KeepsClear linkedBundle staleOutput
    ["work", "App.xcodeproj", "project.pbxproj"] := by
  have hfind : (linkedBundle.find .entry staleOutput).isOk = true := by decide +kernel
  constructor
  case apart =>
    intro heading h
    rw [headsFor_staleOutput.unique h]
    decide
  case steady =>
    intro heading h
    rw [headsFor_staleOutput.unique h]
    decide
  case bare =>
    intro hmissing
    rw [hmissing] at hfind
    cases hfind

set_option maxRecDepth 4000 in
theorem find_linkedBundle :
    linkedBundle.find .target (descriptorOf ⟨"work/App.xcodeproj"⟩) =
      .ok (["work", "App.xcodeproj", "project.pbxproj"], .file .plain nestedDescriptor) := rfl

theorem patch_leaves_original_of_staleLink :
    ((patch (m := Simulation) .sha256 (patchNested staleOutput)).run linkedBundle).2.tree.get?
      ["work", "App.xcodeproj", "project.pbxproj"] = some (.file .plain nestedDescriptor) :=
  have hother : (samePlace (m := Simulation) staleOutput ⟨"work/App.xcodeproj"⟩
      linkedBundle).1 = false := by decide +kernel
  patch_leaves_original .sha256 (patchNested staleOutput)
    ⟨by decide, FileTree.grounded_nil rfl⟩ (by decide) find_linkedBundle hother keepsClear_staleOutput

/-- A patch into the directory that holds the bundle loses the descriptor, although the paths of the
output and the project lead to different places. -/
theorem exists_patch_losing_original : ∃ output,
    (samePlace (m := Simulation) output ⟨"work/App.xcodeproj"⟩ nestedBundle).1 = false ∧
      ((patch (m := Simulation) .sha256 (patchNested output)).run nestedBundle).2.tree.get?
        ["work", "App.xcodeproj", "project.pbxproj"] = none :=
  ⟨⟨"work"⟩, rfl, rfl⟩

end Project

end BridgingHeader
