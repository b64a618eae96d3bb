import BridgingHeader.Path.Basic

/-!
# File trees

A file tree is a directory with named children, a file or a symbolic link. A place is the list of
names that leads to a subtree. Changing a tree at one place leaves the entries elsewhere as they
are.
-/

namespace BridgingHeader

/-- The names that lead from the root of a tree to a subtree. -/
abbrev Place := List String

namespace FileTree

/-- What the owner of a file or a directory may do with it. -/
structure Permissions where
  /-- The contents may be seen. -/
  readable : Bool := true
  /-- The contents may be changed. -/
  writable : Bool := true
  /-- A file may be run, and a directory may be passed through. -/
  executable : Bool := true
  deriving DecidableEq, Repr, Inhabited

/-- The permissions of a new file. -/
def Permissions.plain : Permissions := { executable := false }

end FileTree

/-- A tree of directories, files and links. -/
inductive FileTree where
  | directory (permissions : FileTree.Permissions) (children : List (String × FileTree))
  | file (permissions : FileTree.Permissions) (contents : ByteArray)
  /-- A symbolic link, with the text that it holds. -/
  | link (target : Path)

/-- What kind of thing stands at a place. -/
inductive NodeKind where
  | directory
  | file
  | link
  deriving DecidableEq, Repr

namespace FileTree

/-- A directory with nothing in it. -/
def empty : FileTree := .directory {} []

instance : Inhabited FileTree := ⟨empty⟩

/-- The kind of the root of a tree. -/
def kind : FileTree → NodeKind
  | .directory .. => .directory
  | .file .. => .file
  | .link _ => .link

/-- The root of a tree is a directory. -/
def isDirectory (t : FileTree) : Bool := t.kind = .directory

/-- The children of a directory. -/
def children : FileTree → List (String × FileTree)
  | .directory _ children => children
  | _ => []

/-- The permissions of a file or a directory. A link permits everything. -/
def permissions : FileTree → Permissions
  | .directory permissions _ => permissions
  | .file permissions _ => permissions
  | .link _ => {}

/-- The subtree at a place. -/
def get? : FileTree → Place → Option FileTree
  | t, [] => some t
  | t, name :: rest => (t.children.lookup name).bind fun child => get? child rest

/-- A directory stands at a place. -/
def isDirectoryAt (t : FileTree) (place : Place) : Bool := (t.get? place).any isDirectory

/-- Children with the one of a name changed, where it stands if there is one. -/
def alterChild (name : String) (change : Option FileTree → Option FileTree) :
    List (String × FileTree) → List (String × FileTree)
  | [] => (change none).toList.map fun child => (name, child)
  | item :: rest =>
    if item.1 = name then
      (change (some item.2)).toList.map (fun child => (name, child)) ++
        rest.filter fun other => other.1 ≠ name
    else item :: alterChild name change rest

/-- The tree with the subtree at a place changed. A subtree can only be added to a directory, and
the root stays. -/
def alter : Place → (Option FileTree → Option FileTree) → FileTree → FileTree
  | [], change, t => (change (some t)).getD t
  | name :: rest, change, .directory permissions children =>
    .directory permissions (alterChild name (fun child =>
      if rest = [] then change child else child.map (alter rest change)) children)
  | _, _, t => t

/-- The tree with a subtree at a place. -/
def set (t : FileTree) (place : Place) (subtree : FileTree) : FileTree :=
  t.alter place fun _ => some subtree

/-- The tree without the subtree at a place. -/
def remove (t : FileTree) (place : Place) : FileTree := t.alter place fun _ => none

/-- The absolute path of a place. -/
def pathOf (place : Place) : Path := ⟨"/" ++ "/".intercalate place⟩

mutual

/-- A tree that stands at a path, as texts: a directory ends in a slash, and a link shows its
target. -/
def listed (path : String) : FileTree → List String
  | .directory _ children => (path ++ "/") :: listedChildren (path ++ "/") children
  | .file .. => [path]
  | .link target => [path ++ " -> " ++ target.text]

/-- Children that stand behind the path of their directory, as texts. -/
def listedChildren (path : String) : List (String × FileTree) → List String
  | [] => []
  | (name, child) :: rest => listed (path ++ name) child ++ listedChildren path rest

end

/-- What stands below a place, as sorted texts. -/
def listing (t : FileTree) (place : Place) : List String :=
  (listedChildren "" ((t.get? place).getD empty).children).mergeSort fun a b => a ≤ b

/-- The first item with a name decides. -/
theorem lookup_cons_eq_if (name other : String) (child : FileTree)
    (rest : List (String × FileTree)) :
    ((name, child) :: rest).lookup other = if other = name then some child else rest.lookup other := by
  rw [List.lookup_cons]
  by_cases h : other = name
  · rw [if_pos h, h, beq_self_eq_true]
  · rw [if_neg h, beq_false_of_ne h]

/-- Dropping all items with a name leaves those with other names. -/
theorem lookup_filter_ne (name other : String) (items : List (String × FileTree)) :
    (items.filter fun item => item.1 ≠ name).lookup other =
      if other = name then none else items.lookup other := by
  induction items with
  | nil => simp
  | cons item rest ih =>
    obtain ⟨n, child⟩ := item
    by_cases hn : n = name
    · rw [List.filter_cons_of_neg (by simp [hn]), ih, lookup_cons_eq_if, hn]
      split <;> rfl
    · rw [List.filter_cons_of_pos (by simp [hn]), lookup_cons_eq_if, lookup_cons_eq_if, ih]
      by_cases ho : other = name
      · rw [if_pos ho, if_pos ho, if_neg (ho ▸ Ne.symm hn)]
      · rw [if_neg ho, if_neg ho]

/-- A changed child is what the change makes of it, and the others stay as they are. -/
theorem lookup_alterChild (name other : String) (change : Option FileTree → Option FileTree)
    (children : List (String × FileTree)) :
    (alterChild name change children).lookup other =
      if other = name then change (children.lookup name) else children.lookup other := by
  induction children with
  | nil =>
    rw [alterChild]
    cases hc : change none with
    | none => simp [hc]
    | some child =>
      rw [Option.toList_some, List.map_cons, List.map_nil, lookup_cons_eq_if, List.lookup_nil,
        List.lookup_nil, hc]
  | cons item rest ih =>
    obtain ⟨n, child⟩ := item
    by_cases hn : n = name
    · subst hn
      rw [alterChild, if_pos rfl, lookup_cons_eq_if, if_pos rfl, lookup_cons_eq_if]
      cases hc : change (some child) with
      | none =>
        rw [Option.toList_none, List.map_nil, List.nil_append, lookup_filter_ne]
        split <;> rfl
      | some new =>
        rw [Option.toList_some, List.map_cons, List.map_nil, List.cons_append, List.nil_append,
          lookup_cons_eq_if, lookup_filter_ne]
        split <;> rfl
    · rw [alterChild, if_neg hn, lookup_cons_eq_if, lookup_cons_eq_if, lookup_cons_eq_if, ih]
      by_cases ho : other = name
      · rw [if_pos ho, if_pos ho, if_neg (ho ▸ Ne.symm hn), if_neg (Ne.symm hn)]
      · rw [if_neg ho, if_neg ho]

/-- What stands at a changed place is what the change makes of it, if its directory is there. -/
theorem get?_alter_self {t : FileTree} {place : Place} (h : t.isDirectoryAt place.dropLast)
    (hp : place ≠ []) (change : Option FileTree → Option FileTree) :
    (t.alter place change).get? place = change (t.get? place) := by
  induction place generalizing t with
  | nil => exact absurd rfl hp
  | cons name rest ih =>
    cases t with
    | directory permissions children =>
      rw [alter, get?, get?, FileTree.children, FileTree.children, lookup_alterChild, if_pos rfl]
      by_cases hr : rest = []
      · subst hr
        cases hc : change (children.lookup name) <;> cases hl : children.lookup name <;>
          simp_all [get?]
      · rw [List.dropLast_cons_of_ne_nil hr, isDirectoryAt, get?, FileTree.children] at h
        rw [if_neg hr]
        cases hl : children.lookup name with
        | none => simp [hl] at h
        | some child =>
          rw [hl] at h
          exact ih h hr
    | file _ _ => cases rest <;> simp_all [isDirectoryAt, get?, isDirectory, kind, FileTree.children]
    | link _ => cases rest <;> simp_all [isDirectoryAt, get?, isDirectory, kind, FileTree.children]

end FileTree

end BridgingHeader
