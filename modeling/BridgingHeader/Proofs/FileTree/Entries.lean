import BridgingHeader.FileTree.Operations
import BridgingHeader.Proofs.Path.Segments

/-!
# Entries of file trees

What stands at a place is told apart from what is below it. A change of a tree at one place keeps the
entries at all places that are neither that place nor below it. Two properties of trees survive every
change that brings in nothing else: to hold no links, and to be free to be removed.
-/

namespace BridgingHeader.FileTree

/-! ### Entries -/

/-- A file, a link or a directory without what is in it. -/
def shallow : FileTree → FileTree
  | .directory permissions _ => .directory permissions []
  | t => t

/-- What stands at a place, without what is below it. -/
def node? (t : FileTree) (place : Place) : Option FileTree := (t.get? place).map shallow

theorem get?_append (t : FileTree) (a b : Place) :
    t.get? (a ++ b) = (t.get? a).bind fun sub => sub.get? b := by
  induction a generalizing t with
  | nil => rfl
  | cons name rest ih =>
    rw [List.cons_append, get?, get?]
    cases t.children.lookup name with
    | none => rfl
    | some child => exact ih child

theorem get?_concat (t : FileTree) (place : Place) (name : String) :
    t.get? (place ++ [name]) = (t.get? place).bind fun sub => sub.children.lookup name := by
  rw [get?_append]
  refine congrArg _ (funext fun sub => ?_)
  rw [get?]
  cases sub.children.lookup name <;> rfl

/-- A change leaves the entries as they are at all places but the changed one and those below it. -/
theorem node?_alter {place other : Place} (h : ¬ place <+: other) (t : FileTree)
    (change : Option FileTree → Option FileTree) :
    (t.alter place change).node? other = t.node? other := by
  induction place generalizing t other with
  | nil => exact absurd List.nil_prefix h
  | cons name rest ih =>
    cases t with
    | file _ _ => rfl
    | link _ => rfl
    | directory permissions children =>
      cases other with
      | nil => rfl
      | cons first others =>
        rw [alter, node?, node?, get?, get?, FileTree.children, FileTree.children,
          lookup_alterChild]
        by_cases hf : first = name
        · subst hf
          rw [List.prefix_cons_inj] at h
          have hr : rest ≠ [] := fun hr => h (hr ▸ List.nil_prefix)
          rw [if_pos rfl, if_neg hr]
          cases children.lookup first with
          | none => rfl
          | some child => exact ih h child
        · rw [if_neg hf]

theorem isDirectory_shallow (t : FileTree) : t.shallow.isDirectory = t.isDirectory := by
  cases t <;> rfl

/-- The entry at a place tells whether a directory stands there. -/
theorem isDirectoryAt_eq (t : FileTree) (place : Place) :
    t.isDirectoryAt place = (t.node? place).any isDirectory := by
  rw [isDirectoryAt, node?, Option.any_map]
  exact congrArg (fun p => Option.any p _) (funext fun sub => (isDirectory_shallow sub).symm)

/-- A file has nothing below it, so that its entry is all there is. -/
theorem node?_eq_file_iff {t : FileTree} {place : Place} {permissions : Permissions}
    {contents : ByteArray} : t.node? place = some (.file permissions contents) ↔
      t.get? place = some (.file permissions contents) := by
  rw [node?]
  cases t.get? place with
  | none => simp
  | some sub => cases sub <;> simp [shallow]

/-- Neither has a link. -/
theorem node?_eq_link_iff {t : FileTree} {place : Place} {target : Path} :
    t.node? place = some (.link target) ↔ t.get? place = some (.link target) := by
  rw [node?]
  cases t.get? place with
  | none => simp
  | some sub => cases sub <;> simp [shallow]

/-! ### Properties of all subtrees -/

/-- A tree and everything below it has a property. -/
inductive Throughout (Q : FileTree → Prop) : FileTree → Prop
  | intro {t : FileTree} (root : Q t) (children : ∀ item ∈ t.children, Throughout Q item.2) :
      Throughout Q t

theorem mem_of_lookup {name : String} {child : FileTree} {items : List (String × FileTree)}
    (h : items.lookup name = some child) : (name, child) ∈ items := by
  induction items with
  | nil => cases h
  | cons item rest ih =>
    obtain ⟨other, first⟩ := item
    rw [lookup_cons_eq_if] at h
    split at h
    · next hname =>
      cases h
      rw [hname]
      exact List.mem_cons_self
    · exact List.mem_cons_of_mem _ (ih h)

/-- An item after a change of one child is an old one, or what the change made of that child. -/
theorem mem_alterChild {name : String} {change : Option FileTree → Option FileTree}
    {items : List (String × FileTree)} {item : String × FileTree}
    (h : item ∈ alterChild name change items) :
    item ∈ items ∨ item.1 = name ∧ change (items.lookup name) = some item.2 := by
  induction items with
  | nil =>
    rw [alterChild, List.mem_map] at h
    obtain ⟨child, hchild, rfl⟩ := h
    exact .inr ⟨rfl, Option.mem_toList.mp hchild⟩
  | cons first rest ih =>
    obtain ⟨other, child⟩ := first
    rw [lookup_cons_eq_if]
    rw [alterChild] at h
    split at h
    · next hname =>
      rw [if_pos hname.symm]
      rcases List.mem_append.mp h with h | h
      · obtain ⟨new, hnew, rfl⟩ := List.mem_map.mp h
        exact .inr ⟨rfl, Option.mem_toList.mp hnew⟩
      · exact .inl (List.mem_cons_of_mem _ (List.mem_of_mem_filter h))
    · next hname =>
      rw [if_neg (Ne.symm hname)]
      rcases List.mem_cons.mp h with rfl | h
      · exact .inl List.mem_cons_self
      · exact (ih h).imp_left (List.mem_cons_of_mem _)

namespace Throughout

variable {Q : FileTree → Prop} {t : FileTree}

theorem here (h : Throughout Q t) : Q t := by
  cases h
  assumption

theorem of_mem (h : Throughout Q t) {item : String × FileTree} (hitem : item ∈ t.children) :
    Throughout Q item.2 := by
  cases h with
  | intro _ children => exact children item hitem

theorem leaf (hroot : Q t) (hchildren : t.children = []) : Throughout Q t :=
  .intro hroot (by simp [hchildren])

theorem mono {R : FileTree → Prop} (hmono : ∀ t, Q t → R t) (h : Throughout Q t) :
    Throughout R t := by
  induction h with
  | intro root children ih => exact .intro (hmono _ root) ih

theorem get? (h : Throughout Q t) {place : Place} {sub : FileTree}
    (hsub : t.get? place = some sub) : Throughout Q sub := by
  induction place generalizing t with
  | nil =>
    cases hsub
    exact h
  | cons name rest ih =>
    rw [FileTree.get?, Option.bind_eq_some_iff] at hsub
    obtain ⟨child, hchild, hsub⟩ := hsub
    exact ih (h.of_mem (mem_of_lookup hchild)) hsub

/-- A property of all subtrees is kept by a change that brings in a subtree with the property, if the
directory in which the change is made keeps it. -/
theorem alter (hmap : ∀ permissions items name f, Q (.directory permissions items) →
      Q (.directory permissions (alterChild name (Option.map f) items)))
    (h : Throughout Q t) {parent : Place} {name : String}
    {change : Option FileTree → Option FileTree}
    (hparent : ∀ permissions items, t.get? parent = some (.directory permissions items) →
      Q (.directory permissions (alterChild name change items)))
    (hnew : ∀ new, change (t.get? (parent ++ [name])) = some new → Throughout Q new) :
    Throughout Q (t.alter (parent ++ [name]) change) := by
  induction parent generalizing t with
  | nil =>
    cases t with
    | file _ _ => exact h
    | link _ => exact h
    | directory permissions items =>
      refine .intro (hparent permissions items rfl) fun item hitem => ?_
      rcases mem_alterChild hitem with hold | ⟨-, hchange⟩
      · exact h.of_mem hold
      · refine hnew item.2 ?_
        rw [← hchange, List.nil_append, FileTree.get?, FileTree.children]
        cases items.lookup name <;> rfl
  | cons first rest ih =>
    cases t with
    | file _ _ => exact h
    | link _ => exact h
    | directory permissions items =>
      have hrest : rest ++ [name] ≠ [] := by simp
      rw [List.cons_append, FileTree.alter]
      simp only [if_neg hrest]
      refine .intro (hmap permissions items first _ h.here) fun item hitem => ?_
      rcases mem_alterChild hitem with hold | ⟨-, hchange⟩
      · exact h.of_mem hold
      · obtain ⟨child, hchild, hitem⟩ := Option.map_eq_some_iff.mp hchange
        have hget : ∀ place, (FileTree.directory permissions items).get? (first :: place) =
            child.get? place := fun place => by
          rw [FileTree.get?, FileTree.children, hchild]
          rfl
        rw [← hitem]
        refine ih (h.of_mem (mem_of_lookup hchild)) (fun p i hp => hparent p i ?_)
          fun new hchange => hnew new ?_
        · rw [hget, hp]
        · rw [List.cons_append, hget, hchange]

/-- A property that asks of a directory only that its children have names is kept by a change under a
name that brings in a subtree with the property. -/
theorem alter_of_names
    (hQ : ∀ permissions items, Q (.directory permissions items) ↔ ∀ item ∈ items, IsName item.1)
    (h : Throughout Q t) {parent : Place} {name : String}
    {change : Option FileTree → Option FileTree}
    (hname : change (t.get? (parent ++ [name])) ≠ none → IsName name)
    (hnew : ∀ new, change (t.get? (parent ++ [name])) = some new → Throughout Q new) :
    Throughout Q (t.alter (parent ++ [name]) change) := by
  refine alter (fun permissions items first f hitems => (hQ _ _).mpr fun item hitem => ?_) h
    (fun permissions items hparent => (hQ _ _).mpr fun item hitem => ?_) hnew
  · rw [hQ] at hitems
    rcases mem_alterChild hitem with hold | ⟨hfirst, hchange⟩
    · exact hitems item hold
    · obtain ⟨child, hchild, -⟩ := Option.map_eq_some_iff.mp hchange
      exact hfirst ▸ hitems _ (mem_of_lookup hchild)
  · have hitems := (hQ _ _).mp (h.get? hparent).here
    rcases mem_alterChild hitem with hold | ⟨hfirst, hchange⟩
    · exact hitems item hold
    · rw [hfirst]
      refine hname ?_
      rw [get?_concat, hparent]
      exact hchange ▸ Option.some_ne_none _

end Throughout

section Deciding

variable (Q : FileTree → Prop) [hQ : DecidablePred Q]

mutual

/-- Whether a property holds throughout a tree is decided from the leaves. -/
def decideThroughout : (t : FileTree) → Decidable (Throughout Q t)
  | .file permissions contents =>
    decidable_of_iff (Q (.file permissions contents)) ⟨fun h => .leaf h rfl, Throughout.here⟩
  | .link target => decidable_of_iff (Q (.link target)) ⟨fun h => .leaf h rfl, Throughout.here⟩
  | .directory permissions items =>
    match hQ (.directory permissions items), decideChildren items with
    | isTrue hroot, isTrue hitems => isTrue (.intro hroot hitems)
    | isFalse hroot, _ => isFalse fun h => hroot h.here
    | _, isFalse hitems => isFalse fun h => hitems fun _ => h.of_mem

def decideChildren :
    (items : List (String × FileTree)) → Decidable (∀ item ∈ items, Throughout Q item.2)
  | [] => isTrue (List.forall_mem_nil _)
  | (_, child) :: rest =>
    match decideThroughout child, decideChildren rest with
    | isTrue hchild, isTrue hrest => isTrue (List.forall_mem_cons.mpr ⟨hchild, hrest⟩)
    | isFalse hchild, _ => isFalse fun h => hchild (List.forall_mem_cons.mp h).1
    | _, isFalse hrest => isFalse fun h => hrest (List.forall_mem_cons.mp h).2

end

instance (t : FileTree) : Decidable (Throughout Q t) := decideThroughout Q t

end Deciding

/-! ### Trees with names -/

/-- The children of a directory have names. -/
def HasNames : FileTree → Prop
  | .directory _ items => ∀ item ∈ items, IsName item.1
  | _ => True

instance : DecidablePred HasNames
  | .directory _ items => inferInstanceAs (Decidable (∀ item ∈ items, IsName item.1))
  | .file .. => isTrue trivial
  | .link _ => isTrue trivial

/-- A tree in which every child of a directory has a name. -/
abbrev Named (t : FileTree) : Prop := Throughout HasNames t

namespace Named

variable {t : FileTree}

theorem isName_of_mem (h : Named t) {item : String × FileTree} (hitem : item ∈ t.children) :
    IsName item.1 := by
  cases t with
  | directory permissions items => exact h.here item hitem
  | file _ _ => cases hitem
  | link _ => cases hitem

/-- The places in such a tree are made of names. -/
theorem isName_of_get? {sub : FileTree} (h : Named t) {place : Place}
    (hsub : t.get? place = some sub) : ∀ name ∈ place, IsName name := by
  induction place generalizing t with
  | nil => simp
  | cons name rest ih =>
    rw [FileTree.get?, Option.bind_eq_some_iff] at hsub
    obtain ⟨child, hchild, hsub⟩ := hsub
    have hmem := mem_of_lookup hchild
    intro other hother
    rcases List.mem_cons.mp hother with rfl | hother
    · exact isName_of_mem h hmem
    · exact ih (h.of_mem hmem) hsub other hother

/-- Nothing stands under an empty name. -/
theorem get?_eq_none (h : Named t) {place : Place} (hplace : "" ∈ place) : t.get? place = none := by
  by_contra hget
  obtain ⟨sub, hsub⟩ := Option.ne_none_iff_exists'.mp hget
  exact (h.isName_of_get? hsub "" hplace).ne_empty rfl

end Named

/-! ### Trees without links -/

/-- Nothing here is a link, and the children have names. -/
def IsPlain : FileTree → Prop
  | .directory _ items => ∀ item ∈ items, IsName item.1
  | .file _ _ => True
  | .link _ => False

instance : DecidablePred IsPlain
  | .directory _ items => inferInstanceAs (Decidable (∀ item ∈ items, IsName item.1))
  | .file .. => isTrue trivial
  | .link _ => isFalse id

/-- A tree without links, in which every child of a directory has a name. -/
abbrev Plain (t : FileTree) : Prop := Throughout IsPlain t

namespace Plain

variable {t : FileTree}

theorem file (permissions : Permissions) (contents : ByteArray) :
    Plain (.file permissions contents) := .leaf trivial rfl

theorem nil (permissions : Permissions) : Plain (.directory permissions []) :=
  .leaf (List.forall_mem_nil _) rfl

theorem cons {permissions : Permissions} {name : String} {child : FileTree}
    {rest : List (String × FileTree)} (hname : IsName name) (hchild : Plain child)
    (hrest : Plain (.directory permissions rest)) :
    Plain (.directory permissions ((name, child) :: rest)) := by
  refine .intro (fun item hitem => ?_) fun item hitem => ?_
  · rcases List.mem_cons.mp hitem with rfl | hitem
    · exact hname
    · exact hrest.here item hitem
  · rcases List.mem_cons.mp hitem with rfl | hitem
    · exact hchild
    · exact hrest.of_mem hitem

theorem empty : Plain empty := nil _

theorem named (h : Plain t) : Named t := by
  refine h.mono fun sub hsub => ?_
  cases sub with
  | directory permissions items => exact hsub
  | file _ _ => trivial
  | link _ => trivial

theorem get?_ne_link (h : Plain t) (place : Place) (target : Path) :
    t.get? place ≠ some (.link target) := fun hlink => (h.get? hlink).here

theorem isName_of_mem (h : Plain t) {item : String × FileTree} (hitem : item ∈ t.children) :
    IsName item.1 :=
  h.named.isName_of_mem hitem

/-- The places in a plain tree are made of names. -/
theorem isName_of_get? {sub : FileTree} (h : Plain t) {place : Place}
    (hsub : t.get? place = some sub) : ∀ name ∈ place, IsName name :=
  h.named.isName_of_get? hsub

theorem alter (h : Plain t) {parent : Place} {name : String}
    {change : Option FileTree → Option FileTree}
    (hname : change (t.get? (parent ++ [name])) ≠ none → IsName name)
    (hnew : ∀ new, change (t.get? (parent ++ [name])) = some new → Plain new) :
    Plain (t.alter (parent ++ [name]) change) :=
  h.alter_of_names (fun _ _ => Iff.rfl) hname hnew

end Plain

mutual

/-- What is left when a tree is emptied holds no link that was not there before. -/
theorem Plain.emptied : ∀ {t : FileTree}, Plain t → Plain (FileTree.emptied t).1
  | .file _ _, h => h
  | .link _, h => h
  | .directory permissions items, h => by
    rw [FileTree.emptied]
    split
    · exact h
    · have hdropped := Plain.dropped permissions items h.here fun item hitem => h.of_mem hitem
      exact .intro (fun item hitem => (hdropped item hitem).1) fun item hitem =>
        (hdropped item hitem).2

theorem Plain.dropped (permissions : Permissions) : ∀ (items : List (String × FileTree)),
    (∀ item ∈ items, IsName item.1) → (∀ item ∈ items, Plain item.2) →
    ∀ item ∈ (FileTree.dropped permissions items).1, IsName item.1 ∧ Plain item.2
  | [], _, _ => by simp [FileTree.dropped]
  | (name, child) :: rest, hnames, hplain => by
    have hchild := Plain.emptied (hplain (name, child) List.mem_cons_self)
    have hrest := Plain.dropped permissions rest (fun i hi => hnames i (List.mem_cons_of_mem _ hi))
      fun i hi => hplain i (List.mem_cons_of_mem _ hi)
    have hkept : ∀ left, Plain left →
        ∀ item ∈ (name, left) :: rest, IsName item.1 ∧ Plain item.2 := by
      intro left hleft item hitem
      rcases List.mem_cons.mp hitem with rfl | hitem
      · exact ⟨hnames (name, child) List.mem_cons_self, hleft⟩
      · exact ⟨hnames item (List.mem_cons_of_mem _ hitem),
          hplain item (List.mem_cons_of_mem _ hitem)⟩
    rw [FileTree.dropped]
    split
    · exact hkept child (hplain (name, child) List.mem_cons_self)
    · split
      · next left cause he =>
        rw [he] at hchild
        exact hkept left hchild
      · next left he =>
        rw [he] at hchild
        split
        · exact hrest
        · exact hkept left hchild

end

/-! ### Trees that can be cleared -/

/-- A directory can be emptied as far as its own permissions go. -/
def IsClearable : FileTree → Prop
  | .directory permissions items =>
    permissions.readable = true ∧
      (items = [] ∨ permissions.writable = true ∧ permissions.executable = true)
  | _ => True

/-- Everything below the root of a tree can be removed. -/
abbrev Clearable (t : FileTree) : Prop := Throughout IsClearable t

mutual

theorem Clearable.emptied : ∀ {t : FileTree}, Clearable t → (FileTree.emptied t).2 = .ok ()
  | .file _ _, _ => rfl
  | .link _, _ => rfl
  | .directory permissions items, h => by
    obtain ⟨hreadable, hitems⟩ := h.here
    rw [FileTree.emptied, if_neg (by simp [hreadable])]
    rcases hitems with rfl | ⟨hwritable, hexecutable⟩
    · rfl
    · exact (Clearable.dropped hwritable hexecutable items fun item hitem => h.of_mem hitem) ▸ rfl

theorem Clearable.dropped {permissions : Permissions} (hwritable : permissions.writable = true)
    (hexecutable : permissions.executable = true) : ∀ (items : List (String × FileTree)),
    (∀ item ∈ items, Clearable item.2) → FileTree.dropped permissions items = ([], .ok ())
  | [], _ => rfl
  | (name, child) :: rest, h => by
    have hchild := Clearable.emptied (h (name, child) List.mem_cons_self)
    have hrest := Clearable.dropped hwritable hexecutable rest
      fun i hi => h i (List.mem_cons_of_mem _ hi)
    rw [FileTree.dropped, if_neg (by simp [hexecutable])]
    split
    · next left cause he =>
      rw [he] at hchild
      cases hchild
    · rw [if_pos hwritable, hrest]

end

mutual

theorem Clearable.of_emptied : ∀ {t : FileTree}, (FileTree.emptied t).2 = .ok () → Clearable t
  | .file _ _, _ => .leaf trivial rfl
  | .link _, _ => .leaf trivial rfl
  | .directory permissions items, h => by
    rw [FileTree.emptied] at h
    split at h
    · cases h
    · next hreadable =>
      have hitems := Clearable.of_dropped permissions items h
      exact .intro ⟨by simpa using hreadable, hitems.1⟩ hitems.2

theorem Clearable.of_dropped (permissions : Permissions) : ∀ (items : List (String × FileTree)),
    (FileTree.dropped permissions items).2 = .ok () →
    (items = [] ∨ permissions.writable = true ∧ permissions.executable = true) ∧
      ∀ item ∈ items, Clearable item.2
  | [], _ => by simp
  | (name, child) :: rest, h => by
    rw [FileTree.dropped] at h
    split at h
    · cases h
    · next hexecutable =>
      split at h
      · cases h
      · next left he =>
        split at h
        · next hwritable =>
          have hchild := Clearable.of_emptied (congrArg Prod.snd he)
          have hrest := Clearable.of_dropped permissions rest h
          refine ⟨.inr ⟨hwritable, by simpa using hexecutable⟩, fun item hitem => ?_⟩
          rcases List.mem_cons.mp hitem with rfl | hitem
          · exact hchild
          · exact hrest.2 item hitem
        · cases h

end

/-- A tree is clearable if emptying it succeeds. -/
theorem clearable_iff_emptied {t : FileTree} : Clearable t ↔ (emptied t).2 = .ok () :=
  ⟨Clearable.emptied, Clearable.of_emptied⟩

namespace Clearable

variable {t : FileTree}

theorem emptied_fst {permissions : Permissions} {items : List (String × FileTree)}
    (h : Clearable (.directory permissions items)) :
    (FileTree.emptied (.directory permissions items)).1 = .directory permissions [] := by
  obtain ⟨hreadable, hitems⟩ := h.here
  rw [FileTree.emptied, if_neg (by simp [hreadable])]
  rcases hitems with rfl | ⟨hwritable, hexecutable⟩
  · rfl
  · rw [Clearable.dropped hwritable hexecutable items fun item hitem => h.of_mem hitem]

/-- What is left of a tree that can be cleared can be cleared. -/
theorem emptied_clearable (h : Clearable t) : Clearable (FileTree.emptied t).1 := by
  cases t with
  | directory permissions items =>
    rw [emptied_fst h]
    exact .leaf ⟨h.here.1, .inl rfl⟩ rfl
  | file _ _ => exact h
  | link _ => exact h

theorem alter (h : Clearable t) {parent : Place} {name : String}
    {change : Option FileTree → Option FileTree}
    (hparent : ∀ permissions, t.get? parent = some (.directory permissions []) →
      change none = none ∨ permissions.writable = true ∧ permissions.executable = true)
    (hnew : ∀ new, change (t.get? (parent ++ [name])) = some new → Clearable new) :
    Clearable (t.alter (parent ++ [name]) change) := by
  refine Throughout.alter (fun permissions items first f hitems => ?_) h
    (fun permissions items hget => ?_) hnew
  · refine ⟨hitems.1, hitems.2.imp_left ?_⟩
    rintro rfl
    rfl
  · obtain ⟨hreadable, hitems⟩ := (h.get? hget).here
    refine ⟨hreadable, ?_⟩
    rcases hitems with rfl | hpermitted
    · refine (hparent permissions hget).imp_left fun hnone => ?_
      rw [alterChild, hnone]
      rfl
    · exact .inr hpermitted

end Clearable

end BridgingHeader.FileTree
