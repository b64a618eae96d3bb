import Mathlib.Data.Finset.Card
import Mathlib.Data.List.Induction
import Mathlib.Data.List.Nodup
import BridgingHeader.Dictionary

/-!
# Laws of insertion-ordered dictionaries

A dictionary is determined by the order of its keys and the value of each key. An insertion keeps
the order of the keys and puts a new key at the end, so that collecting pairs lists each key where
it comes first and gives it the value that comes last. A change of a value, by an insertion or where
it stands, keeps every other entry.
-/

namespace BridgingHeader.Dictionary

variable {α : Type}

/-- A key has a value exactly when it is one of the keys. -/
theorem isSome_get?_iff (d : Dictionary α) (key : String) :
    (d.get? key).isSome = true ↔ key ∈ d.keys := by
  simp [get?, keys]

theorem get?_eq_none_iff (d : Dictionary α) (key : String) :
    d.get? key = none ↔ key ∉ d.keys := by
  rw [← isSome_get?_iff]
  cases d.get? key <;> simp

theorem contains_iff (d : Dictionary α) (key : String) :
    d.contains key = true ↔ key ∈ d.keys := by
  rw [contains_eq_isSome, isSome_get?_iff]

theorem mem_keys_of_get? {d : Dictionary α} {key : String} {value : α}
    (h : d.get? key = some value) : key ∈ d.keys := by
  rw [← isSome_get?_iff, h]
  rfl

/-- A value that is found belongs to an entry. -/
theorem mem_entries_of_get? {d : Dictionary α} {key : String} {value : α}
    (h : d.get? key = some value) : (key, value) ∈ d.entries := by
  obtain ⟨before, after, he, -⟩ := List.lookup_eq_some_iff.mp h
  rw [he]
  simp

/-- Among distinct keys every entry is found. -/
theorem get?_of_mem_entries {d : Dictionary α} (hd : d.keys.Nodup) {key : String} {value : α}
    (h : (key, value) ∈ d.entries) : d.get? key = some value := by
  obtain ⟨entries⟩ := d
  simp only [get?, keys] at hd h ⊢
  induction entries with
  | nil => cases h
  | cons entry rest ih =>
      obtain ⟨hnew, hrest⟩ := List.nodup_cons.mp hd
      rcases List.mem_cons.mp h with rfl | hmem
      · simp
      · have hne : key ≠ entry.1 := by
          rintro rfl
          exact hnew (List.mem_map.mpr ⟨_, hmem, rfl⟩)
        rw [List.lookup_cons, beq_false_of_ne hne]
        exact ih hrest hmem

/-! ### Insertion -/

/-- Inserting a present key keeps the keys. -/
theorem keys_insert_of_mem {d : Dictionary α} {key : String} (h : key ∈ d.keys) (value : α) :
    (d.insert key value).keys = d.keys := by
  obtain ⟨entries⟩ := d
  simp only [insert, keys] at h ⊢
  induction entries with
  | nil => cases h
  | cons entry rest ih =>
      by_cases hk : entry.1 = key
      · simp [insertEntry, hk]
      · have hrest : key ∈ rest.map Prod.fst :=
          (List.mem_cons.mp h).resolve_left fun e => hk e.symm
        rw [insertEntry, if_neg hk, List.map_cons, List.map_cons, ih hrest]

/-- Inserting a new key appends it to the keys. -/
theorem keys_insert_of_not_mem {d : Dictionary α} {key : String} (h : key ∉ d.keys) (value : α) :
    (d.insert key value).keys = d.keys ++ [key] := by
  obtain ⟨entries⟩ := d
  simp only [insert, keys] at h ⊢
  induction entries with
  | nil => rfl
  | cons entry rest ih =>
      rw [List.map_cons, List.mem_cons, not_or] at h
      obtain ⟨hk, hrest⟩ := h
      rw [insertEntry, if_neg fun e => hk e.symm, List.map_cons, List.map_cons, ih hrest,
        List.cons_append]

/-- An insertion keeps the order of the keys and appends a key that is new. -/
theorem keys_insert (d : Dictionary α) (key : String) (value : α) :
    (d.insert key value).keys = if key ∈ d.keys then d.keys else d.keys ++ [key] := by
  split
  · next h => exact keys_insert_of_mem h value
  · next h => exact keys_insert_of_not_mem h value

theorem mem_keys_insert (d : Dictionary α) (key other : String) (value : α) :
    other ∈ (d.insert key value).keys ↔ other = key ∨ other ∈ d.keys := by
  rw [keys_insert]
  by_cases h : key ∈ d.keys
  · rw [if_pos h]
    constructor
    · exact Or.inr
    · rintro (rfl | hother)
      · exact h
      · exact hother
  · rw [if_neg h, List.mem_append, List.mem_singleton, or_comm]

/-- The keys of a dictionary stand at the front of its keys after an insertion. -/
theorem prefix_keys_insert (d : Dictionary α) (key : String) (value : α) :
    d.keys <+: (d.insert key value).keys := by
  rw [keys_insert]
  split
  · exact List.prefix_rfl
  · exact List.prefix_append _ _

/-- An insertion keeps distinct keys distinct. -/
theorem nodup_keys_insert {d : Dictionary α} (h : d.keys.Nodup) (key : String) (value : α) :
    (d.insert key value).keys.Nodup := by
  rw [keys_insert]
  split
  · exact h
  · next hnot =>
      rw [List.nodup_append]
      refine ⟨h, by simp, ?_⟩
      rintro a ha b hb rfl
      exact hnot (List.mem_singleton.mp hb ▸ ha)

/-- Every entry after an insertion is the inserted one or one from before. -/
theorem mem_entries_insert {d : Dictionary α} {key : String} {value : α} {entry : String × α}
    (h : entry ∈ (d.insert key value).entries) : entry = (key, value) ∨ entry ∈ d.entries := by
  obtain ⟨entries⟩ := d
  simp only [insert] at h ⊢
  induction entries with
  | nil => exact Or.inl (List.mem_singleton.mp h)
  | cons first rest ih =>
      rw [insertEntry] at h
      split at h
      · rcases List.mem_cons.mp h with rfl | hmem
        · exact Or.inl rfl
        · exact Or.inr (List.mem_cons_of_mem _ hmem)
      · rcases List.mem_cons.mp h with rfl | hmem
        · exact Or.inr List.mem_cons_self
        · exact (ih hmem).imp_right (List.mem_cons_of_mem _)

/-! ### What an insertion changes -/

/-- The value of a key has been replaced where it stands, and nothing else has changed. -/
def Replaces (d : Dictionary α) (key : String) (old new : α) (e : Dictionary α) : Prop :=
  ∃ before after, key ∉ before.map Prod.fst ∧ d.entries = before ++ (key, old) :: after ∧
    e.entries = before ++ (key, new) :: after

/-- A new key has been put at the end, and nothing else has changed. -/
def Appends (d : Dictionary α) (key : String) (value : α) (e : Dictionary α) : Prop :=
  key ∉ d.keys ∧ e.entries = d.entries ++ [(key, value)]

theorem insertEntry_append {key : String} {before : List (String × α)}
    (h : key ∉ before.map Prod.fst) (value : α) (rest : List (String × α)) :
    insertEntry key value (before ++ rest) = before ++ insertEntry key value rest := by
  induction before with
  | nil => rfl
  | cons entry before ih =>
      rw [List.map_cons, List.mem_cons, not_or] at h
      rw [List.cons_append, insertEntry, if_neg fun e => h.1 e.symm, ih h.2, List.cons_append]

theorem replaces_insert {d : Dictionary α} {key : String} {old : α} (h : d.get? key = some old)
    (new : α) : d.Replaces key old new (d.insert key new) := by
  obtain ⟨before, after, hentries, hbefore⟩ := List.lookup_eq_some_iff.mp h
  have hnot : key ∉ before.map Prod.fst := by
    intro hmem
    obtain ⟨entry, hentry, rfl⟩ := List.mem_map.mp hmem
    simpa using hbefore entry hentry
  refine ⟨before, after, hnot, hentries, ?_⟩
  rw [insert, hentries, insertEntry_append hnot, insertEntry, if_pos rfl]

theorem Replaces.get?_eq {d e : Dictionary α} {key : String} {old new : α}
    (h : d.Replaces key old new e) : d.get? key = some old := by
  obtain ⟨before, after, hnot, hentries, -⟩ := h
  rw [get?, List.lookup_eq_some_iff]
  refine ⟨before, after, hentries, fun entry hentry => ?_⟩
  have hne : key ≠ entry.1 := by
    rintro rfl
    exact hnot (List.mem_map_of_mem hentry)
  simpa using hne

theorem appends_insert {d : Dictionary α} {key : String} (h : key ∉ d.keys) (value : α) :
    d.Appends key value (d.insert key value) := by
  refine ⟨h, ?_⟩
  have hentries := insertEntry_append h value []
  rwa [List.append_nil] at hentries

/-! ### Extensionality -/

/-- Distinct keys in order and the value of each key determine a dictionary. -/
theorem ext_of_nodup {d e : Dictionary α} (hnodup : d.keys.Nodup) (hkeys : d.keys = e.keys)
    (hvalues : ∀ key, d.get? key = e.get? key) : d = e := by
  obtain ⟨ds⟩ := d
  obtain ⟨es⟩ := e
  congr
  simp only [keys, get?] at hnodup hkeys hvalues
  induction ds generalizing es with
  | nil => simpa using hkeys.symm
  | cons x xs ih =>
      obtain ⟨k, v⟩ := x
      cases es with
      | nil => simp at hkeys
      | cons y ys =>
          obtain ⟨l, w⟩ := y
          simp only [List.map_cons, List.cons.injEq] at hkeys
          obtain ⟨rfl, hrest⟩ := hkeys
          obtain ⟨hnew, hnodup⟩ := List.nodup_cons.mp hnodup
          have hv := hvalues k
          simp only [List.lookup_cons_self, Option.some.injEq] at hv
          subst hv
          have htail : ∀ key, xs.lookup key = ys.lookup key := by
            intro key
            by_cases hk : key = k
            · subst hk
              have hx : xs.lookup key = none := (get?_eq_none_iff ⟨xs⟩ key).mpr hnew
              rw [hrest] at hnew
              have hy : ys.lookup key = none := (get?_eq_none_iff ⟨ys⟩ key).mpr hnew
              rw [hx, hy]
            · simpa [List.lookup_cons, beq_false_of_ne hk] using hvalues key
          rw [ih hnodup ys hrest htail]

/-! ### Collecting pairs -/

/-- A dictionary collects pairs if each key stands where it comes first among them and has the value
that comes last. -/
structure Collects (pairs : List (String × α)) (d : Dictionary α) : Prop where
  keys : d.keys = (pairs.map Prod.fst).eraseDups
  values : ∀ key, d.get? key = pairs.reverse.lookup key

private theorem nodup_eraseDups (items : List String) : items.eraseDups.Nodup := by
  induction items using List.reverseRecOn with
  | nil => simp
  | append_singleton items item ih =>
      rw [List.eraseDups_append, List.nodup_append]
      refine ⟨ih, ?_, ?_⟩
      · by_cases h : item ∈ items <;> simp [List.removeAll, h, List.eraseDups_cons]
      · rintro a ha b hb rfl
        rw [List.mem_eraseDups] at ha hb
        simp [List.removeAll, ha] at hb

theorem Collects.nodup_keys {pairs : List (String × α)} {d : Dictionary α} (h : Collects pairs d) :
    d.keys.Nodup :=
  h.keys ▸ nodup_eraseDups _

/-- Pairs are collected in one way. -/
theorem Collects.unique {pairs : List (String × α)} {d e : Dictionary α}
    (hd : Collects pairs d) (he : Collects pairs e) : d = e :=
  ext_of_nodup hd.nodup_keys (hd.keys.trans he.keys.symm)
    fun key => (hd.values key).trans (he.values key).symm

/-- The values of a dictionary that collects pairs come from the pairs. -/
theorem Collects.mem_pairs {pairs : List (String × α)} {d : Dictionary α} (h : Collects pairs d)
    {entry : String × α} (he : entry ∈ d.entries) : entry ∈ pairs := by
  have hget : d.get? entry.1 = some entry.2 := get?_of_mem_entries h.nodup_keys he
  rw [h.values] at hget
  have hmem : entry ∈ pairs.reverse := mem_entries_of_get? (d := ⟨pairs.reverse⟩) hget
  exact List.mem_reverse.mp hmem

/-- Inserting one more pair collects it. -/
theorem Collects.concat {pairs : List (String × α)} {d : Dictionary α} (h : Collects pairs d)
    (pair : String × α) : Collects (pairs ++ [pair]) (d.insert pair.1 pair.2) := by
  obtain ⟨key, value⟩ := pair
  constructor
  · rw [keys_insert, List.map_append, List.eraseDups_append, ← h.keys]
    have hmem : key ∈ d.keys ↔ key ∈ pairs.map Prod.fst := by rw [h.keys, List.mem_eraseDups]
    by_cases hk : key ∈ pairs.map Prod.fst
    · rw [if_pos (hmem.mpr hk)]
      simp [List.removeAll, hk]
    · rw [if_neg (mt hmem.mp hk)]
      simp [List.removeAll, hk, List.eraseDups_cons]
  · intro other
    rw [get?_insert, List.reverse_append, List.reverse_singleton, List.singleton_append,
      List.lookup_cons]
    by_cases ho : other = key
    · simp [ho]
    · rw [if_neg ho, beq_false_of_ne ho, h.values]

/-- Inserting pairs one after the other, starting from nothing, collects them. -/
theorem collects_ofList (pairs : List (String × α)) : Collects pairs (ofList pairs) := by
  induction pairs using List.reverseRecOn with
  | nil => exact ⟨rfl, fun _ => rfl⟩
  | append_singleton pairs pair ih =>
      rw [ofList, List.foldl_append]
      exact ih.concat pair

/-- Distinct items are kept when repeated ones are erased. -/
private theorem eraseDups_of_nodup {items : List String} (h : items.Nodup) :
    items.eraseDups = items := by
  induction items with
  | nil => rfl
  | cons item rest ih =>
      obtain ⟨hnew, hrest⟩ := List.nodup_cons.mp h
      have hfilter : (rest.filter fun other => !other == item) = rest := by
        rw [List.filter_eq_self]
        rintro other hother
        simp only [Bool.not_eq_eq_eq_not, Bool.not_true, beq_eq_false_iff_ne]
        rintro rfl
        exact hnew hother
      rw [List.eraseDups_cons, hfilter, ih hrest]

/-- A dictionary with distinct keys collects its own entries. -/
theorem collects_entries {d : Dictionary α} (h : d.keys.Nodup) : Collects d.entries d := by
  constructor
  · exact (eraseDups_of_nodup h).symm
  · intro key
    have hreverse : (Dictionary.mk d.entries.reverse).keys.Nodup := by
      rw [keys, List.map_reverse, List.nodup_reverse]
      exact h
    cases hv : d.get? key with
    | some value =>
        have hmem : (key, value) ∈ d.entries.reverse :=
          List.mem_reverse.mpr (mem_entries_of_get? hv)
        exact (get?_of_mem_entries hreverse hmem).symm
    | none =>
        have hnot : key ∉ (Dictionary.mk d.entries.reverse).keys := by
          rw [keys, List.map_reverse, List.mem_reverse]
          exact (get?_eq_none_iff d key).mp hv
        exact ((get?_eq_none_iff _ key).mpr hnot).symm

/-! ### Changes in place -/

theorem modifyEntry_append {key : String} {before : List (String × α)}
    (h : key ∉ before.map Prod.fst) (change : α → α) (rest : List (String × α)) :
    modifyEntry key change (before ++ rest) = before ++ modifyEntry key change rest := by
  induction before with
  | nil => rfl
  | cons entry before ih =>
      rw [List.map_cons, List.mem_cons, not_or] at h
      rw [List.cons_append, modifyEntry, if_neg fun e => h.1 e.symm, ih h.2, List.cons_append]

theorem replaces_modify {d : Dictionary α} {key : String} {old : α} (h : d.get? key = some old)
    (change : α → α) : d.Replaces key old (change old) (d.modify key change) := by
  obtain ⟨before, after, hnot, hentries, -⟩ := replaces_insert h old
  refine ⟨before, after, hnot, hentries, ?_⟩
  rw [modify, hentries, modifyEntry_append hnot, modifyEntry, if_pos rfl]

theorem modify_of_get?_eq_none {d : Dictionary α} {key : String} (h : d.get? key = none)
    (change : α → α) : d.modify key change = d := by
  have hentries := modifyEntry_append ((get?_eq_none_iff d key).mp h) change []
  rw [List.append_nil] at hentries
  rw [modify, hentries, modifyEntry, List.append_nil]

/-! ### Runs of insertions -/

/-- Distinct items stand in the order in which they come first. -/
private theorem pairwise_idxOf_eraseDups (items : List String) :
    items.eraseDups.Pairwise fun a b => items.idxOf a < items.idxOf b := by
  induction items using List.reverseRecOn with
  | nil => simp
  | append_singleton items item ih =>
      have hearlier : ∀ a ∈ items.eraseDups, (items ++ [item]).idxOf a = items.idxOf a :=
        fun a ha => List.idxOf_append_of_mem (List.mem_eraseDups.mp ha)
      have hkept : items.eraseDups.Pairwise fun a b =>
          (items ++ [item]).idxOf a < (items ++ [item]).idxOf b := by
        refine ih.imp_of_mem fun ha hb hlt => ?_
        rwa [hearlier _ ha, hearlier _ hb]
      rw [List.eraseDups_append]
      by_cases h : item ∈ items
      · simpa [List.removeAll, h] using hkept
      · have hnew : [item].removeAll items = [item] := by simp [List.removeAll, h]
        rw [hnew, List.pairwise_append]
        refine ⟨hkept, by simp [List.eraseDups_cons], fun a ha b hb => ?_⟩
        obtain rfl : b = item := by simpa [List.eraseDups_cons] using hb
        have ha' : a ∈ items := List.mem_eraseDups.mp ha
        rw [hearlier a ha, List.idxOf_append_of_notMem h]
        exact Nat.lt_add_right _ (List.idxOf_lt_length_of_mem ha')

/-- A dictionary holds pairs that were inserted one after the other. -/
structure InsertionOrdered (pairs : List (String × α)) (d : Dictionary α) : Prop where
  /-- No key stands twice. -/
  distinct : d.keys.Nodup
  /-- The keys are those of the pairs. -/
  mem_keys : ∀ key, key ∈ d.keys ↔ key ∈ pairs.map Prod.fst
  /-- A key stands before another if it was inserted before it for the first time. -/
  order : d.keys.Pairwise fun a b => (pairs.map Prod.fst).idxOf a < (pairs.map Prod.fst).idxOf b
  /-- There are as many entries as distinct keys. -/
  size : d.size = (pairs.map Prod.fst).toFinset.card
  /-- The value of a key is that of its last insertion. -/
  last : ∀ key value, d.get? key = some value ↔
    ∃ before after, pairs = before ++ (key, value) :: after ∧ key ∉ after.map Prod.fst
  /-- A key that was never inserted has no value. -/
  missing : ∀ key, d.get? key = none ↔ key ∉ pairs.map Prod.fst
  /-- Inserting a present key replaces its value where it stands and nothing else. -/
  replaced : ∀ key old new, d.get? key = some old → d.Replaces key old new (d.insert key new)
  /-- So does a change of the value in place. -/
  changed : ∀ key old change, d.get? key = some old →
    d.Replaces key old (change old) (d.modify key change)
  /-- Without the key a change in place has nothing to change. -/
  unchanged : ∀ key change, d.get? key = none → d.modify key change = d

/-- The value of a collected key is that of the last pair with the key. -/
theorem Collects.get?_eq_some_iff {pairs : List (String × α)} {d : Dictionary α}
    (h : Collects pairs d) (key : String) (value : α) :
    d.get? key = some value ↔
      ∃ before after, pairs = before ++ (key, value) :: after ∧ key ∉ after.map Prod.fst := by
  rw [h.values, List.lookup_eq_some_iff]
  constructor
  · rintro ⟨after, before, hpairs, hafter⟩
    refine ⟨before.reverse, after.reverse, ?_, ?_⟩
    · rw [← List.reverse_reverse pairs, hpairs]
      simp
    · rw [List.map_reverse, List.mem_reverse]
      intro hmem
      obtain ⟨pair, hpair, rfl⟩ := List.mem_map.mp hmem
      simpa using hafter pair hpair
  · rintro ⟨before, after, rfl, hafter⟩
    refine ⟨after.reverse, before.reverse, by simp, fun pair hpair => ?_⟩
    have hne : key ≠ pair.1 := by
      rintro rfl
      exact hafter (List.mem_map_of_mem (List.mem_reverse.mp hpair))
    simpa using hne

theorem Collects.mem_keys_iff {pairs : List (String × α)} {d : Dictionary α}
    (h : Collects pairs d) (key : String) : key ∈ d.keys ↔ key ∈ pairs.map Prod.fst := by
  rw [h.keys, List.mem_eraseDups]

/-- There are as many entries as distinct keys among the pairs. -/
theorem Collects.size_eq {pairs : List (String × α)} {d : Dictionary α} (h : Collects pairs d) :
    d.size = (pairs.map Prod.fst).toFinset.card := by
  have hsame : (pairs.map Prod.fst).toFinset = d.keys.toFinset := by
    ext key
    rw [List.mem_toFinset, List.mem_toFinset, h.mem_keys_iff]
  have hlength : d.keys.length = d.size := List.length_map _
  rw [hsame, List.toFinset_card_of_nodup h.nodup_keys, hlength]

/-- Inserting pairs one after the other, starting from nothing, gives a dictionary in the order of
the first insertions with the values of the last. -/
theorem insertionOrdered_ofList (pairs : List (String × α)) :
    InsertionOrdered pairs (ofList pairs) := by
  have h := collects_ofList pairs
  constructor
  case distinct => exact h.nodup_keys
  case mem_keys => exact h.mem_keys_iff
  case order =>
    rw [h.keys]
    exact pairwise_idxOf_eraseDups _
  case size => exact h.size_eq
  case last => exact h.get?_eq_some_iff
  case missing =>
    intro key
    rw [get?_eq_none_iff, h.mem_keys_iff]
  case replaced => exact fun key old new hget => replaces_insert hget new
  case changed => exact fun key old change hget => replaces_modify hget change
  case unchanged => exact fun key change hget => modify_of_get?_eq_none hget change

end BridgingHeader.Dictionary
