import Mathlib.Data.List.Perm.Subperm
import BridgingHeader.Proofs.Project.Primitives

/-!
# The search for an identifier

A new identifier is the candidate of the first salt whose candidate no object has. Among one more
candidates than there are objects, all of them distinct, one is free, so that the search looks at
no further salt.
-/

namespace BridgingHeader.Project

variable {digest : Digest} {purpose : String} {p : Project}

/-! ### Candidates -/

/-- The identifiers for the salts from 0 up to the number of objects. -/
def candidates (digest : Digest) (purpose : String) (count : Nat) : List String :=
  (List.range (count + 1)).map (idFor digest purpose count)

/-- Some candidate is not taken if there are more distinct candidates than taken identifiers. -/
theorem exists_free_of_nodup {candidate : Nat → String} {taken : List String}
    (hdistinct : ((List.range (taken.length + 1)).map candidate).Nodup) :
    ∃ salt ≤ taken.length, candidate salt ∉ taken := by
  by_contra hall
  push Not at hall
  have hsubset : (List.range (taken.length + 1)).map candidate ⊆ taken := by
    intro id hid
    obtain ⟨salt, hsalt, rfl⟩ := List.mem_map.mp hid
    exact hall salt (Nat.lt_succ_iff.mp (List.mem_range.mp hsalt))
  have hlength := (hdistinct.subperm hsubset).length_le
  rw [List.length_map, List.length_range] at hlength
  omega

/-- Salts are words of 64 bits: the first number that is none gives the same identifier as zero. -/
theorem idFor_saltCount (digest : Digest) (purpose : String) (count : Nat) :
    idFor digest purpose count saltCount = idFor digest purpose count 0 := by
  have hword : saltCount.toUInt64 = Nat.toUInt64 0 := by decide
  rw [idFor, idFor, hword]

/-- Distinct candidates belong to different salts. -/
theorem lt_saltCount_of_nodup {count : Nat} (hdistinct : (candidates digest purpose count).Nodup) :
    count < saltCount := by
  by_contra hcount
  have hmem : ∀ salt ≤ count, salt ∈ List.range (count + 1) :=
    fun salt hsalt => List.mem_range.mpr (Nat.lt_succ_of_le hsalt)
  have hzero : saltCount = 0 :=
    List.inj_on_of_nodup_map hdistinct (hmem _ (Nat.le_of_not_lt hcount)) (hmem 0 (Nat.zero_le _))
      (idFor_saltCount digest purpose count)
  exact absurd hzero (by decide)

/-! ### The end of the search -/

/-- The search for an identifier ends at a salt. -/
structure EndsAt (digest : Digest) (purpose : String) (p : Project) (salt : Nat) : Prop where
  /-- Nothing beyond the salt is looked at. -/
  found : firstFree? (idFor digest purpose p.ids.length) p.entries.contains (salt + 1) 0 =
    some (freshId digest p purpose)
  /-- The identifier is that of the salt. -/
  id : freshId digest p purpose = idFor digest purpose p.ids.length salt
  /-- No object has the identifier. -/
  free : freshId digest p purpose ∉ p.ids
  /-- The identifiers of all smaller salts are taken. -/
  earlier : ∀ earlier < salt, idFor digest purpose p.ids.length earlier ∈ p.ids

/-- If a candidate is free, the search ends at some salt, and no later than there. -/
theorem exists_endsAt {salt : Nat} (hsalt : salt < saltCount)
    (hfree : idFor digest purpose p.ids.length salt ∉ p.ids) :
    ∃ first ≤ salt, EndsAt digest purpose p first := by
  have htaken : ∀ id, p.entries.contains id = true ↔ id ∈ p.ids :=
    fun id => Dictionary.contains_iff p.entries id
  obtain ⟨first, -, -, hid, hunused, hearlier⟩ :=
    firstFree?_eq_some_iff.mp (firstFree?_eq_freshId ⟨salt, hsalt, hfree⟩)
  refine ⟨first, ?_, ?_, hid.symm, ?_, ?_⟩
  · by_contra hlater
    exact hfree ((htaken _).mp (hearlier salt (Nat.zero_le _) (Nat.lt_of_not_le hlater)))
  · exact firstFree?_eq_some_iff.mpr
      ⟨first, Nat.zero_le _, by omega, hid, hunused, hearlier⟩
  · exact (contains_entries_eq_false_iff p _).mp hunused
  · exact fun earlier hbefore => (htaken _).mp (hearlier earlier (Nat.zero_le _) hbefore)

/-- A new identifier depends on how many objects there are and on which identifiers they have. -/
theorem freshId_congr {q : Project} (hcount : q.ids.length = p.ids.length)
    (htaken : ∀ id, id ∈ q.ids ↔ id ∈ p.ids) :
    freshId digest q purpose = freshId digest p purpose := by
  have hsize : q.entries.size = p.entries.size := by
    have hlength : ∀ r : Project, r.ids.length = r.entries.size := fun r => List.length_map ..
    rw [← hlength, ← hlength, hcount]
  have hcontains : q.entries.contains = p.entries.contains := by
    funext id
    rw [Bool.eq_iff_iff, Dictionary.contains_iff, Dictionary.contains_iff]
    exact htaken id
  change (firstFree? (idFor digest purpose q.entries.size) q.entries.contains saltCount 0).getD "" =
    (firstFree? (idFor digest purpose p.entries.size) p.entries.contains saltCount 0).getD ""
  rw [hsize, hcontains]

/-- If the candidates are distinct, the search ends at a salt that is no greater than the number of
objects, with the candidate of the smallest salt that is free. -/
theorem freshId_of_distinct_candidates
    (hdistinct : (candidates digest purpose p.ids.length).Nodup) :
    (∃ salt ≤ p.ids.length, EndsAt digest purpose p salt) ∧
    IsId (freshId digest p purpose) ∧
    ∀ q : Project, q.ids.length = p.ids.length → (∀ id, id ∈ q.ids ↔ id ∈ p.ids) →
      freshId digest q purpose = freshId digest p purpose := by
  obtain ⟨salt, hsalt, hfree⟩ := exists_free_of_nodup hdistinct
  have hbound : salt < saltCount := Nat.lt_of_le_of_lt hsalt (lt_saltCount_of_nodup hdistinct)
  obtain ⟨first, hfirst, hends⟩ := exists_endsAt hbound hfree
  exact ⟨⟨first, hfirst.trans hsalt, hends⟩, isId_freshId ⟨salt, hbound, hfree⟩,
    fun q hcount htaken => freshId_congr hcount htaken⟩

/-- A project with one object, whose identifier is the first candidate for a purpose. -/
def occupied (purpose : String) : Project :=
  ⟨⟨[("objects", .dictionary ⟨[(idFor .sha256 purpose 1 0, .dictionary .empty)]⟩)]⟩⟩

/-- In front of a taken candidate the search goes on to the next salt, the last one it may need. -/
theorem freshId_of_occupied :
    (candidates .sha256 "a.m" (occupied "a.m").ids.length).Nodup ∧
    EndsAt .sha256 "a.m" (occupied "a.m") (occupied "a.m").ids.length := by
  have hdistinct : (candidates .sha256 "a.m" (occupied "a.m").ids.length).Nodup := by
    decide +kernel
  obtain ⟨⟨salt, hsalt, hends⟩, -, -⟩ := freshId_of_distinct_candidates hdistinct
  have hzero : salt ≠ 0 := by
    rintro rfl
    exact hends.free (hends.id ▸ List.mem_singleton_self _)
  have hone : (occupied "a.m").ids.length = 1 := rfl
  obtain rfl : salt = (occupied "a.m").ids.length := by omega
  exact ⟨hdistinct, hends⟩

end BridgingHeader.Project
