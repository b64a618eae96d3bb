import Mathlib.Data.List.Find

/-!
# The first item with a property

Searches stop at the first item that fits. What they find is described without the search: an item
with a property that no item before it has.
-/

namespace BridgingHeader

/-- An item of a list has a property that no item before it has. -/
def IsFirst {α : Type} (P : α → Prop) (list : List α) (a : α) : Prop :=
  ∃ before after, list = before ++ a :: after ∧ P a ∧ ∀ b ∈ before, ¬ P b

variable {α : Type} {P : α → Prop} {list : List α} {a b : α}

theorem find?_eq_some_iff_isFirst [DecidablePred P] :
    list.find? (fun x => P x) = some a ↔ IsFirst P list a := by
  rw [List.find?_eq_some_iff_append]
  constructor
  · rintro ⟨ha, before, after, hlist, hbefore⟩
    exact ⟨before, after, hlist, of_decide_eq_true ha, fun b hb => by simpa using hbefore b hb⟩
  · rintro ⟨before, after, hlist, ha, hbefore⟩
    exact ⟨decide_eq_true ha, before, after, hlist, fun b hb => by simpa using hbefore b hb⟩

theorem IsFirst.property (h : IsFirst P list a) : P a := by
  obtain ⟨_, _, -, ha, -⟩ := h
  exact ha

theorem IsFirst.unique (ha : IsFirst P list a) (hb : IsFirst P list b) : a = b := by
  classical
  exact Option.some.inj
    ((find?_eq_some_iff_isFirst.mpr ha).symm.trans (find?_eq_some_iff_isFirst.mpr hb))

/-- Some item has a property exactly when there is a first one. -/
theorem exists_isFirst_iff : (∃ a, IsFirst P list a) ↔ ∃ a ∈ list, P a := by
  constructor
  · rintro ⟨a, before, after, rfl, ha, -⟩
    exact ⟨a, by simp, ha⟩
  · rintro ⟨b, hb, hP⟩
    classical
    have hsome : (list.find? fun x => P x).isSome :=
      List.find?_isSome.mpr ⟨b, hb, decide_eq_true hP⟩
    obtain ⟨a, ha⟩ := Option.isSome_iff_exists.mp hsome
    exact ⟨a, find?_eq_some_iff_isFirst.mp ha⟩

end BridgingHeader
