/-!
# Success step by step

Work that may fail succeeds only if each of its steps does, and each step starts where the one before
it has ended.
-/

namespace BridgingHeader

variable {σ ε α β : Type}

/-- Two steps succeed if the second one does after the first. -/
theorem bind_eq_ok_iff {first : Except ε α} {next : α → Except ε β} {result : β} :
    first >>= next = .ok result ↔ ∃ a, first = .ok a ∧ next a = .ok result := by
  cases first with
  | error e => simp [bind, Except.bind]
  | ok a => simp [bind, Except.bind]

/-- A step after a success. -/
theorem ok_bind (a : α) (next : α → Except ε β) : Except.ok a >>= next = next a := rfl

/-- Only what comes after a success matters. -/
theorem bind_congr_of_ok {first : Except ε α} {next other : α → Except ε β}
    (h : ∀ a, first = .ok a → next a = other a) : first >>= next = first >>= other := by
  cases first with
  | error e => rfl
  | ok a => exact h a rfl

/-- A step after a check succeeds if nothing is wrong and the step does. -/
theorem of_guard_eq_ok {c : Prop} [Decidable c] {e : ε} {next : PUnit → Except ε β} {result : β}
    (h : (if c then throw e >>= next else next ⟨⟩) = .ok result) : ¬ c ∧ next ⟨⟩ = .ok result := by
  split at h
  · cases h
  · exact ⟨‹_›, h⟩

/-- Work that cannot fail, run as work that may. -/
theorem run_liftM (x : StateM σ α) (s : σ) :
    (liftM x : ExceptT ε (StateM σ) α).run s = (.ok (x s).1, (x s).2) := rfl

/-- Work that cannot fail is followed by what comes after it. -/
theorem bind_of_eq {x : StateM σ α} {s s' : σ} {a : α} (h : x s = (a, s'))
    (f : α → StateM σ β) : (x >>= f) s = f a s' := by
  have hrun : (x >>= f) s = f (x s).1 (x s).2 := rfl
  rw [hrun, h]

theorem run_bind_of_ok {x : ExceptT ε (StateM σ) α} {s s' : σ} {a : α}
    (h : x.run s = (.ok a, s')) (f : α → ExceptT ε (StateM σ) β) :
    (x >>= f).run s = (f a).run s' := by
  have hrun : (x >>= f).run s = ExceptT.bindCont f (x.run s).1 (x.run s).2 := rfl
  rw [hrun, h]
  rfl

theorem run_bind_of_error {x : ExceptT ε (StateM σ) α} {s s' : σ} {e : ε}
    (h : x.run s = (.error e, s')) (f : α → ExceptT ε (StateM σ) β) :
    (x >>= f).run s = (.error e, s') := by
  have hrun : (x >>= f).run s = ExceptT.bindCont f (x.run s).1 (x.run s).2 := rfl
  rw [hrun, h]
  rfl

/-- Work that succeeds has done so at each of its steps. -/
theorem exists_of_bind_ok {x : ExceptT ε (StateM σ) α} {f : α → ExceptT ε (StateM σ) β} {s : σ}
    {b : β} (h : ((x >>= f).run s).1 = .ok b) :
    ∃ a, (x.run s).1 = .ok a ∧ ((f a).run (x.run s).2).1 = .ok b := by
  have hrun : (x >>= f).run s = ExceptT.bindCont f (x.run s).1 (x.run s).2 := rfl
  rw [hrun] at h
  cases hx : (x.run s).1 with
  | ok a =>
    rw [hx] at h
    exact ⟨a, rfl, h⟩
  | error e =>
    rw [hx] at h
    cases h

theorem exists_of_run_bind_ok {x : ExceptT ε (StateM σ) α} {f : α → ExceptT ε (StateM σ) β}
    {s s' : σ} {b : β} (h : (x >>= f).run s = (.ok b, s')) :
    ∃ a between, x.run s = (.ok a, between) ∧ (f a).run between = (.ok b, s') := by
  rcases hx : x.run s with ⟨e | a, between⟩
  · rw [run_bind_of_error hx] at h
    cases h
  · rw [run_bind_of_ok hx] at h
    exact ⟨a, between, rfl, h⟩

theorem run_bind_eq_ok_iff {x : ExceptT ε (StateM σ) α} {f : α → ExceptT ε (StateM σ) β}
    {s s' : σ} {b : β} : (x >>= f).run s = (.ok b, s') ↔
      ∃ a between, x.run s = (.ok a, between) ∧ (f a).run between = (.ok b, s') := by
  refine ⟨exists_of_run_bind_ok, ?_⟩
  rintro ⟨a, between, hx, hf⟩
  rw [run_bind_of_ok hx, hf]

/-- A loop that succeeds keeps what each of its steps keeps. What a step brings about is there in the
end if the later steps let it be. -/
theorem run_forM_of_ok {items : List α} {f : α → ExceptT ε (StateM σ) PUnit} {I : σ → Prop}
    {Q : α → σ → Prop} (hstep : ∀ a ∈ items, ∀ s s', I s → (f a).run s = (.ok ⟨⟩, s') →
      I s' ∧ Q a s' ∧ ∀ b, Q b s → Q b s')
    {s s' : σ} (hI : I s) (h : (items.forM f).run s = (.ok ⟨⟩, s')) :
    I s' ∧ (∀ a ∈ items, Q a s') ∧ ∀ b, Q b s → Q b s' := by
  induction items generalizing s with
  | nil =>
    cases h
    exact ⟨hI, nofun, fun _ hb => hb⟩
  | cons a rest ih =>
    rw [List.forM] at h
    obtain ⟨_, between, ha, hrest⟩ := exists_of_run_bind_ok h
    obtain ⟨hbetween, hdone, hkept⟩ := hstep a List.mem_cons_self s between hI ha
    obtain ⟨hend, hall, hlater⟩ :=
      ih (fun b hb => hstep b (List.mem_cons_of_mem _ hb)) hbetween hrest
    refine ⟨hend, fun b hb => ?_, fun b hb => hlater b (hkept b hb)⟩
    rcases List.mem_cons.mp hb with rfl | hb
    · exact hlater _ hdone
    · exact hall b hb

theorem run_ofExcept_eq_ok_iff {result : Except ε α} {s s' : σ} {a : α} :
    (MonadExcept.ofExcept result : ExceptT ε (StateM σ) α).run s = (.ok a, s') ↔
      result = .ok a ∧ s' = s := by
  cases result with
  | ok b =>
    constructor
    · intro h
      cases h
      exact ⟨rfl, rfl⟩
    · rintro ⟨⟨⟩, rfl⟩
      rfl
  | error e =>
    constructor
    · intro h
      cases h
    · rintro ⟨⟨⟩, -⟩

theorem eq_of_ofExcept_ok {result : Except ε α} {s : σ} {a : α}
    (h : ((MonadExcept.ofExcept result : ExceptT ε (StateM σ) α).run s).1 = .ok a) :
    result = .ok a := by
  cases result with
  | ok b =>
    cases h
    rfl
  | error e => cases h

end BridgingHeader
