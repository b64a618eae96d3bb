import BridgingHeader.Proofs.Outcomes
import BridgingHeader.Temporaries

/-!
# Tracking work

Work that tracks paths is work with a state of its own beneath. What it tracked stays tracked when it
ends with a report, and what follows it sees that.
-/

namespace BridgingHeader.Temporaries.Tracking

variable {σ α β : Type}

/-- What follows tracking work sees the paths that are tracked by then. -/
theorem run_run_bind {m : Type → Type} [Monad m] (x : Tracking m α) (f : α → Tracking m β)
    (tracked : Temporaries) : (x >>= f).run.run tracked = x.run.run tracked >>= fun ended =>
      match ended.1 with
      | .ok a => (f a).run.run ended.2
      | .error report => pure (.error report, ended.2) := by
  rw [ExceptT.run_bind, StateT.run_bind]
  refine bind_congr fun ended => ?_
  rcases ended with ⟨a | a, tracked'⟩ <;> rfl

/-- The steps of a task that is put into context may be put there one by one. -/
theorem ofWork_within_bind {m : Type → Type} [Monad m] [LawfulMonad m] (context : String)
    (x : Task m α) (f : α → Task m β) :
    (ofWork ((x >>= f).toWork.within context) : Tracking m β) =
      ofWork (x.toWork.within context) >>= fun a => ofWork ((f a).toWork.within context) := by
  refine congrArg ExceptT.mk (funext fun tracked => ?_)
  refine Eq.trans ?_ (run_run_bind _ _ tracked).symm
  simp only [ofWork, Task.toWork, Work.within, StateT.lift, StateT.run, ExceptT.run_bind,
    ExceptT.run_mk, bind_assoc, pure_bind]
  refine bind_congr fun result => ?_
  cases result with
  | ok a => rfl
  | error failure => exact pure_bind _ _

/-- Where tracking work ends. -/
def endOf (x : Tracking (StateM σ) α) (tracked : Temporaries) (s : σ) :
    (Except Report α × Temporaries) × σ := x.run.run tracked s

theorem endOf_bind (x : Tracking (StateM σ) α) (f : α → Tracking (StateM σ) β)
    (tracked : Temporaries) (s : σ) : endOf (x >>= f) tracked s =
      match endOf x tracked s with
      | ((.ok a, tracked'), s') => endOf (f a) tracked' s'
      | ((.error report, tracked'), s') => ((.error report, tracked'), s') := by
  rw [endOf, run_run_bind]
  change (match (endOf x tracked s).1.1 with
    | .ok a => (f a).run.run (endOf x tracked s).1.2
    | .error report => pure (.error report, (endOf x tracked s).1.2)) (endOf x tracked s).2 = _
  rcases endOf x tracked s with ⟨⟨a | a, tracked'⟩, s'⟩ <;> rfl

theorem endOf_ofWork (work : Work (StateM σ) α) (tracked : Temporaries) (s : σ) :
    endOf (ofWork work) tracked s = (((work.run s).1, tracked), (work.run s).2) := rfl

/-- Work that tracks nothing ends where it ends on its own. -/
theorem run_of_endOf_ofWork {work : Work (StateM σ) α} {tracked tracked' : Temporaries} {s s' : σ}
    {result : Except Report α} (h : endOf (ofWork work) tracked s = ((result, tracked'), s')) :
    work.run s = (result, s') ∧ tracked' = tracked := by
  rw [endOf_ofWork] at h
  cases h
  exact ⟨rfl, rfl⟩

theorem endOf_ofWork_liftM (x : StateM σ α) (tracked : Temporaries) (s : σ) :
    endOf (ofWork (liftM x)) tracked s = ((.ok (x s).1, tracked), (x s).2) := rfl

theorem endOf_within (context : String) (work : Work (StateM σ) α) (tracked : Temporaries) (s : σ) :
    endOf (ofWork (work.within context)) tracked s =
      (((work.run s).1.mapError (·.within context), tracked), (work.run s).2) := rfl

theorem endOf_track (path : Path) (tracked : Temporaries) (s : σ) :
    endOf (track path) tracked s = ((.ok (), tracked.track path), s) := rfl

theorem exists_of_endOf_bind_ok {x : Tracking (StateM σ) α} {f : α → Tracking (StateM σ) β}
    {tracked : Temporaries} {s : σ} {b : β} (h : (endOf (x >>= f) tracked s).1.1 = .ok b) :
    ∃ a tracked' s', endOf x tracked s = ((.ok a, tracked'), s') ∧
      (endOf (f a) tracked' s').1.1 = .ok b := by
  rw [endOf_bind] at h
  rcases hend : endOf x tracked s with ⟨⟨report | a, tracked'⟩, s'⟩
  · rw [hend] at h
    cases h
  · rw [hend] at h
    exact ⟨a, tracked', s', rfl, h⟩

theorem endOf_bind_of_ok {x : Tracking (StateM σ) α} {tracked tracked' : Temporaries} {s s' : σ}
    {a : α} (h : endOf x tracked s = ((.ok a, tracked'), s')) (f : α → Tracking (StateM σ) β) :
    endOf (x >>= f) tracked s = endOf (f a) tracked' s' := by
  rw [endOf_bind, h]

/-- Work that cannot fail is done before what follows it. -/
theorem endOf_liftM_bind (x : StateM σ α) (f : α → Tracking (StateM σ) β) (tracked : Temporaries)
    (s : σ) : endOf (ofWork (liftM x) >>= f) tracked s = endOf (f (x s).1) tracked (x s).2 := by
  rw [endOf_bind, endOf_ofWork_liftM]

theorem endOf_track_bind (path : Path) (f : Unit → Tracking (StateM σ) β) (tracked : Temporaries)
    (s : σ) : endOf (track path >>= f) tracked s = endOf (f ()) (tracked.track path) s := by
  rw [endOf_bind, endOf_track]

theorem endOf_ofWork_eq_ok_iff {work : Work (StateM σ) α} {tracked tracked' : Temporaries}
    {s s' : σ} {a : α} : endOf (ofWork work) tracked s = ((.ok a, tracked'), s') ↔
      work.run s = (.ok a, s') ∧ tracked' = tracked := by
  refine ⟨run_of_endOf_ofWork, ?_⟩
  rintro ⟨hrun, rfl⟩
  rw [endOf_ofWork, hrun]

theorem endOf_bind_eq_ok_iff {x : Tracking (StateM σ) α} {f : α → Tracking (StateM σ) β}
    {tracked tracked' : Temporaries} {s s' : σ} {b : β} :
    endOf (x >>= f) tracked s = ((.ok b, tracked'), s') ↔ ∃ a tracked'' between,
      endOf x tracked s = ((.ok a, tracked''), between) ∧
        endOf (f a) tracked'' between = ((.ok b, tracked'), s') := by
  rw [endOf_bind]
  rcases endOf x tracked s with ⟨⟨report | a, tracked''⟩, between⟩
  · constructor
    · intro h
      cases h
    · rintro ⟨a, _, _, h, -⟩
      cases h
  · constructor
    · exact fun h => ⟨a, tracked'', between, rfl, h⟩
    · rintro ⟨_, _, _, ha, h⟩
      cases ha
      exact h

theorem endOf_ofWork_bind_eq_ok_iff {work : Work (StateM σ) α} {f : α → Tracking (StateM σ) β}
    {tracked tracked' : Temporaries} {s s' : σ} {b : β} :
    endOf (ofWork work >>= f) tracked s = ((.ok b, tracked'), s') ↔ ∃ a between,
      work.run s = (.ok a, between) ∧ endOf (f a) tracked between = ((.ok b, tracked'), s') := by
  simp only [endOf_bind_eq_ok_iff, endOf_ofWork_eq_ok_iff]
  constructor
  · rintro ⟨a, _, between, ⟨hrun, rfl⟩, hend⟩
    exact ⟨a, between, hrun, hend⟩
  · rintro ⟨a, between, hrun, hend⟩
    exact ⟨a, tracked, between, ⟨hrun, rfl⟩, hend⟩

/-- Tracking work that starts with nothing tracked succeeds. -/
def Succeeds (x : Tracking (StateM σ) α) (s : σ) (a : α) (s' : σ) : Prop :=
  ∃ tracked, endOf x {} s = ((.ok a, tracked), s')

theorem Succeeds.endOf_snd {x : Tracking (StateM σ) α} {s s' : σ} {a : α}
    (h : Succeeds x s a s') : (endOf x {} s).2 = s' := by
  obtain ⟨tracked, hend⟩ := h
  rw [hend]

/-- Work succeeds if its parts do. What the second part does must not depend on what the first one
has tracked. -/
theorem succeeds_bind_iff {x : Tracking (StateM σ) α} {f : α → Tracking (StateM σ) β} {s s' : σ}
    {b : β} {Q : α → σ → Prop} (hf : ∀ a tracked between,
      (∃ tracked', endOf (f a) tracked between = ((.ok b, tracked'), s')) ↔ Q a between) :
    Succeeds (x >>= f) s b s' ↔ ∃ a between, Succeeds x s a between ∧ Q a between := by
  simp only [Succeeds, endOf_bind_eq_ok_iff]
  constructor
  · rintro ⟨tracked', a, tracked, between, hx, hend⟩
    exact ⟨a, between, ⟨tracked, hx⟩, (hf a tracked between).mp ⟨tracked', hend⟩⟩
  · rintro ⟨a, between, ⟨tracked, hx⟩, hQ⟩
    obtain ⟨tracked', hend⟩ := (hf a tracked between).mpr hQ
    exact ⟨tracked', a, tracked, between, hx, hend⟩

/-! ### What is tracked -/

/-- Work tracks some paths, whether it succeeds or not. -/
def Adds (paths : List Path) (x : Tracking (StateM σ) α) : Prop :=
  ∀ tracked s, (endOf x tracked s).1.2.paths = tracked.paths ++ paths

namespace Adds

variable {paths : List Path}

theorem pure (a : α) : Adds [] (pure a : Tracking (StateM σ) α) :=
  fun _ _ => (List.append_nil _).symm

theorem throw (report : Report) : Adds [] (throw report : Tracking (StateM σ) α) :=
  fun _ _ => (List.append_nil _).symm

theorem ofWork (work : Work (StateM σ) α) : Adds [] (ofWork work : Tracking (StateM σ) α) :=
  fun _ _ => (List.append_nil _).symm

/-- After work that cannot fail, everything is tracked that the rest of the work tracks. -/
theorem liftM_bind (x : StateM σ α) {f : α → Tracking (StateM σ) β} (h : ∀ a, Adds paths (f a)) :
    Adds paths (Tracking.ofWork (liftM x) >>= f) := by
  intro tracked s
  rw [endOf_bind, endOf_ofWork_liftM]
  exact h _ tracked _

/-- Paths of work that succeeds are tracked together with those of what follows. -/
theorem paths_bind (x : Tracking (StateM σ) α) {f : α → Tracking (StateM σ) β}
    (h : ∀ a, Adds paths (f a)) (tracked : Temporaries) (s : σ) :
    (endOf (x >>= f) tracked s).1.2.paths = (endOf x tracked s).1.2.paths ++
      if (endOf x tracked s).1.1.isOk then paths else [] := by
  rw [endOf_bind]
  rcases endOf x tracked s with ⟨⟨report | a, tracked'⟩, s'⟩
  · exact (List.append_nil _).symm
  · exact h a tracked' s'

theorem bind {x : Tracking (StateM σ) α} {f : α → Tracking (StateM σ) β} (hx : Adds paths x)
    (hf : ∀ a, Adds [] (f a)) : Adds paths (x >>= f) := by
  intro tracked s
  rw [paths_bind x hf, hx, ite_self, List.append_nil]

theorem track_bind (path : Path) {f : Unit → Tracking (StateM σ) α} (h : ∀ a, Adds [] (f a)) :
    Adds [path] (track path >>= f) :=
  bind (fun _ _ => rfl) h

end Adds

end BridgingHeader.Temporaries.Tracking
