import BridgingHeader.Proofs.Generation.Recording
import BridgingHeader.Proofs.Tracking

/-!
# Recorded runs

Work on a recorded host ends as the same work on the host beneath it does, and it adds some calls to
those written down so far. Which calls these are is put together from the steps of the work.
-/

namespace BridgingHeader

open Temporaries (Tracking)
open Temporaries.Tracking

namespace Recording

variable {σ α β ε : Type}

/-- Recorded work ends as the work beneath it does, and writes down some more calls. -/
def Emits (x : Recording (StateM σ) α) (y : StateM σ α) (s : σ) (new : List Call) : Prop :=
  ∀ calls, x calls s = (((y s).1, calls ++ new), (y s).2)

theorem emits_lift (y : StateM σ α) (s : σ) : Emits (lift y) y s [] := fun calls => by
  rw [List.append_nil]
  rfl

theorem Emits.bind {x : Recording (StateM σ) α} {y : StateM σ α} {s : σ} {first rest : List Call}
    {f : α → Recording (StateM σ) β} {g : α → StateM σ β} (hx : Emits x y s first)
    (hf : Emits (f (y s).1) (g (y s).1) (y s).2 rest) :
    Emits (x >>= f) (y >>= g) s (first ++ rest) := fun calls => by
  have hstep : (x >>= f) calls s = f (y s).1 (calls ++ first) (y s).2 := by
    change (match x calls s with | (ac, s') => f ac.1 ac.2 s') = _
    rw [hx calls]
  rw [hstep, hf, List.append_assoc]
  rfl

theorem Emits.bind_lift {x : Recording (StateM σ) α} {y : StateM σ α} {s : σ} {new : List Call}
    {f : α → Recording (StateM σ) β} {g : α → StateM σ β} (hx : Emits x y s new)
    (hf : ∀ a, f a = lift (g a)) : Emits (x >>= f) (y >>= g) s new := by
  have hrest : Emits (f (y s).1) (g (y s).1) (y s).2 [] := by
    rw [hf]
    exact emits_lift _ _
  simpa using hx.bind hrest

theorem Emits.bind_liftExcept {x : ExceptT ε (Recording (StateM σ)) α} {y : ExceptT ε (StateM σ) α}
    {s : σ} {new : List Call} {f : α → ExceptT ε (Recording (StateM σ)) β}
    {g : α → ExceptT ε (StateM σ) β} (hx : Emits x.run y.run s new)
    (hf : ∀ a, f a = liftExcept (g a)) : Emits (x >>= f).run (y >>= g).run s new := by
  rw [ExceptT.run_bind, ExceptT.run_bind]
  refine hx.bind_lift fun result => ?_
  cases result with
  | ok a => exact congrArg ExceptT.run (hf a)
  | error e => exact (lift_pure _).symm

theorem emits_liftM {x : Recording (StateM σ) α} {y : StateM σ α} {s : σ} {new : List Call}
    (h : Emits x y s new) : Emits (liftM x : ExceptT ε (Recording (StateM σ)) α).run
      (liftM y : ExceptT ε (StateM σ) α).run s new := by
  change Emits (Except.ok <$> x) (Except.ok <$> y) s new
  rw [map_eq_pure_bind, map_eq_pure_bind]
  exact h.bind_lift fun _ => (lift_pure _).symm

theorem emits_toWork {x : Task (Recording (StateM σ)) α} {y : Task (StateM σ) α} {s : σ}
    {new : List Call} (h : Emits x.run y.run s new) :
    Emits (Task.toWork x).run (Task.toWork y).run s new :=
  h.bind_lift fun _ => (lift_pure _).symm

theorem emits_within (context : String) {x : Work (Recording (StateM σ)) α}
    {y : Work (StateM σ) α} {s : σ} {new : List Call} (h : Emits x.run y.run s new) :
    Emits (Work.within context x).run (Work.within context y).run s new :=
  h.bind_lift fun _ => (lift_pure _).symm

theorem emits_service (service : InterfaceService (StateM σ)) (request : InterfaceRequest) (s : σ) :
    Emits (Recording.service service request).run (service request).run s
      [.requested request ((service request).run s).1] :=
  fun _ => rfl

theorem Emits.bindExcept_ok {x : ExceptT ε (Recording (StateM σ)) α} {y : ExceptT ε (StateM σ) α}
    {s s' : σ} {first rest : List Call} {f : α → ExceptT ε (Recording (StateM σ)) β}
    {g : α → ExceptT ε (StateM σ) β} {a : α} (hx : Emits x.run y.run s first)
    (hend : y.run s = (.ok a, s')) (hf : Emits (f a).run (g a).run s' rest) :
    Emits (x >>= f).run (y >>= g).run s (first ++ rest) := by
  rw [ExceptT.run_bind, ExceptT.run_bind]
  refine hx.bind ?_
  rw [hend]
  exact hf

theorem Emits.bindExcept_error {x : ExceptT ε (Recording (StateM σ)) α}
    {y : ExceptT ε (StateM σ) α} {s s' : σ} {new : List Call}
    {f : α → ExceptT ε (Recording (StateM σ)) β} {g : α → ExceptT ε (StateM σ) β} {e : ε}
    (hx : Emits x.run y.run s new) (hend : y.run s = (.error e, s')) :
    Emits (x >>= f).run (y >>= g).run s new := by
  rw [ExceptT.run_bind, ExceptT.run_bind, ← List.append_nil new]
  refine hx.bind ?_
  rw [hend]
  exact emits_lift (pure (Except.error e)) s'

/-! ### Commands -/

section Commands

variable [Host (StateM σ)] (c : Command) (s : σ)

/-- What comes of running a command. -/
def outcomeOf : Except Cause Outcome := ((Host.run c : StateM σ _) s).1

theorem emits_run : Emits (Host.run c) (Host.run c) s [.ran c (outcomeOf c s)] := fun _ => rfl

theorem emits_execute : Emits (c.execute (m := Recording (StateM σ))).run
    (c.execute (m := StateM σ)).run s [.ran c (outcomeOf c s)] := by
  refine (emits_liftM (emits_run c s)).bind_liftExcept fun result => ?_
  split <;> simp

theorem emits_executeChecked : Emits (c.executeChecked (m := Recording (StateM σ))).run
    (c.executeChecked (m := StateM σ)).run s [.ran c (outcomeOf c s)] := by
  refine (emits_execute c s).bind_liftExcept fun outcome => ?_
  split <;> simp

theorem emits_output : Emits (c.output (m := Recording (StateM σ))).run
    (c.output (m := StateM σ)).run s [.ran c (outcomeOf c s)] :=
  (emits_executeChecked c s).bind_liftExcept fun _ => (liftExcept_pure _).symm

theorem emits_dryRunLog (tool project : Path) (target : String)
    (options : BuildTool.DryRunOptions) :
    Emits (BuildTool.dryRunLog (m := Recording (StateM σ)) tool project target options).run
      (BuildTool.dryRunLog (m := StateM σ) tool project target options).run s
      [.ran (BuildTool.dryRun tool project target options)
        (outcomeOf (BuildTool.dryRun tool project target options) s)] :=
  (emits_executeChecked _ s).bind_liftExcept fun _ => (liftExcept_pure _).symm

theorem emits_preprocessor (tool input output : Path) (flags : List String) :
    Emits (Preprocessor.run (m := Recording (StateM σ)) tool input output flags).run
      (Preprocessor.run (m := StateM σ) tool input output flags).run s
      [.ran (Preprocessor.command tool input output flags)
        (outcomeOf (Preprocessor.command tool input output flags) s)] :=
  (emits_executeChecked _ s).bind_liftExcept fun _ => (liftExcept_pure _).symm

end Commands

/-! ### Tracking work -/

/-- Tracking work of the host beneath, which makes no call. -/
def liftTracking (x : Tracking (StateM σ) α) : Tracking (Recording (StateM σ)) α :=
  ExceptT.mk fun tracked => lift (x.run.run tracked)

@[simp] theorem liftTracking_pure (a : α) :
    liftTracking (pure a : Tracking (StateM σ) α) = pure a := rfl

@[simp] theorem liftTracking_throw (report : Report) :
    liftTracking (throw report : Tracking (StateM σ) α) = throw report := rfl

@[simp] theorem liftTracking_bind (x : Tracking (StateM σ) α) (f : α → Tracking (StateM σ) β) :
    liftTracking (x >>= f) = liftTracking x >>= fun a => liftTracking (f a) := by
  refine congrArg ExceptT.mk (funext fun tracked => ?_)
  rw [run_run_bind, lift_bind]
  refine Eq.trans ?_ (run_run_bind (liftTracking x) (fun a => liftTracking (f a)) tracked).symm
  refine bind_congr fun ended => ?_
  rcases ended with ⟨a | a, tracked'⟩ <;> rfl

@[simp] theorem ofWork_liftExcept (work : Work (StateM σ) α) :
    (ofWork (liftExcept work) : Tracking (Recording (StateM σ)) α) = liftTracking (ofWork work) :=
  rfl

@[simp] theorem track_eq (path : Path) :
    (track path : Tracking (Recording (StateM σ)) Unit) = liftTracking (track path) := rfl

/-- Tracking work that is recorded, seen as work with a state of its own. -/
def Traces (x : Tracking (Recording (StateM σ)) α) (y : Tracking (StateM σ) α)
    (tracked : Temporaries) (s : σ) (new : List Call) : Prop :=
  Emits (x.run.run tracked) (y.run.run tracked) s new

theorem traces_lift (y : Tracking (StateM σ) α) (tracked : Temporaries) (s : σ) :
    Traces (liftTracking y) y tracked s [] := emits_lift _ s

theorem traces_liftM (x : StateM σ α) (tracked : Temporaries) (s : σ) :
    Traces (ofWork (liftM (lift x))) (ofWork (liftM x)) tracked s [] := by
  rw [← liftExcept_liftM, ofWork_liftExcept]
  exact traces_lift _ _ _

theorem traces_ofWork {x : Work (Recording (StateM σ)) α} {y : Work (StateM σ) α} {s : σ}
    {new : List Call} (h : Emits x.run y.run s new) (tracked : Temporaries) :
    Traces (ofWork x) (ofWork y) tracked s new :=
  h.bind_lift fun _ => (lift_pure _).symm

/-- What follows makes its calls if it is reached. -/
theorem Traces.bind_ok {x : Tracking (Recording (StateM σ)) α} {y : Tracking (StateM σ) α}
    {f : α → Tracking (Recording (StateM σ)) β} {g : α → Tracking (StateM σ) β} {a : α}
    {tracked tracked' : Temporaries} {s s' : σ} {first rest : List Call}
    (hx : Traces x y tracked s first) (hend : endOf y tracked s = ((.ok a, tracked'), s'))
    (hf : Traces (f a) (g a) tracked' s' rest) :
    Traces (x >>= f) (y >>= g) tracked s (first ++ rest) := by
  rw [Traces, run_run_bind, run_run_bind]
  refine Emits.bind hx ?_
  change (y.run.run tracked) s = _ at hend
  rw [hend]
  exact hf

theorem Traces.bind_error {x : Tracking (Recording (StateM σ)) α} {y : Tracking (StateM σ) α}
    {f : α → Tracking (Recording (StateM σ)) β} {g : α → Tracking (StateM σ) β} {report : Report}
    {tracked tracked' : Temporaries} {s s' : σ} {new : List Call}
    (hx : Traces x y tracked s new) (hend : endOf y tracked s = ((.error report, tracked'), s')) :
    Traces (x >>= f) (y >>= g) tracked s new := by
  rw [Traces, run_run_bind, run_run_bind, ← List.append_nil new]
  refine Emits.bind hx ?_
  change (y.run.run tracked) s = _ at hend
  rw [hend]
  exact emits_lift (pure (Except.error report, tracked')) s'

theorem Traces.bind_lift {x : Tracking (Recording (StateM σ)) α} {y : Tracking (StateM σ) α}
    {f : α → Tracking (Recording (StateM σ)) β} {g : α → Tracking (StateM σ) β}
    {tracked : Temporaries} {s : σ} {new : List Call} (hx : Traces x y tracked s new)
    (hf : ∀ a, f a = liftTracking (g a)) : Traces (x >>= f) (y >>= g) tracked s new := by
  rcases hend : endOf y tracked s with ⟨⟨report | a, tracked'⟩, s'⟩
  · exact hx.bind_error hend
  · rw [← List.append_nil new]
    refine hx.bind_ok hend ?_
    rw [hf]
    exact traces_lift _ _ _

/-- The result of tracking work that starts with nothing tracked. -/
def resultOf (x : Tracking (StateM σ) α) (s : σ) : Except Report α := (endOf x {} s).1.1

/-- Work that makes one call follows other work if that succeeds. -/
theorem Traces.bind_call {x : Tracking (Recording (StateM σ)) α} {y : Tracking (StateM σ) α}
    {f : α → Tracking (Recording (StateM σ)) β} {g : α → Tracking (StateM σ) β} {s : σ}
    {first : List Call} {call : Call} (hx : Traces x y {} s first)
    (hf : ∀ a s', Succeeds y s a s' → ∀ tracked, Traces (f a) (g a) tracked s' [call]) :
    Traces (x >>= f) (y >>= g) {} s
      (first ++ if (resultOf y s).isOk then [call] else []) := by
  rcases hend : endOf y {} s with ⟨⟨report | a, tracked⟩, s'⟩
  · have hresult : (resultOf y s).isOk = false := by
      rw [resultOf, hend]
      rfl
    rw [hresult, if_neg Bool.false_ne_true, List.append_nil]
    exact hx.bind_error hend
  · have hresult : (resultOf y s).isOk = true := by
      rw [resultOf, hend]
      rfl
    rw [hresult, if_pos rfl]
    exact hx.bind_ok hend (hf a s' ⟨tracked, hend⟩ tracked)

theorem resultOf_of_succeeds {y : Tracking (StateM σ) α} {s s' : σ} {a : α}
    (h : Succeeds y s a s') : resultOf y s = .ok a := by
  obtain ⟨tracked, hend⟩ := h
  rw [resultOf, hend]

theorem isOk_resultOf_iff {y : Tracking (StateM σ) α} {s : σ} :
    (resultOf y s).isOk ↔ ∃ a s', Succeeds y s a s' := by
  rw [resultOf]
  rcases hend : endOf y {} s with ⟨⟨report | a, tracked⟩, s'⟩
  · refine iff_of_false Bool.false_ne_true ?_
    rintro ⟨a, s', tracked, h⟩
    rw [hend] at h
    cases h
  · exact iff_of_true rfl ⟨a, s', tracked, hend⟩

theorem isOk_resultOf_unit_iff {y : Tracking (StateM σ) Unit} {s : σ} :
    (resultOf y s).isOk ↔ ∃ s', Succeeds y s () s' := by
  rw [isOk_resultOf_iff]
  constructor
  · rintro ⟨⟨⟩, s', h⟩
    exact ⟨s', h⟩
  · rintro ⟨s', h⟩
    exact ⟨(), s', h⟩

/-- Calls that are made one after the other, each only if the one before it is, are the first ones of
a list. -/
theorem calls_prefix {one two three four : Bool} (htwo : two → one) (hthree : three → two)
    (hfour : four → three) (a b c d : Call) :
    let calls := (((if one then [a] else []) ++ if two then [b] else []) ++
      if three then [c] else []) ++ if four then [d] else []
    calls <+: [a, b, c, d] ∧ (1 ≤ calls.length ↔ one) ∧ (2 ≤ calls.length ↔ two) ∧
      (3 ≤ calls.length ↔ three) ∧ (4 ≤ calls.length ↔ four) := by
  cases four <;> cases three <;> cases two <;> cases one <;> simp_all

end Recording

end BridgingHeader
