import BridgingHeader.Generation

/-!
# Recorded hosts

A recorded host does what the host beneath it does and writes down every external call: the commands
that are run and the interface requests that are sent, each with what came of it. Work that makes no
call is the same work on the host beneath, lifted.
-/

namespace BridgingHeader

/-- An external call and what came of it. -/
inductive Call where
  | ran (command : Command) (outcome : Except Cause Outcome)
  | requested (request : InterfaceRequest) (response : Except Report Response)

/-- A host with a list of the calls made on it so far. -/
abbrev Recording (m : Type → Type) := StateT (List Call) m

namespace Recording

variable {m : Type → Type} {α β ε ε' : Type} [Monad m]

/-- Work of the host beneath, which makes no call. -/
def lift (x : m α) : Recording m α := monadLift x

/-- Writes down a call. -/
def note (call : Call) : Recording m Unit := modify fun calls => calls ++ [call]

instance [Host m] : Host (Recording m) where
  workingDirectory := lift Host.workingDirectory
  environment name := lift (Host.environment name)
  kind path := lift (Host.kind path)
  linkKind path := lift (Host.linkKind path)
  isExecutable path := lift (Host.isExecutable path)
  canonical path := lift (Host.canonical path)
  readFile path := lift (Host.readFile path)
  writeFile path contents := lift (Host.writeFile path contents)
  makeDirectory path := lift (Host.makeDirectory path)
  copyFile source target := lift (Host.copyFile source target)
  removeFile path := lift (Host.removeFile path)
  removeTree path := lift (Host.removeTree path)
  moveFile source target := lift (Host.moveFile source target)
  list path := lift (Host.list path)
  writeTemporary directory contents := lift (Host.writeTemporary directory contents)
  run command := do
    let outcome ← lift (Host.run command)
    note (.ran command outcome)
    return outcome
  printOut text := lift (Host.printOut text)
  printError text := lift (Host.printError text)
  errorIsTerminal := lift Host.errorIsTerminal
  random bound := lift (Host.random bound)
  clock := lift Host.clock

/-- A service whose requests are written down. -/
def service (service : InterfaceService m) : InterfaceService (Recording m) := fun request =>
  ExceptT.mk do
    let response ← lift (service request).run
    note (.requested request response)
    return response

/-- Work of the host beneath that may fail. -/
def liftExcept (x : ExceptT ε m α) : ExceptT ε (Recording m) α := ExceptT.mk (lift x.run)

section Laws

variable [LawfulMonad m]

@[simp] theorem lift_pure (a : α) : lift (pure a : m α) = pure a :=
  monadLift_pure (m := m) (n := StateT (List Call) m) a

@[simp] theorem lift_bind (x : m α) (f : α → m β) :
    lift (x >>= f) = lift x >>= fun a => lift (f a) :=
  monadLift_bind (m := m) (n := StateT (List Call) m) x f

@[simp] theorem lift_map (f : α → β) (x : m α) : lift (f <$> x) = f <$> lift x := by
  rw [map_eq_pure_bind, lift_bind, map_eq_pure_bind]
  simp only [lift_pure]

@[simp] theorem liftExcept_pure (a : α) :
    liftExcept (pure a : ExceptT ε m α) = pure a :=
  congrArg ExceptT.mk (lift_pure (Except.ok a))

@[simp] theorem liftExcept_throw (e : ε) :
    liftExcept (throw e : ExceptT ε m α) = throw e :=
  congrArg ExceptT.mk (lift_pure (Except.error e))

@[simp] theorem liftExcept_bind (x : ExceptT ε m α) (f : α → ExceptT ε m β) :
    liftExcept (x >>= f) = liftExcept x >>= fun a => liftExcept (f a) := by
  refine congrArg ExceptT.mk ?_
  rw [ExceptT.run_bind, lift_bind]
  refine bind_congr fun result => ?_
  cases result with
  | ok a => rfl
  | error e => exact lift_pure _

@[simp] theorem liftExcept_liftM (x : m α) :
    liftExcept (liftM x : ExceptT ε m α) = liftM (lift x) :=
  congrArg ExceptT.mk (lift_map Except.ok x)

@[simp] theorem liftExcept_ofExcept (result : Except ε α) :
    liftExcept (MonadExcept.ofExcept result : ExceptT ε m α) = MonadExcept.ofExcept result := by
  cases result with
  | ok a => exact liftExcept_pure a
  | error e => exact liftExcept_throw e

/-- A step that makes no call makes none for a whole list. -/
theorem liftExcept_forM (items : List α) {f : α → ExceptT ε (Recording m) PUnit}
    {g : α → ExceptT ε m PUnit} (h : ∀ a, f a = liftExcept (g a)) :
    items.forM f = liftExcept (items.forM g) := by
  induction items with
  | nil => exact (liftExcept_pure _).symm
  | cons a rest ih => rw [List.forM, List.forM, h, ih, liftExcept_bind]

/-- A step that makes no call makes none for a whole list, and here no step fails. -/
theorem lift_forM (items : List α) (f : α → m PUnit) :
    (items.forM fun a => lift (f a)) = lift (items.forM f) := by
  induction items with
  | nil => exact (lift_pure _).symm
  | cons a rest ih => rw [List.forM, List.forM, ih, lift_bind]

@[simp] theorem at_lift (path : Path) (x : m (Except Cause α)) :
    Task.at path (lift x) = liftExcept (Task.at path x) := by
  refine congrArg ExceptT.mk ?_
  simp [Task.at]

@[simp] theorem toWork_liftExcept (x : Task m α) :
    Task.toWork (liftExcept x) = liftExcept (Task.toWork x) := by
  refine congrArg ExceptT.mk ?_
  simp [Task.toWork, liftExcept]

@[simp] theorem within_liftExcept (context : String) (x : Work m α) :
    Work.within context (liftExcept x) = liftExcept (Work.within context x) := by
  refine congrArg ExceptT.mk ?_
  simp [Work.within, liftExcept]

end Laws

/-! ### Files -/

section Files

variable [LawfulMonad m] [Host m]

@[simp] theorem exist_eq (path : Path) :
    (Files.exist path : Recording m Bool) = lift (Files.exist path) := by
  simp only [Files.exist, lift_bind, lift_pure]
  rfl

@[simp] theorem isFile_eq (path : Path) :
    (Files.isFile path : Recording m Bool) = lift (Files.isFile path) := by
  simp only [Files.isFile, lift_bind]
  refine bind_congr fun kind => ?_
  split <;> simp

@[simp] theorem isDirectory_eq (path : Path) :
    (Files.isDirectory path : Recording m Bool) = lift (Files.isDirectory path) := by
  simp only [Files.isDirectory, lift_bind]
  refine bind_congr fun kind => ?_
  split <;> simp

@[simp] theorem normalize_eq (path : Path) :
    (Files.normalize path : Recording m Path) = lift (Files.normalize path) := by
  simp only [Files.normalize, lift_bind]
  refine bind_congr fun canonical => ?_
  split <;> simp

@[simp] theorem absolute_eq (path : Path) :
    (Files.absolute path : Recording m Path) = lift (Files.absolute path) := by
  unfold Files.absolute
  split
  · simp
  · simp only [lift_bind]
    refine bind_congr fun directory => ?_
    split <;> simp

@[simp] theorem makeOne_eq (path : Path) :
    (Files.makeOne path : Recording m _) = lift (Files.makeOne path) := by
  simp only [Files.makeOne, lift_bind]
  refine bind_congr fun result => ?_
  split
  · simp
  · rw [isDirectory_eq, lift_bind]
    refine bind_congr fun directory => ?_
    split <;> simp

@[simp] theorem makeDirectories_eq (depth : Nat) (path : Path) :
    (Files.makeDirectories depth path : Recording m _) = lift (Files.makeDirectories depth path) := by
  induction depth generalizing path with
  | zero => simp [Files.makeDirectories]
  | succ depth ih =>
    simp only [Files.makeDirectories]
    split
    · simp
    · rw [lift_bind]
      refine bind_congr fun result => ?_
      split
      · simp
      · split
        · simp
        · rw [ih, lift_bind]
          refine bind_congr fun made => ?_
          split <;> simp
      · rw [isDirectory_eq, lift_bind]
        refine bind_congr fun directory => ?_
        split <;> simp

@[simp] theorem makeAllDirectories_eq (path : Path) :
    (Files.makeAllDirectories path : Task (Recording m) Unit) =
      liftExcept (Files.makeAllDirectories path) := by
  simp [Files.makeAllDirectories]

@[simp] theorem ensureDirectory_eq (path : Path) :
    (Files.ensureDirectory path : Task (Recording m) Unit) =
      liftExcept (Files.ensureDirectory path) := by
  simp only [Files.ensureDirectory, exist_eq, liftExcept_bind, liftExcept_liftM]
  refine bind_congr fun found => ?_
  split <;> simp

@[simp] theorem readText_eq (path : Path) :
    (Files.readText path : Task (Recording m) String) = liftExcept (Files.readText path) := by
  simp only [Files.readText, liftExcept_bind, ← at_lift]
  refine bind_congr fun contents => ?_
  split <;> simp

@[simp] theorem ensureParent_eq (path : Path) :
    (Files.ensureParent path : Task (Recording m) Unit) =
      liftExcept (Files.ensureParent path) := by
  unfold Files.ensureParent
  split <;> simp

@[simp] theorem writeText_eq (path : Path) (text : String) :
    (Files.writeText path text : Task (Recording m) Unit) =
      liftExcept (Files.writeText path text) := by
  simp only [Files.writeText, liftExcept_bind, ensureParent_eq, ← at_lift]
  rfl

@[simp] theorem removeIfPresent_eq (path : Path) :
    (Files.removeIfPresent path : Task (Recording m) Unit) =
      liftExcept (Files.removeIfPresent path) := by
  simp only [Files.removeIfPresent, liftExcept_bind, liftExcept_liftM]
  refine bind_congr fun kind => ?_
  split
  · simp
  · simp
  · exact at_lift path _
  · exact at_lift path _

@[simp] theorem copyDirectory_eq (target : Path) (depth : Nat) (directory relative : Path) :
    (Files.copyDirectory target depth directory relative : Task (Recording m) Unit) =
      liftExcept (Files.copyDirectory target depth directory relative) := by
  induction depth generalizing directory relative with
  | zero => exact (liftExcept_throw _).symm
  | succ depth ih =>
    simp only [Files.copyDirectory, makeAllDirectories_eq, liftExcept_bind, liftExcept_liftM]
    refine bind_congr fun _ => bind_congr fun items => ?_
    split
    · simp
    · refine liftExcept_forM _ fun item => ?_
      split
      · exact ih _ _
      · exact at_lift _ _

@[simp] theorem copyAll_eq (source target : Path) :
    (Files.copyAll source target : Task (Recording m) Unit) =
      liftExcept (Files.copyAll source target) := by
  simp only [Files.copyAll, isFile_eq, liftExcept_bind, liftExcept_liftM]
  refine bind_congr fun file => ?_
  split
  · exact at_lift _ _
  · rw [liftExcept_bind, liftExcept_liftM]
    refine bind_congr fun kind => ?_
    split
    · simp
    · simp
    · rw [liftExcept_bind, liftExcept_liftM]
      refine bind_congr fun kind => ?_
      split
      · simp
      · exact at_lift _ _

end Files

/-! ### Projects and status lines -/

section Projects

variable [LawfulMonad m] [Host m]

@[simp] theorem load_eq (bundle : Path) :
    (Project.load bundle : Task (Recording m) Project) = liftExcept (Project.load bundle) := by
  simp only [Project.load, readText_eq, liftExcept_bind]
  refine bind_congr fun text => ?_
  split <;> simp

@[simp] theorem save_eq (p : Project) (bundle : Path) :
    (p.save bundle : Task (Recording m) Path) = liftExcept (p.save bundle) := by
  simp only [Project.save, ensureDirectory_eq, writeText_eq, liftExcept_bind, liftExcept_pure]

@[simp] theorem clone_eq (source target : Path) :
    (Project.clone source target : Work (Recording m) Unit) =
      liftExcept (Project.clone source target) := by
  simp [Project.clone, ← liftExcept_bind]

@[simp] theorem registerSource_eq (digest : Digest) (bundle : Path) (target : String)
    (file : FileReference) (output : Path) :
    (Project.registerSource digest bundle target file output : Work (Recording m) _) =
      liftExcept (Project.registerSource digest bundle target file output) := by
  simp only [Project.registerSource, load_eq, toWork_liftExcept, within_liftExcept,
    liftExcept_bind]
  refine bind_congr fun project => ?_
  -- The first split opens the pair of result and project, the second one the result.
  split
  split
  · exact (liftExcept_throw _).symm
  · simp only [save_eq, toWork_liftExcept, within_liftExcept, liftExcept_bind, liftExcept_pure]

@[simp] theorem tell_eq (shell : Shell) (status : Status) (text : String) :
    (shell.tell status text : Recording m Unit) = lift (shell.tell status text) := by
  unfold Shell.tell
  split
  · rfl
  · simp

@[simp] theorem tellDuration_eq (shell : Shell) (status : Status) (started : Nat) :
    (shell.tellDuration status started : Recording m Unit) =
      lift (shell.tellDuration status started) := by
  simp only [Shell.tellDuration, lift_bind]
  refine bind_congr fun finished => ?_
  split <;> simp

@[simp] theorem flagsOf_eq (log : String) (unit : Path) :
    (Pipeline.flagsOf log unit : Task (Recording m) _) = liftExcept (Pipeline.flagsOf log unit) := by
  simp [Pipeline.flagsOf]

@[simp] theorem assumeNonnull_eq (header : Path) (umbrella : String) :
    (Preprocessor.assumeNonnull header umbrella : Task (Recording m) Unit) =
      liftExcept (Preprocessor.assumeNonnull header umbrella) := by
  simp [Preprocessor.assumeNonnull]

@[simp] theorem request_eq (header : Path) (flags : List String) :
    (Interface.request header flags : Recording m _) = lift (Interface.request header flags) := by
  simp only [Interface.request, lift_bind, lift_pure]
  rfl

@[simp] theorem removeQuietly_eq (path : Path) :
    (Temporaries.removeQuietly path : Recording m Unit) = lift (Temporaries.removeQuietly path) := by
  simp [Temporaries.removeQuietly, liftExcept]

@[simp] theorem cleanUp_eq (tracked : Temporaries) :
    (tracked.cleanUp : Recording m _) = lift tracked.cleanUp := by
  have hstep : (Temporaries.removeQuietly : Path → Recording m Unit) =
      fun path => lift (Temporaries.removeQuietly path) := funext removeQuietly_eq
  simp only [Temporaries.cleanUp, lift_bind, lift_pure, hstep, lift_forM]

end Projects

end Recording

end BridgingHeader
