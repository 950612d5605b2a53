import LocalRuntime.Executor.Basic
import LocalRuntime.Lib.Machine

/-!
# Running an executor

`Executor::run` as a sequence of steps, cut wherever another thread can be noticed and wherever code
that is not the executor's runs: a future is polled (`pollTask`, `pollFirst`, `pollMain`) or dropped
(`dropTask`, `dropSpawned`, `clearTasks`, `clearSpawned`, `dropMain`). What such code does is an
`Executor.Act`; how it ends is the action `ret`.

The guards of the two `RefCell`s are held as the source holds them. `poll_tasks` and `poll_spawned`
hold `tasks` to their end. In

`while let Some(spawned_task) = self.spawned.borrow_mut().pop() { .. }`

the guard of `spawned` is a temporary of the scrutinee and lives to the end of the body, so it is
held over the first poll of the task and over the drop of a task that is cancelled or has finished.
In `self.spawned.borrow_mut().clear()` it is held over every destructor.

Two machines are built from these steps. In `Single` there is at most one `run` future at a time; it
may be dropped between any two polls and a new one made. In `Overlapping` any number of `run`
futures live at the same time, and one may be polled from inside the main future of another; every
run of the first machine is one of the second (`Single.run_toOverlapping`).
-/

namespace LocalRuntime

variable {V : Type}

/-! ### One `run` future -/

/-- The local variables of `poll_tasks`: what is left of the two lengths read at its start, and
whether the main future has been seen. -/
structure Drain where
  localLen : ℕ
  conLen : ℕ
  mainTaskAwoken : Bool
  deriving DecidableEq

/-- Where a `run` future is. -/
inductive Pc where
  /-- Not polled yet. -/
  | created
  /-- The last poll returned pending, and it is not being polled. -/
  | pending
  /-- Completed. -/
  | done
  /-- In `WakeQueue::reset`, popping what other threads have pushed. -/
  | resetting
  /-- About to register the base waker. -/
  | register
  /-- About to borrow the tasks and to read the lengths of the two queues. -/
  | snapshot
  /-- About to pop the next id. -/
  | drain (d : Drain)
  /-- An id has been popped. -/
  | popped (id : ℕ) (d : Drain)
  /-- A task is being polled. -/
  | pollTask (key : ℕ) (d : Drain)
  /-- A task has returned ready and is about to be removed. -/
  | readyTask (key : ℕ) (d : Drain)
  /-- A removed task is being dropped. -/
  | dropTask (d : Drain)
  /-- About to look at whether the main future has been awoken. -/
  | mainCheck (awoken : Bool)
  /-- The main future is being polled. -/
  | pollMain
  /-- About to borrow the tasks for `poll_spawned`. -/
  | pollSpawned
  /-- About to pop the next spawned task. -/
  | nextSpawned
  /-- A spawned task has been popped. -/
  | poppedSpawned (task : SpawnedTask)
  /-- A spawned task is being polled for the first time. -/
  | pollFirst (task : SpawnedTask) (waker key : ℕ)
  /-- A spawned task is being dropped, cancelled or finished. -/
  | dropSpawned
  /-- The main future has returned ready. -/
  | completed
  /-- The tasks are being dropped, with so many to go. -/
  | clearTasks (left : ℕ)
  /-- The tasks have been dropped. -/
  | cleared
  /-- The spawned tasks are being dropped, with so many to go. -/
  | clearSpawned (left : ℕ)
  /-- The main future is being dropped. -/
  | dropMain
  deriving DecidableEq

namespace Pc

/-- Not being polled. -/
def isIdle : Pc → Bool
  | created | pending | done => true
  | _ => false

/-- Code that is not the executor's is running. -/
def isUser : Pc → Bool
  | pollTask _ _ | dropTask _ | pollMain | pollFirst _ _ _ | dropSpawned | dropMain => true
  | clearTasks left | clearSpawned left => 0 < left
  | _ => false

/-- The guard of `tasks` is held. -/
def holdsTasks : Pc → Bool
  | drain _ | popped _ _ | pollTask _ _ | readyTask _ _ | dropTask _ | nextSpawned | poppedSpawned _
  | pollFirst _ _ _ | dropSpawned | clearTasks _ => true
  | _ => false

/-- The guard of `spawned` is held. -/
def holdsSpawned : Pc → Bool
  | poppedSpawned _ | pollFirst _ _ _ | dropSpawned | clearSpawned _ => true
  | _ => false

end Pc

/-- A `run` future: where it is, the waker of its main future once it has been polled, and the waker
it was last polled with. -/
structure Run where
  pc : Pc
  mainWaker : ℕ
  cx : ℕ

/-- A `run` future that has not been polled. -/
def Run.new : Run := ⟨.created, 0, 0⟩

/-- A step of the executor itself, or the end of a call it has made: `ret none` is a future that
returns pending or a destructor that returns, `ret (some v)` a future that returns ready. The slab
offers a key for a task that is polled for the first time. -/
inductive RunAct (V : Type) where
  | tick
  | firstPoll (key : ℕ)
  | ret (out : Option V)

namespace Executor

/-- The executor panics. -/
def crash (ex : Executor V) (p : Panic) : Executor V := { ex with panic := some p }

/-- Make the waker of a task that is polled for the first time, and leave it with the handle. -/
def fromSpawned (ex : Executor V) (task : SpawnedTask) (key : ℕ) : Executor V :=
  { ex with
    wakers := ex.wakers ++ [.new key]
    handles := ex.handles.modify task.id fun data ↦
      { data with waker := some ex.wakers.length } }

/-- The start of a poll of a `run` future with the waker `cx`. The first poll makes the waker of the
main future and starts the reset. -/
def beginPoll (ex : Executor V) (r : Run) (cx : ℕ) : Option (Executor V × Run) :=
  match r.pc with
  | .created => some
    ({ ex with
        wakers := ex.wakers ++ [.new MAIN_TASK_ID]
        queue := ex.queue.resetLocal MAIN_TASK_ID },
      { pc := .resetting, mainWaker := ex.wakers.length, cx })
  | .pending => some (ex, { r with pc := .register, cx })
  | _ => none

/-- The step of the executor itself. -/
def tick (ex : Executor V) (r : Run) : Option (Executor V × Run) :=
  match r.pc with
  | .resetting =>
    match ex.queue.concurrent with
    | [] => some (ex, { r with pc := .register })
    | _ :: rest => some ({ ex with queue := { ex.queue with concurrent := rest } }, r)
  | .register =>
    some ({ ex with queue := { ex.queue with baseWaker := ex.queue.baseWaker.register r.cx } },
      { r with pc := .snapshot })
  | .snapshot =>
    if ex.tasksBorrowed then some (ex.crash .borrow, r)
    else some ({ ex with tasksBorrowed := true },
      { r with pc := .drain ⟨ex.queue.localIds.length, ex.queue.concurrent.length, false⟩ })
  | .drain ⟨n + 1, m, awoken⟩ =>
    match ex.queue.localIds with
    | [] => some (ex.crash .unwrap, r)
    | id :: rest => some ({ ex with queue := { ex.queue with localIds := rest } },
        { r with pc := .popped id ⟨n, m, awoken⟩ })
  | .drain ⟨0, m + 1, awoken⟩ =>
    match ex.queue.concurrent with
    | [] => some ({ ex with tasksBorrowed := false }, { r with pc := .mainCheck awoken })
    | id :: rest => some ({ ex with queue := { ex.queue with concurrent := rest } },
        { r with pc := .popped id ⟨0, m, awoken⟩ })
  | .drain ⟨0, 0, awoken⟩ =>
    some ({ ex with tasksBorrowed := false }, { r with pc := .mainCheck awoken })
  | .popped id d =>
    if id = MAIN_TASK_ID then some (ex, { r with pc := .drain { d with mainTaskAwoken := true } })
    else
      match ex.tasks.get id with
      | none => some (ex, { r with pc := .drain d })
      | some task =>
        if ex.isCancelled task.id then
          some ({ ex with tasks := ex.tasks.remove id }, { r with pc := .dropTask d })
        else some (ex.toSleep task.waker, { r with pc := .pollTask id d })
  | .readyTask key d =>
    some ({ ex with tasks := ex.tasks.remove key }, { r with pc := .dropTask d })
  | .mainCheck awoken =>
    if awoken then some (ex.toSleep r.mainWaker, { r with pc := .pollMain })
    else some (ex, { r with pc := .pollSpawned })
  | .pollSpawned =>
    if ex.tasksBorrowed then some (ex.crash .borrow, r)
    else some ({ ex with tasksBorrowed := true }, { r with pc := .nextSpawned })
  | .nextSpawned =>
    if ex.spawnedBorrowed then some (ex.crash .borrow, r)
    else
      match ex.spawned.getLast? with
      | none => some ({ ex with tasksBorrowed := false }, { r with pc := .pending })
      | some task =>
        some ({ ex with spawned := ex.spawned.dropLast, spawnedBorrowed := true },
          { r with pc := .poppedSpawned task })
  | .poppedSpawned task =>
    if ex.isCancelled task.id then some (ex, { r with pc := .dropSpawned }) else none
  | .completed =>
    if ex.tasksBorrowed then some (ex.crash .borrow, r)
    else some ({ ex with tasksBorrowed := true, tasks := .empty },
      { r with pc := .clearTasks ex.tasks.values.length })
  | .clearTasks 0 => some ({ ex with tasksBorrowed := false }, { r with pc := .cleared })
  | .cleared =>
    if ex.spawnedBorrowed then some (ex.crash .borrow, r)
    else some ({ ex with spawnedBorrowed := true, spawned := [] },
      { r with pc := .clearSpawned ex.spawned.length })
  | .clearSpawned 0 => some ({ ex with spawnedBorrowed := false }, { r with pc := .dropMain })
  | _ => none

/-- The first poll of a task that is not cancelled, with the key the slab offers. -/
def firstPoll (ex : Executor V) (r : Run) (key : ℕ) : Option (Executor V × Run) :=
  match r.pc with
  | .poppedSpawned task =>
    if ex.isCancelled task.id then none
    else if ex.tasks.IsVacant key then
      if key = MAIN_TASK_ID then some (ex.crash .mainTaskId, r)
      else some (ex.fromSpawned task key, { r with pc := .pollFirst task ex.wakers.length key })
    else none
  | _ => none

/-- The end of a call to code that is not the executor's. -/
def ret (ex : Executor V) (r : Run) : Option V → Option (Executor V × Run)
  | none =>
    match r.pc with
    | .pollTask _ d => some (ex, { r with pc := .drain d })
    | .dropTask d => some (ex, { r with pc := .drain d })
    | .pollMain => some (ex, { r with pc := .pollSpawned })
    | .pollFirst task w key =>
      some ({ ex with tasks := ex.tasks.insert key ⟨task.id, w⟩, spawnedBorrowed := false },
        { r with pc := .nextSpawned })
    | .dropSpawned => some ({ ex with spawnedBorrowed := false }, { r with pc := .nextSpawned })
    | .clearTasks (left + 1) => some (ex, { r with pc := .clearTasks left })
    | .clearSpawned (left + 1) => some (ex, { r with pc := .clearSpawned left })
    | .dropMain => some (ex, { r with pc := .done })
    | _ => none
  | some v =>
    match r.pc with
    | .pollTask key d =>
      (ex.tasks.get key).map fun task ↦ (ex.complete task.id v, { r with pc := .readyTask key d })
    | .pollMain => some (ex, { r with pc := .completed })
    | .pollFirst task _ _ => some (ex.complete task.id v, { r with pc := .dropSpawned })
    | _ => none

/-- A step of a `run` future that is being polled, if the thread is free to make it. -/
def runStep (ex : Executor V) (r : Run) (a : RunAct V) : Option (Executor V × Run) :=
  if ex.LocalFree then
    match a with
    | .tick => ex.tick r
    | .firstPoll key => ex.firstPoll r key
    | .ret out => ex.ret r out
  else none

/-! ### What a step can do -/

variable {ex : Executor V} {r : Run}

/-- A poll of a `run` future is its first one, or comes after one that returned pending. -/
theorem beginPoll_cases {cx : ℕ} {ex' : Executor V} {r' : Run}
    (h : ex.beginPoll r cx = some (ex', r')) :
    (r.pc = .created ∧
      ex' = { ex with
        wakers := ex.wakers ++ [.new MAIN_TASK_ID]
        queue := ex.queue.resetLocal MAIN_TASK_ID } ∧
      r' = { pc := .resetting, mainWaker := ex.wakers.length, cx }) ∨
    (r.pc = .pending ∧ ex' = ex ∧ r' = { r with pc := .register, cx }) := by
  simp only [beginPoll] at h
  split at h
  next hpc =>
    obtain ⟨rfl, rfl⟩ := Prod.mk.inj (Option.some.inj h)
    exact Or.inl ⟨hpc, rfl, rfl⟩
  next hpc =>
    obtain ⟨rfl, rfl⟩ := Prod.mk.inj (Option.some.inj h)
    exact Or.inr ⟨hpc, rfl, rfl⟩
  next => exact absurd h (by simp)

/-- Every step of a `run` future that is being polled, with its guards. -/
inductive Trans (ex : Executor V) (r : Run) : Executor V → Run → Prop where
  | resetPop {id : ℕ} {rest : List ℕ} (hpc : r.pc = .resetting)
      (hq : ex.queue.concurrent = id :: rest) :
      Trans ex r { ex with queue := { ex.queue with concurrent := rest } } r
  | resetDone (hpc : r.pc = .resetting) (hq : ex.queue.concurrent = []) :
      Trans ex r ex { r with pc := .register }
  | register (hpc : r.pc = .register) :
      Trans ex r
        { ex with queue := { ex.queue with baseWaker := ex.queue.baseWaker.register r.cx } }
        { r with pc := .snapshot }
  | snapshot (hpc : r.pc = .snapshot) (hb : ex.tasksBorrowed = false) :
      Trans ex r { ex with tasksBorrowed := true }
        { r with pc := .drain ⟨ex.queue.localIds.length, ex.queue.concurrent.length, false⟩ }
  | popLocal {n m : ℕ} {awoken : Bool} {id : ℕ} {rest : List ℕ}
      (hpc : r.pc = .drain ⟨n + 1, m, awoken⟩) (hq : ex.queue.localIds = id :: rest) :
      Trans ex r { ex with queue := { ex.queue with localIds := rest } }
        { r with pc := .popped id ⟨n, m, awoken⟩ }
  | popConcurrent {m : ℕ} {awoken : Bool} {id : ℕ} {rest : List ℕ}
      (hpc : r.pc = .drain ⟨0, m + 1, awoken⟩) (hq : ex.queue.concurrent = id :: rest) :
      Trans ex r { ex with queue := { ex.queue with concurrent := rest } }
        { r with pc := .popped id ⟨0, m, awoken⟩ }
  | drained {m : ℕ} {awoken : Bool} (hpc : r.pc = .drain ⟨0, m, awoken⟩)
      (hq : m = 0 ∨ ex.queue.concurrent = []) :
      Trans ex r { ex with tasksBorrowed := false } { r with pc := .mainCheck awoken }
  | poppedMain {d : Drain} (hpc : r.pc = .popped MAIN_TASK_ID d) :
      Trans ex r ex { r with pc := .drain { d with mainTaskAwoken := true } }
  | poppedGone {id : ℕ} {d : Drain} (hpc : r.pc = .popped id d) (hid : id ≠ MAIN_TASK_ID)
      (hget : ex.tasks.get id = none) : Trans ex r ex { r with pc := .drain d }
  | removeCancelled {id : ℕ} {d : Drain} {task : Task} (hpc : r.pc = .popped id d)
      (hid : id ≠ MAIN_TASK_ID) (hget : ex.tasks.get id = some task)
      (hcancelled : ex.isCancelled task.id = true) :
      Trans ex r { ex with tasks := ex.tasks.remove id } { r with pc := .dropTask d }
  | sleepTask {id : ℕ} {d : Drain} {task : Task} (hpc : r.pc = .popped id d)
      (hid : id ≠ MAIN_TASK_ID) (hget : ex.tasks.get id = some task)
      (hcancelled : ex.isCancelled task.id = false) :
      Trans ex r (ex.toSleep task.waker) { r with pc := .pollTask id d }
  | removeReady {key : ℕ} {d : Drain} (hpc : r.pc = .readyTask key d) :
      Trans ex r { ex with tasks := ex.tasks.remove key } { r with pc := .dropTask d }
  | sleepMain (hpc : r.pc = .mainCheck true) :
      Trans ex r (ex.toSleep r.mainWaker) { r with pc := .pollMain }
  | skipMain (hpc : r.pc = .mainCheck false) : Trans ex r ex { r with pc := .pollSpawned }
  | pollSpawned (hpc : r.pc = .pollSpawned) (hb : ex.tasksBorrowed = false) :
      Trans ex r { ex with tasksBorrowed := true } { r with pc := .nextSpawned }
  | popSpawned {task : SpawnedTask} (hpc : r.pc = .nextSpawned) (hb : ex.spawnedBorrowed = false)
      (hlast : ex.spawned.getLast? = some task) :
      Trans ex r { ex with spawned := ex.spawned.dropLast, spawnedBorrowed := true }
        { r with pc := .poppedSpawned task }
  | noSpawned (hpc : r.pc = .nextSpawned) (hb : ex.spawnedBorrowed = false)
      (hnil : ex.spawned = []) :
      Trans ex r { ex with tasksBorrowed := false } { r with pc := .pending }
  | cancelledSpawned {task : SpawnedTask} (hpc : r.pc = .poppedSpawned task)
      (hcancelled : ex.isCancelled task.id = true) : Trans ex r ex { r with pc := .dropSpawned }
  | firstPoll {task : SpawnedTask} {key : ℕ} (hpc : r.pc = .poppedSpawned task)
      (hvacant : ex.tasks.IsVacant key) (hkey : key ≠ MAIN_TASK_ID) :
      Trans ex r (ex.fromSpawned task key) { r with pc := .pollFirst task ex.wakers.length key }
  | clear (hpc : r.pc = .completed) (hb : ex.tasksBorrowed = false) :
      Trans ex r { ex with tasksBorrowed := true, tasks := .empty }
        { r with pc := .clearTasks ex.tasks.values.length }
  | clearedTasks (hpc : r.pc = .clearTasks 0) :
      Trans ex r { ex with tasksBorrowed := false } { r with pc := .cleared }
  | clearSpawned (hpc : r.pc = .cleared) (hb : ex.spawnedBorrowed = false) :
      Trans ex r { ex with spawnedBorrowed := true, spawned := [] }
        { r with pc := .clearSpawned ex.spawned.length }
  | clearedSpawned (hpc : r.pc = .clearSpawned 0) :
      Trans ex r { ex with spawnedBorrowed := false } { r with pc := .dropMain }
  | pendingTask {key : ℕ} {d : Drain} (hpc : r.pc = .pollTask key d) :
      Trans ex r ex { r with pc := .drain d }
  | droppedTask {d : Drain} (hpc : r.pc = .dropTask d) : Trans ex r ex { r with pc := .drain d }
  | pendingMain (hpc : r.pc = .pollMain) : Trans ex r ex { r with pc := .pollSpawned }
  | pendingFirst {task : SpawnedTask} {w key : ℕ} (hpc : r.pc = .pollFirst task w key) :
      Trans ex r { ex with tasks := ex.tasks.insert key ⟨task.id, w⟩, spawnedBorrowed := false }
        { r with pc := .nextSpawned }
  | droppedSpawned (hpc : r.pc = .dropSpawned) :
      Trans ex r { ex with spawnedBorrowed := false } { r with pc := .nextSpawned }
  | droppedClearTasks {left : ℕ} (hpc : r.pc = .clearTasks (left + 1)) :
      Trans ex r ex { r with pc := .clearTasks left }
  | droppedClearSpawned {left : ℕ} (hpc : r.pc = .clearSpawned (left + 1)) :
      Trans ex r ex { r with pc := .clearSpawned left }
  | droppedMain (hpc : r.pc = .dropMain) : Trans ex r ex { r with pc := .done }
  | readyTask {key : ℕ} {d : Drain} {task : Task} {v : V} (hpc : r.pc = .pollTask key d)
      (hget : ex.tasks.get key = some task) :
      Trans ex r (ex.complete task.id v) { r with pc := .readyTask key d }
  | readyMain (hpc : r.pc = .pollMain) : Trans ex r ex { r with pc := .completed }
  | readyFirst {task : SpawnedTask} {w key : ℕ} {v : V} (hpc : r.pc = .pollFirst task w key) :
      Trans ex r (ex.complete task.id v) { r with pc := .dropSpawned }
  | borrowTasks (hpc : r.pc = .snapshot ∨ r.pc = .pollSpawned ∨ r.pc = .completed)
      (hb : ex.tasksBorrowed = true) : Trans ex r (ex.crash .borrow) r
  | borrowSpawned (hpc : r.pc = .nextSpawned ∨ r.pc = .cleared) (hb : ex.spawnedBorrowed = true) :
      Trans ex r (ex.crash .borrow) r
  | unwrap {n m : ℕ} {awoken : Bool} (hpc : r.pc = .drain ⟨n + 1, m, awoken⟩)
      (hq : ex.queue.localIds = []) : Trans ex r (ex.crash .unwrap) r
  | mainTaskId {task : SpawnedTask} (hpc : r.pc = .poppedSpawned task) :
      Trans ex r (ex.crash .mainTaskId) r

theorem trans_of_tick {ex' : Executor V} {r' : Run} (h : ex.tick r = some (ex', r')) :
    Trans ex r ex' r' := by
  simp only [tick] at h
  split at h
  next hpc =>
    split at h
    next hq =>
      obtain ⟨rfl, rfl⟩ := Prod.mk.inj (Option.some.inj h)
      exact .resetDone hpc hq
    next hq =>
      obtain ⟨rfl, rfl⟩ := Prod.mk.inj (Option.some.inj h)
      exact .resetPop hpc hq
  next hpc =>
    obtain ⟨rfl, rfl⟩ := Prod.mk.inj (Option.some.inj h)
    exact .register hpc
  next hpc =>
    split at h
    next hb =>
      obtain ⟨rfl, rfl⟩ := Prod.mk.inj (Option.some.inj h)
      exact .borrowTasks (Or.inl hpc) hb
    next hb =>
      obtain ⟨rfl, rfl⟩ := Prod.mk.inj (Option.some.inj h)
      exact .snapshot hpc (Bool.eq_false_iff.2 hb)
  next hpc =>
    split at h
    next hq =>
      obtain ⟨rfl, rfl⟩ := Prod.mk.inj (Option.some.inj h)
      exact .unwrap hpc hq
    next hq =>
      obtain ⟨rfl, rfl⟩ := Prod.mk.inj (Option.some.inj h)
      exact .popLocal hpc hq
  next hpc =>
    split at h
    next hq =>
      obtain ⟨rfl, rfl⟩ := Prod.mk.inj (Option.some.inj h)
      exact .drained hpc (Or.inr hq)
    next hq =>
      obtain ⟨rfl, rfl⟩ := Prod.mk.inj (Option.some.inj h)
      exact .popConcurrent hpc hq
  next hpc =>
    obtain ⟨rfl, rfl⟩ := Prod.mk.inj (Option.some.inj h)
    exact .drained hpc (Or.inl rfl)
  next id d hpc =>
    split at h
    next hid =>
      obtain ⟨rfl, rfl⟩ := Prod.mk.inj (Option.some.inj h)
      exact .poppedMain (hid ▸ hpc)
    next hid =>
      split at h
      next hget =>
        obtain ⟨rfl, rfl⟩ := Prod.mk.inj (Option.some.inj h)
        exact .poppedGone hpc hid hget
      next hget =>
        split at h
        next hcancelled =>
          obtain ⟨rfl, rfl⟩ := Prod.mk.inj (Option.some.inj h)
          exact .removeCancelled hpc hid hget hcancelled
        next hcancelled =>
          obtain ⟨rfl, rfl⟩ := Prod.mk.inj (Option.some.inj h)
          exact .sleepTask hpc hid hget (Bool.eq_false_iff.2 hcancelled)
  next hpc =>
    obtain ⟨rfl, rfl⟩ := Prod.mk.inj (Option.some.inj h)
    exact .removeReady hpc
  next awoken hpc =>
    split at h
    next hawoken =>
      obtain ⟨rfl, rfl⟩ := Prod.mk.inj (Option.some.inj h)
      exact .sleepMain (hawoken ▸ hpc)
    next hawoken =>
      obtain ⟨rfl, rfl⟩ := Prod.mk.inj (Option.some.inj h)
      exact .skipMain (Bool.eq_false_iff.2 hawoken ▸ hpc)
  next hpc =>
    split at h
    next hb =>
      obtain ⟨rfl, rfl⟩ := Prod.mk.inj (Option.some.inj h)
      exact .borrowTasks (Or.inr (Or.inl hpc)) hb
    next hb =>
      obtain ⟨rfl, rfl⟩ := Prod.mk.inj (Option.some.inj h)
      exact .pollSpawned hpc (Bool.eq_false_iff.2 hb)
  next hpc =>
    split at h
    next hb =>
      obtain ⟨rfl, rfl⟩ := Prod.mk.inj (Option.some.inj h)
      exact .borrowSpawned (Or.inl hpc) hb
    next hb =>
      split at h
      next hlast =>
        obtain ⟨rfl, rfl⟩ := Prod.mk.inj (Option.some.inj h)
        exact .noSpawned hpc (Bool.eq_false_iff.2 hb) (List.getLast?_eq_none_iff.1 hlast)
      next hlast =>
        obtain ⟨rfl, rfl⟩ := Prod.mk.inj (Option.some.inj h)
        exact .popSpawned hpc (Bool.eq_false_iff.2 hb) hlast
  next hpc =>
    split at h
    next hcancelled =>
      obtain ⟨rfl, rfl⟩ := Prod.mk.inj (Option.some.inj h)
      exact .cancelledSpawned hpc hcancelled
    next => exact absurd h (by simp)
  next hpc =>
    split at h
    next hb =>
      obtain ⟨rfl, rfl⟩ := Prod.mk.inj (Option.some.inj h)
      exact .borrowTasks (Or.inr (Or.inr hpc)) hb
    next hb =>
      obtain ⟨rfl, rfl⟩ := Prod.mk.inj (Option.some.inj h)
      exact .clear hpc (Bool.eq_false_iff.2 hb)
  next hpc =>
    obtain ⟨rfl, rfl⟩ := Prod.mk.inj (Option.some.inj h)
    exact .clearedTasks hpc
  next hpc =>
    split at h
    next hb =>
      obtain ⟨rfl, rfl⟩ := Prod.mk.inj (Option.some.inj h)
      exact .borrowSpawned (Or.inr hpc) hb
    next hb =>
      obtain ⟨rfl, rfl⟩ := Prod.mk.inj (Option.some.inj h)
      exact .clearSpawned hpc (Bool.eq_false_iff.2 hb)
  next hpc =>
    obtain ⟨rfl, rfl⟩ := Prod.mk.inj (Option.some.inj h)
    exact .clearedSpawned hpc
  next => exact absurd h (by simp)

theorem trans_of_firstPoll {ex' : Executor V} {r' : Run} {key : ℕ}
    (h : ex.firstPoll r key = some (ex', r')) : Trans ex r ex' r' := by
  simp only [firstPoll] at h
  split at h
  next hpc =>
    split at h
    next => exact absurd h (by simp)
    next =>
      split at h
      next hvacant =>
        split at h
        next =>
          obtain ⟨rfl, rfl⟩ := Prod.mk.inj (Option.some.inj h)
          exact .mainTaskId hpc
        next hkey =>
          obtain ⟨rfl, rfl⟩ := Prod.mk.inj (Option.some.inj h)
          exact .firstPoll hpc hvacant hkey
      next => exact absurd h (by simp)
  next => exact absurd h (by simp)

theorem trans_of_ret {ex' : Executor V} {r' : Run} {out : Option V}
    (h : ex.ret r out = some (ex', r')) : Trans ex r ex' r' := by
  rcases out with - | v
  · simp only [ret] at h
    split at h
    next hpc =>
      obtain ⟨rfl, rfl⟩ := Prod.mk.inj (Option.some.inj h)
      exact .pendingTask hpc
    next hpc =>
      obtain ⟨rfl, rfl⟩ := Prod.mk.inj (Option.some.inj h)
      exact .droppedTask hpc
    next hpc =>
      obtain ⟨rfl, rfl⟩ := Prod.mk.inj (Option.some.inj h)
      exact .pendingMain hpc
    next hpc =>
      obtain ⟨rfl, rfl⟩ := Prod.mk.inj (Option.some.inj h)
      exact .pendingFirst hpc
    next hpc =>
      obtain ⟨rfl, rfl⟩ := Prod.mk.inj (Option.some.inj h)
      exact .droppedSpawned hpc
    next hpc =>
      obtain ⟨rfl, rfl⟩ := Prod.mk.inj (Option.some.inj h)
      exact .droppedClearTasks hpc
    next hpc =>
      obtain ⟨rfl, rfl⟩ := Prod.mk.inj (Option.some.inj h)
      exact .droppedClearSpawned hpc
    next hpc =>
      obtain ⟨rfl, rfl⟩ := Prod.mk.inj (Option.some.inj h)
      exact .droppedMain hpc
    next => exact absurd h (by simp)
  · simp only [ret] at h
    split at h
    next hpc =>
      obtain ⟨task, hget, heq⟩ := Option.map_eq_some_iff.1 h
      obtain ⟨rfl, rfl⟩ := Prod.mk.inj heq
      exact .readyTask hpc hget
    next hpc =>
      obtain ⟨rfl, rfl⟩ := Prod.mk.inj (Option.some.inj h)
      exact .readyMain hpc
    next hpc =>
      obtain ⟨rfl, rfl⟩ := Prod.mk.inj (Option.some.inj h)
      exact .readyFirst hpc
    next => exact absurd h (by simp)

/-- **The steps of a `run` future are those of `Trans`.** -/
theorem trans_of_runStep {a : RunAct V} {ex' : Executor V} {r' : Run}
    (h : ex.runStep r a = some (ex', r')) : Trans ex r ex' r' := by
  simp only [runStep] at h
  split at h
  · rcases a with - | key | out
    · exact trans_of_tick h
    · exact trans_of_firstPoll h
    · exact trans_of_ret h
  · exact absurd h (by simp)

end Executor

/-! ### One `run` future at a time -/

/-- An executor with the `run` future that is alive, if there is one. -/
structure Single (V : Type) where
  ex : Executor V
  run : Option Run

namespace Single

/-- A step of the thread of the executor, of its environment or of another thread. -/
inductive Act (V : Type) where
  | newRun
  | dropRun
  /-- Poll the `run` future with a waker. -/
  | poll (cx : ℕ)
  | run (a : RunAct V)
  | ex (a : Executor.Act)

/-- A new executor. -/
def init : Single V := ⟨.new, none⟩

/-- Code that is not the executor's can run: the `run` future is not being polled, or has called
such code. -/
def inUser (s : Single V) : Bool := s.run.all fun r ↦ r.pc.isIdle || r.pc.isUser

/-- The step of an action. -/
def step (s : Single V) : Act V → Option (Single V)
  | .newRun =>
    if s.ex.LocalFree ∧ s.run.isNone then some { s with run := some .new } else none
  | .dropRun =>
    s.run.bind fun r ↦
      if s.ex.LocalFree ∧ r.pc.isIdle then some { s with run := none } else none
  | .poll cx =>
    s.run.bind fun r ↦
      if s.ex.LocalFree then (s.ex.beginPoll r cx).map fun res ↦ ⟨res.1, some res.2⟩ else none
  | .run a => s.run.bind fun r ↦ (s.ex.runStep r a).map fun res ↦ ⟨res.1, some res.2⟩
  | .ex a =>
    if a.isLocal = true → s.ex.LocalFree ∧ s.inUser then
      (s.ex.act a).map fun ex ↦ { s with ex }
    else none

/-- The machine of an executor with one `run` future at a time. -/
def machine (V : Type) : Machine (Single V) (Act V) := ⟨step⟩

/-- Every step of the machine. -/
inductive Step (s : Single V) : Act V → Single V → Prop where
  | newRun (hnone : s.run = none) : Step s .newRun { s with run := some .new }
  | dropRun {r : Run} (hrun : s.run = some r) (hidle : r.pc.isIdle = true) :
      Step s .dropRun { s with run := none }
  | firstPoll {r : Run} {cx : ℕ} (hrun : s.run = some r) (hpc : r.pc = .created) :
      Step s (.poll cx)
        ⟨{ s.ex with
            wakers := s.ex.wakers ++ [.new MAIN_TASK_ID]
            queue := s.ex.queue.resetLocal MAIN_TASK_ID },
          some { pc := .resetting, mainWaker := s.ex.wakers.length, cx }⟩
  | poll {r : Run} {cx : ℕ} (hrun : s.run = some r) (hpc : r.pc = .pending) :
      Step s (.poll cx) ⟨s.ex, some { r with pc := .register, cx }⟩
  | run {a : RunAct V} {r r' : Run} {ex' : Executor V} (hrun : s.run = some r)
      (htrans : s.ex.Trans r ex' r') : Step s (.run a) ⟨ex', some r'⟩
  | ex {a : Executor.Act} {ex' : Executor V} (hact : s.ex.act a = some ex')
      (hlocal : a.isLocal = true → s.ex.LocalFree ∧ s.inUser) : Step s (.ex a) { s with ex := ex' }

theorem step_cases {s t : Single V} {a : Act V} (h : s.step a = some t) : Step s a t := by
  rcases a with - | - | cx | a | a
  · simp only [step, Option.ite_none_right_eq_some, Option.some.injEq] at h
    obtain ⟨⟨-, hnone⟩, rfl⟩ := h
    exact .newRun (Option.isNone_iff_eq_none.1 hnone)
  · obtain ⟨r, hrun, h⟩ := Option.bind_eq_some_iff.1 h
    simp only [Option.ite_none_right_eq_some, Option.some.injEq] at h
    obtain ⟨⟨-, hidle⟩, rfl⟩ := h
    exact .dropRun hrun hidle
  · obtain ⟨r, hrun, h⟩ := Option.bind_eq_some_iff.1 h
    simp only [Option.ite_none_right_eq_some, Option.map_eq_some_iff] at h
    obtain ⟨-, ⟨ex', r'⟩, hbegin, rfl⟩ := h
    obtain ⟨hpc, rfl, rfl⟩ | ⟨hpc, rfl, rfl⟩ := Executor.beginPoll_cases hbegin
    · exact .firstPoll hrun hpc
    · exact .poll hrun hpc
  · obtain ⟨r, hrun, h⟩ := Option.bind_eq_some_iff.1 h
    obtain ⟨⟨ex', r'⟩, hres, rfl⟩ := Option.map_eq_some_iff.1 h
    exact .run hrun (Executor.trans_of_runStep hres)
  · simp only [step, Option.ite_none_right_eq_some, Option.map_eq_some_iff] at h
    obtain ⟨hlocal, ex', hact, rfl⟩ := h
    exact .ex hact hlocal

theorem runStep_of_step {s : Single V} {r r' : Run} {ex' : Executor V} {a : RunAct V}
    (h : s.step (.run a) = some ⟨ex', some r'⟩) (hrun : s.run = some r) :
    s.ex.runStep r a = some (ex', r') := by
  rw [step, hrun, Option.bind_some] at h
  obtain ⟨⟨ex₁, r₁⟩, hstep, heq⟩ := Option.map_eq_some_iff.1 h
  obtain ⟨rfl, hr⟩ := Single.mk.inj heq
  obtain rfl := Option.some.inj hr
  exact hstep

end Single

/-! ### Overlapping `run` futures -/

/-- An executor with any number of `run` futures: those that are not being polled, and those that
are, innermost first. -/
structure Overlapping (V : Type) where
  ex : Executor V
  idle : List Run
  stack : List Run

namespace Overlapping

/-- A step of the thread of the executor, of its environment or of another thread. -/
inductive Act (V : Type) where
  | newRun
  | dropRun (i : ℕ)
  /-- Poll one of the idle `run` futures with a waker. -/
  | poll (i cx : ℕ)
  | run (a : RunAct V)
  | ex (a : Executor.Act)

/-- A new executor. -/
def init : Overlapping V := ⟨.new, [], []⟩

/-- Code that is not the executor's can run. -/
def inUser (s : Overlapping V) : Bool := s.stack.head?.all fun r ↦ r.pc.isUser

/-- A `run` future can be polled: not from inside a spawned task, which is documented to panic, but
from outside and from a main future. -/
def canPoll (s : Overlapping V) : Bool :=
  s.stack.head?.all fun r ↦ r.pc == .pollMain || r.pc == .dropMain

/-- The innermost `run` future after its step: still being polled, or done with this poll. -/
def settle (ex : Executor V) (idle stack : List Run) (r : Run) : Overlapping V :=
  if r.pc.isIdle then ⟨ex, idle ++ [r], stack⟩ else ⟨ex, idle, r :: stack⟩

theorem ex_settle (ex : Executor V) (idle stack : List Run) (r : Run) :
    (settle ex idle stack r).ex = ex := by
  rw [settle]
  split
  · rfl
  · rfl

/-- The step of an action. -/
def step (s : Overlapping V) : Act V → Option (Overlapping V)
  | .newRun => if s.ex.LocalFree ∧ s.inUser then some { s with idle := s.idle ++ [.new] } else none
  | .dropRun i =>
    if s.ex.LocalFree ∧ s.inUser then some { s with idle := s.idle.eraseIdx i } else none
  | .poll i cx =>
    s.idle[i]?.bind fun r ↦
      if s.ex.LocalFree ∧ s.canPoll then
        (s.ex.beginPoll r cx).map fun res ↦ ⟨res.1, s.idle.eraseIdx i, res.2 :: s.stack⟩
      else none
  | .run a =>
    match s.stack with
    | [] => none
    | r :: rest => (s.ex.runStep r a).map fun res ↦ settle res.1 s.idle rest res.2
  | .ex a =>
    if a.isLocal = true → s.ex.LocalFree ∧ s.inUser then
      (s.ex.act a).map fun ex ↦ { s with ex }
    else none

/-- The machine of an executor with overlapping `run` futures. -/
def machine (V : Type) : Machine (Overlapping V) (Act V) := ⟨step⟩

/-- Every step of the machine. -/
inductive Step (s : Overlapping V) : Act V → Overlapping V → Prop where
  | newRun : Step s .newRun { s with idle := s.idle ++ [.new] }
  | dropRun {i : ℕ} : Step s (.dropRun i) { s with idle := s.idle.eraseIdx i }
  | poll {i cx : ℕ} {r r' : Run} {ex' : Executor V} (hr : s.idle[i]? = some r)
      (hcan : s.canPoll = true) (hbegin : s.ex.beginPoll r cx = some (ex', r')) :
      Step s (.poll i cx) ⟨ex', s.idle.eraseIdx i, r' :: s.stack⟩
  | run {a : RunAct V} {r r' : Run} {rest : List Run} {ex' : Executor V}
      (hstack : s.stack = r :: rest)
      (hstep : s.ex.runStep r a = some (ex', r')) : Step s (.run a) (settle ex' s.idle rest r')
  | ex {a : Executor.Act} {ex' : Executor V} (hact : s.ex.act a = some ex')
      (hlocal : a.isLocal = true → s.ex.LocalFree ∧ s.inUser = true) :
      Step s (.ex a) { s with ex := ex' }

theorem step_cases {s t : Overlapping V} {a : Act V} (h : s.step a = some t) : Step s a t := by
  rcases a with - | i | ⟨i, cx⟩ | a | a
  · simp only [step, Option.ite_none_right_eq_some, Option.some.injEq] at h
    obtain ⟨-, rfl⟩ := h
    exact .newRun
  · simp only [step, Option.ite_none_right_eq_some, Option.some.injEq] at h
    obtain ⟨-, rfl⟩ := h
    exact .dropRun
  · obtain ⟨r, hr, h⟩ := Option.bind_eq_some_iff.1 h
    simp only [Option.ite_none_right_eq_some, Option.map_eq_some_iff] at h
    obtain ⟨⟨-, hcan⟩, ⟨ex', r'⟩, hbegin, rfl⟩ := h
    exact .poll hr hcan hbegin
  · simp only [step] at h
    split at h
    · exact absurd h (by simp)
    next r rest hstack =>
      obtain ⟨⟨ex', r'⟩, hstep, rfl⟩ := Option.map_eq_some_iff.1 h
      exact .run hstack hstep
  · simp only [step, Option.ite_none_right_eq_some, Option.map_eq_some_iff] at h
    obtain ⟨hlocal, ex', hact, rfl⟩ := h
    exact .ex hact hlocal

/-- Where a `run` future can be polled, every one that is being polled is in its main future. -/
theorem forall_mem_stack_of_canPoll {s : Overlapping V} {P : Run → Prop} (hcan : s.canPoll = true)
    (hmain : ∀ r : Run, r.pc = .pollMain ∨ r.pc = .dropMain → P r)
    (htail : ∀ r ∈ s.stack.tail, P r) : ∀ r ∈ s.stack, P r := by
  intro r hr
  rw [canPoll] at hcan
  rcases hstack : s.stack with - | ⟨r₀, rest⟩
  · rw [hstack] at hr
    exact absurd hr List.not_mem_nil
  · rw [hstack] at hr hcan htail
    rcases List.mem_cons.1 hr with rfl | hr
    · refine hmain r ?_
      simpa using hcan
    · exact htail r hr

end Overlapping

/-! ### One at a time, among the overlapping ones -/

/-- A `run` future that is not being polled takes no step. -/
theorem Executor.Trans.not_isIdle {ex ex' : Executor V} {r r' : Run} (ht : ex.Trans r ex' r') :
    r.pc.isIdle = false := by
  cases ht
  case borrowTasks hpc _ => obtain hpc | hpc | hpc := hpc <;> rw [hpc] <;> rfl
  case borrowSpawned hpc _ => obtain hpc | hpc := hpc <;> rw [hpc] <;> rfl
  all_goals
    rw [‹r.pc = _›]
    rfl

theorem Executor.Trans.ne_created {ex ex' : Executor V} {r r' : Run} (ht : ex.Trans r ex' r') :
    r.pc ≠ .created := by
  intro hpc
  have hidle := ht.not_isIdle
  rw [hpc] at hidle
  cases hidle

/-- A `run` future keeps its main future. -/
theorem Executor.Trans.mainWaker_eq {ex ex' : Executor V} {r r' : Run} (ht : ex.Trans r ex' r') :
    r'.mainWaker = r.mainWaker := by
  cases ht <;> rfl

namespace Single

/-- The same executor, with room for more `run` futures. -/
def toOverlapping (s : Single V) : Overlapping V :=
  match s.run with
  | none => ⟨s.ex, [], []⟩
  | some r => Overlapping.settle s.ex [] [] r

theorem ex_toOverlapping (s : Single V) : s.toOverlapping.ex = s.ex := by
  rw [toOverlapping]
  split
  · rfl
  · rw [Overlapping.settle]
    split
    · rfl
    · rfl

theorem toOverlapping_setEx (s : Single V) (ex : Executor V) :
    { s with ex }.toOverlapping = { s.toOverlapping with ex } := by
  rcases hrun : s.run with - | r
  · simp only [toOverlapping, hrun]
  · simp only [toOverlapping, hrun, Overlapping.settle]
    split
    · rfl
    · rfl

theorem inUser_toOverlapping {s : Single V} (h : s.inUser = true) :
    s.toOverlapping.inUser = true := by
  rw [inUser] at h
  rcases hrun : s.run with - | r
  · simp [toOverlapping, hrun, Overlapping.inUser]
  · rw [hrun, Option.all_some, Bool.or_eq_true] at h
    by_cases hidle : r.pc.isIdle = true
    · simp [toOverlapping, hrun, Overlapping.settle, Overlapping.inUser, hidle]
    · simpa [toOverlapping, hrun, Overlapping.settle, Overlapping.inUser, hidle] using h

/-- **A step of one `run` future at a time is a step of overlapping ones.** -/
theorem step_toOverlapping {s t : Single V} {a : Act V} (hs : s.step a = some t) :
    ∃ b, s.toOverlapping.step b = some t.toOverlapping := by
  rcases a with - | - | cx | a | a
  · simp only [step, Option.ite_none_right_eq_some, Option.some.injEq] at hs
    obtain ⟨⟨hfree, hnone⟩, rfl⟩ := hs
    refine ⟨.newRun, ?_⟩
    rw [Option.isNone_iff_eq_none] at hnone
    simp [toOverlapping, hnone, Overlapping.step, Overlapping.inUser, Overlapping.settle, Run.new,
      Pc.isIdle, hfree]
  · obtain ⟨r, hrun, hs⟩ := Option.bind_eq_some_iff.1 hs
    simp only [Option.ite_none_right_eq_some, Option.some.injEq] at hs
    obtain ⟨⟨hfree, hidle⟩, rfl⟩ := hs
    refine ⟨.dropRun 0, ?_⟩
    simp [toOverlapping, hrun, Overlapping.step, Overlapping.inUser, Overlapping.settle,
      hidle, hfree]
  · obtain ⟨r, hrun, hs⟩ := Option.bind_eq_some_iff.1 hs
    simp only [Option.ite_none_right_eq_some, Option.map_eq_some_iff] at hs
    obtain ⟨hfree, ⟨ex', r'⟩, hbegin, rfl⟩ := hs
    refine ⟨.poll 0 cx, ?_⟩
    have hidle : r.pc.isIdle = true ∧ r'.pc.isIdle = false := by
      obtain ⟨hpc, -, rfl⟩ | ⟨hpc, -, rfl⟩ := Executor.beginPoll_cases hbegin
      · exact ⟨by rw [hpc]; rfl, rfl⟩
      · exact ⟨by rw [hpc]; rfl, rfl⟩
    simp [toOverlapping, hrun, Overlapping.step, Overlapping.canPoll, Overlapping.settle, hidle,
      hfree, hbegin]
  · obtain ⟨r, hrun, hs⟩ := Option.bind_eq_some_iff.1 hs
    obtain ⟨⟨ex', r'⟩, hstep, rfl⟩ := Option.map_eq_some_iff.1 hs
    have hidle := (Executor.trans_of_runStep hstep).not_isIdle
    refine ⟨.run a, ?_⟩
    simp [toOverlapping, hrun, Overlapping.step, Overlapping.settle, hidle, hstep]
  · simp only [step, Option.ite_none_right_eq_some, Option.map_eq_some_iff] at hs
    obtain ⟨hlocal, ex', hact, rfl⟩ := hs
    refine ⟨.ex a, ?_⟩
    have hcond : a.isLocal = true →
        s.toOverlapping.ex.LocalFree ∧ s.toOverlapping.inUser = true := by
      intro ha
      rw [ex_toOverlapping]
      exact (hlocal ha).imp_right inUser_toOverlapping
    rw [Overlapping.step, if_pos hcond, ex_toOverlapping, hact, Option.map_some]
    exact congrArg some (toOverlapping_setEx s ex').symm

/-- **So is a whole run.** -/
theorem run_toOverlapping {as : List (Act V)} {s t : Single V}
    (hrun : (machine V).run s as = some t) :
    ∃ bs, (Overlapping.machine V).run s.toOverlapping bs = some t.toOverlapping := by
  induction as generalizing s with
  | nil => exact ⟨[], congrArg (Option.map toOverlapping) hrun⟩
  | cons a as ih =>
    obtain ⟨u, hu, hrun⟩ := (machine V).run_cons_eq_some.1 hrun
    obtain ⟨b, hb⟩ := step_toOverlapping (show s.step a = some u from hu)
    obtain ⟨bs, hbs⟩ := ih hrun
    exact ⟨b :: bs, (Overlapping.machine V).run_cons_eq_some.2 ⟨_, hb, hbs⟩⟩

end Single

end LocalRuntime
