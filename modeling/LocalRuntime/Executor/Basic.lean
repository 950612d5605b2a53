import LocalRuntime.Basic
import LocalRuntime.Lib.AtomicWaker
import LocalRuntime.Lib.Slab

/-!
# The executor

The data of `Executor` in `src/lib.rs` — the slab of tasks, the newly spawned tasks, the wake queue,
the wakers and the two cells behind each task handle — with the operations that code outside the
executor performs on it: `spawn`, `cancel`, polling a handle, and waking a task.

Futures are opaque: what they do when they are polled or dropped is up to the caller of these
operations. A task is known by its number, which is also the number of its two cells; a `TaskWaker`
is known by its place in the list of all wakers ever made, so the waker of a task that is gone is
still there to be woken.

`TaskWaker::wake` is three atomic steps, and a call that has made the first but not the last is a
`Flight`: it has won the compare-exchange on `awoken` and will push its task id, or it has pushed
and will wake the base waker. A thread that makes such a call does nothing else until it is done,
which for the thread of the executor is `LocalFree`.

The concurrent half of the wake queue stands for the crate `concurrent-queue` by its documented
specification: an unbounded queue, whose `push` and `pop` are atomic and in order. It is the list
`WakeQueue.concurrent`.

The two `RefCell`s are modelled by whether they are mutably borrowed. Borrowing one that is already
borrowed panics, and after a panic the thread of the executor does not move again.
-/

namespace LocalRuntime

variable {V : Type}

/-! ### Wakers -/

/-- The id in the wake queue that stands for the main future. -/
def MAIN_TASK_ID : ℕ := USIZE_MAX

/-- The flag of a task and the id to push when it is woken. -/
structure TaskWaker where
  taskId : ℕ
  awoken : Bool

/-- A waker that is not awoken. -/
def TaskWaker.new (taskId : ℕ) : TaskWaker := ⟨taskId, false⟩

/-- A `Waker` in the hands of a future: of this executor, or of something else. -/
inductive WakerRef where
  | task (waker : ℕ)
  | other (waker : ℕ)

/-- What is left to do of a call of `TaskWaker::wake`. -/
inductive Phase where
  | push
  | base
  deriving DecidableEq

/-- A call of `TaskWaker::wake` that has won the compare-exchange. -/
structure Flight where
  waker : ℕ
  phase : Phase
  onLocal : Bool

/-- The queue of awoken tasks, in two parts: pushed by the thread of the executor, and by others. -/
structure WakeQueue where
  baseWaker : AtomicWaker ℕ
  localIds : List ℕ
  concurrent : List ℕ

namespace WakeQueue

/-- The empty queue. -/
def new : WakeQueue := ⟨.new, [], []⟩

/-- Push an id, on the side of the thread that pushes it. -/
def push (q : WakeQueue) (val : ℕ) (onLocal : Bool) : WakeQueue :=
  if onLocal then { q with localIds := q.localIds ++ [val] }
  else { q with concurrent := q.concurrent ++ [val] }

/-- The first half of `reset`; the other half pops what is in `concurrent`, one by one. -/
def resetLocal (q : WakeQueue) (initVal : ℕ) : WakeQueue := { q with localIds := [initVal] }

/-- An id is in one of the two queues. -/
def Has (q : WakeQueue) (id : ℕ) : Prop := id ∈ q.localIds ∨ id ∈ q.concurrent

theorem Has.push {q : WakeQueue} {id : ℕ} (h : q.Has id) (val : ℕ) (onLocal : Bool) :
    (q.push val onLocal).Has id := by
  rw [WakeQueue.push]
  split
  · exact h.imp_left (List.mem_append_left _)
  · exact h.imp_right (List.mem_append_left _)

theorem has_push (q : WakeQueue) (val : ℕ) (onLocal : Bool) : (q.push val onLocal).Has val := by
  rw [WakeQueue.push]
  split
  · exact Or.inl (List.mem_append_right _ (List.mem_singleton_self val))
  · exact Or.inr (List.mem_append_right _ (List.mem_singleton_self val))

@[simp] theorem baseWaker_push (q : WakeQueue) (val : ℕ) (onLocal : Bool) :
    (q.push val onLocal).baseWaker = q.baseWaker := by
  rw [push]
  split
  · rfl
  · rfl

end WakeQueue

/-! ### Tasks and their handles -/

/-- The cell that a handle shares with the executor. The waker is there once the task has been
polled for the first time. -/
structure HandleData where
  cancelled : Bool := false
  waker : Option ℕ := none

/-- The cell that a handle shares with the future of its task. -/
structure RetData (V : Type) where
  value : Option V := none
  waker : Option WakerRef := none

/-- A task that has not been polled yet. -/
structure SpawnedTask where
  id : ℕ
  deriving DecidableEq

/-- A task that has been polled and is pending, with its waker. -/
structure Task where
  id : ℕ
  waker : ℕ

/-- The ways the thread of the executor can panic. -/
inductive Panic where
  /-- A `RefCell` is already borrowed. -/
  | borrow
  /-- An `unwrap` on nothing. -/
  | unwrap
  /-- The slab offers the key of the main future. -/
  | mainTaskId
  deriving DecidableEq

/-- The executor, its handles and the calls of `TaskWaker::wake` in flight. -/
structure Executor (V : Type) where
  tasks : Slab Task
  tasksBorrowed : Bool
  spawned : List SpawnedTask
  spawnedBorrowed : Bool
  queue : WakeQueue
  wakers : List TaskWaker
  handles : List HandleData
  rets : List (RetData V)
  flights : List Flight
  panic : Option Panic

namespace Executor

/-- `Executor::new`. -/
def new : Executor V where
  tasks := .empty
  tasksBorrowed := false
  spawned := []
  spawnedBorrowed := false
  queue := .new
  wakers := []
  handles := []
  rets := []
  flights := []
  panic := none

/-- The thread of the executor is free to make its next step: it has not panicked and is not in the
middle of waking a task. -/
def LocalFree (ex : Executor V) : Prop := ex.panic = none ∧ ∀ f ∈ ex.flights, f.onLocal = false

instance (ex : Executor V) : Decidable ex.LocalFree :=
  inferInstanceAs (Decidable (ex.panic = none ∧ ∀ f ∈ ex.flights, f.onLocal = false))

/-- The task has been cancelled through its handle. -/
def isCancelled (ex : Executor V) (id : ℕ) : Bool :=
  (ex.handles[id]?.map HandleData.cancelled).getD false

/-- Store into the flag of a waker. -/
def setAwoken (ex : Executor V) (w : ℕ) (b : Bool) : Executor V :=
  { ex with wakers := ex.wakers.modify w fun tw ↦ { tw with awoken := b } }

/-- `TaskWaker::to_sleep`. -/
def toSleep (ex : Executor V) (w : ℕ) : Executor V := ex.setAwoken w false

/-- The first step of `TaskWaker::wake`. The call goes on only if the flag was clear. -/
def wake (ex : Executor V) (w : ℕ) (onLocal : Bool) : Executor V :=
  match ex.wakers[w]? with
  | some ⟨_, false⟩ => { ex.setAwoken w true with flights := ex.flights ++ [⟨w, .push, onLocal⟩] }
  | _ => ex

/-- The second step of `TaskWaker::wake`, for the call at place `i`. -/
def push (ex : Executor V) (i : ℕ) : Option (Executor V) :=
  match ex.flights[i]? with
  | some ⟨w, .push, onLocal⟩ =>
    ex.wakers[w]?.map fun tw ↦ { ex with
      queue := ex.queue.push tw.taskId onLocal
      flights := ex.flights.set i ⟨w, .base, onLocal⟩ }
  | _ => none

/-- The last step of `TaskWaker::wake`, for the call at place `i`. -/
def fire (ex : Executor V) (i : ℕ) : Option (Executor V) :=
  match ex.flights[i]? with
  | some ⟨_, .base, _⟩ => some { ex with
      queue := { ex.queue with baseWaker := ex.queue.baseWaker.wake }
      flights := ex.flights.eraseIdx i }
  | _ => none

/-- A waker that is not of this executor is woken. It may be the one that polls it. -/
def hear (ex : Executor V) (b : ℕ) : Executor V :=
  { ex with queue := { ex.queue with baseWaker := ex.queue.baseWaker.hear b } }

/-- Wake through a `Waker`, from the thread of the executor. -/
def wakeRef (ex : Executor V) : WakerRef → Executor V
  | .task w => ex.wake w true
  | .other b => ex.hear b

/-- `Executor::spawn`. The guard is dropped on return, so only a guard that is held elsewhere makes
it panic. -/
def spawn (ex : Executor V) : Executor V :=
  if ex.spawnedBorrowed then { ex with panic := some .borrow }
  else { ex with
    spawned := ex.spawned ++ [⟨ex.handles.length⟩]
    handles := ex.handles ++ [{}]
    rets := ex.rets ++ [{}] }

/-- `TaskHandle::cancel`. -/
def cancel (ex : Executor V) (h : ℕ) : Executor V :=
  let ex' := { ex with handles := ex.handles.modify h fun _ ↦ ⟨true, none⟩ }
  match ex.handles[h]?.bind HandleData.waker with
  | some w => ex'.wake w true
  | none => ex'

/-- `TaskHandle::poll`: take the value if there is one, or leave a waker for it. -/
def pollHandle (ex : Executor V) (h : ℕ) (waker : WakerRef) : Poll V × Executor V :=
  match ex.rets[h]?.bind RetData.value with
  | some v => (.ready v, { ex with rets := ex.rets.modify h fun ret ↦ { ret with value := none } })
  | none =>
    (.pending, { ex with rets := ex.rets.modify h fun ret ↦ { ret with waker := some waker } })

/-- The end of the future of a task: set its value and wake whoever waits for it. -/
def complete (ex : Executor V) (id : ℕ) (v : V) : Executor V :=
  let ex' := { ex with rets := ex.rets.modify id fun _ ↦ ⟨some v, none⟩ }
  match ex.rets[id]?.bind RetData.waker with
  | some waker => ex'.wakeRef waker
  | none => ex'

/-! ### What is done to the executor from outside -/

/-- An action of code that is not the executor's. -/
inductive Act where
  | spawn
  | cancel (h : ℕ)
  | pollHandle (h : ℕ) (waker : WakerRef)
  | wake (w : ℕ) (onLocal : Bool)
  | push (i : ℕ)
  | fire (i : ℕ)
  | hear (b : ℕ)

/-- The actions that only the thread of the executor makes, where it runs code that is not the
executor's. -/
def Act.isLocal : Act → Bool
  | .spawn | .cancel _ | .pollHandle _ _ => true
  | .wake _ onLocal => onLocal
  | .push _ | .fire _ | .hear _ => false

/-- The effect of an action. -/
def act (ex : Executor V) : Act → Option (Executor V)
  | .spawn => some ex.spawn
  | .cancel h => some (ex.cancel h)
  | .pollHandle h waker => some (ex.pollHandle h waker).2
  | .wake w onLocal => some (ex.wake w onLocal)
  | .push i => ex.push i
  | .fire i => ex.fire i
  | .hear b => some (ex.hear b)

/-! ### What an operation leaves alone -/

variable {ex : Executor V}

theorem exists_wake_eq (ex : Executor V) (w : ℕ) (onLocal : Bool) :
    ∃ wakers flights, ex.wake w onLocal = { ex with wakers, flights } := by
  rw [wake]
  split
  · exact ⟨_, _, rfl⟩
  · exact ⟨ex.wakers, ex.flights, rfl⟩

theorem exists_cancel_eq (ex : Executor V) (h : ℕ) :
    ∃ wakers flights, ex.cancel h = { ex with
      handles := ex.handles.modify h fun _ ↦ ⟨true, none⟩
      wakers
      flights } := by
  simp only [cancel]
  split
  next w _ =>
    obtain ⟨wakers, flights, hw⟩ := exists_wake_eq
      { ex with handles := ex.handles.modify h fun _ ↦ ⟨true, none⟩ } w true
    exact ⟨wakers, flights, hw⟩
  · exact ⟨ex.wakers, ex.flights, rfl⟩

theorem exists_pollHandle_eq (ex : Executor V) (h : ℕ) (waker : WakerRef) :
    ∃ rets, (ex.pollHandle h waker).2 = { ex with rets } := by
  simp only [pollHandle]
  split
  · exact ⟨_, rfl⟩
  · exact ⟨_, rfl⟩

theorem exists_complete_eq (ex : Executor V) (id : ℕ) (v : V) :
    ∃ rets wakers flights baseWaker, ex.complete id v =
      { ex with rets, wakers, flights, queue := { ex.queue with baseWaker } } := by
  simp only [complete]
  split
  next waker _ =>
    rcases waker with w | b
    · obtain ⟨wakers, flights, hw⟩ := exists_wake_eq
        { ex with rets := ex.rets.modify id fun _ ↦ ⟨some v, none⟩ } w true
      exact ⟨_, wakers, flights, ex.queue.baseWaker, hw⟩
    · exact ⟨_, ex.wakers, ex.flights, ex.queue.baseWaker.hear b, rfl⟩
  · exact ⟨_, ex.wakers, ex.flights, ex.queue.baseWaker, rfl⟩

theorem push_eq_some {i : ℕ} {ex' : Executor V} (h : ex.push i = some ex') :
    ∃ w onLocal tw, ex.flights[i]? = some ⟨w, .push, onLocal⟩ ∧ ex.wakers[w]? = some tw ∧
      ex' = { ex with
        queue := ex.queue.push tw.taskId onLocal
        flights := ex.flights.set i ⟨w, .base, onLocal⟩ } := by
  simp only [push] at h
  split at h
  next w onLocal hi =>
    obtain ⟨tw, htw, rfl⟩ := Option.map_eq_some_iff.1 h
    exact ⟨w, onLocal, tw, hi, htw, rfl⟩
  next => exact absurd h (by simp)

theorem fire_eq_some {i : ℕ} {ex' : Executor V} (h : ex.fire i = some ex') :
    ∃ w onLocal, ex.flights[i]? = some ⟨w, .base, onLocal⟩ ∧
      ex' = { ex with
        queue := { ex.queue with baseWaker := ex.queue.baseWaker.wake }
        flights := ex.flights.eraseIdx i } := by
  simp only [fire] at h
  split at h
  next w onLocal hi => exact ⟨w, onLocal, hi, (Option.some.inj h).symm⟩
  next => exact absurd h (by simp)

/-- **`spawn`, exactly**: it panics if the guard of `spawned` is held, and appends the task if
not. -/
theorem spawn_of_borrowed (h : ex.spawnedBorrowed = true) :
    ex.spawn = { ex with panic := some .borrow } := by
  rw [spawn, if_pos h]

theorem spawn_of_not_borrowed (h : ex.spawnedBorrowed = false) :
    ex.spawn = { ex with
      spawned := ex.spawned ++ [⟨ex.handles.length⟩]
      handles := ex.handles ++ [{}]
      rets := ex.rets ++ [{}] } := by
  rw [spawn, if_neg (by simp [h])]

theorem isCancelled_cancel (ex : Executor V) (h id : ℕ)
    (hid : (ex.cancel h).isCancelled id = false) : ex.isCancelled id = false := by
  obtain ⟨_, _, hc⟩ := exists_cancel_eq ex h
  rw [hc] at hid
  simp only [isCancelled, List.getElem?_modify] at hid ⊢
  rcases hget : ex.handles[id]? with - | data
  · rfl
  · by_cases heq : h = id
    · exact absurd hid (by simp [hget, heq])
    · simpa [hget, heq] using hid

/-- **The frame of an action**: whatever is done from outside, `spawn` apart, leaves the tasks, what
is spawned, the guards and the panic alone, and takes no cancel back. -/
theorem frame_of_act {a : Act} {ex' : Executor V} (h : ex.act a = some ex') (ha : a ≠ .spawn) :
    ∃ queue wakers handles rets flights, ex' = { ex with queue, wakers, handles, rets, flights } ∧
      ∀ id, ex'.isCancelled id = false → ex.isCancelled id = false := by
  rcases a with - | hd | ⟨hd, waker⟩ | ⟨w, onLocal⟩ | i | i | b
  · exact absurd rfl ha
  · obtain rfl := Option.some.inj h
    obtain ⟨wakers, flights, hc⟩ := exists_cancel_eq ex hd
    exact ⟨_, wakers, _, _, flights, hc, isCancelled_cancel ex hd⟩
  · obtain rfl := Option.some.inj h
    obtain ⟨rets, hp⟩ := exists_pollHandle_eq ex hd waker
    rw [hp]
    exact ⟨_, _, _, rets, _, rfl, fun _ hc ↦ hc⟩
  · obtain rfl := Option.some.inj h
    obtain ⟨wakers, flights, hw⟩ := exists_wake_eq ex w onLocal
    rw [hw]
    exact ⟨_, wakers, _, _, flights, rfl, fun _ hc ↦ hc⟩
  · obtain ⟨_, _, _, -, -, rfl⟩ := push_eq_some h
    exact ⟨_, _, _, _, _, rfl, fun _ hc ↦ hc⟩
  · obtain ⟨_, _, -, rfl⟩ := fire_eq_some h
    exact ⟨_, _, _, _, _, rfl, fun _ hc ↦ hc⟩
  · obtain rfl := Option.some.inj h
    exact ⟨_, _, _, _, _, rfl, fun _ hc ↦ hc⟩

/-- Whatever is done from outside takes and drops no guard that lasts. -/
theorem borrowed_of_act {a : Act} {ex' : Executor V} (h : ex.act a = some ex') :
    ex'.tasksBorrowed = ex.tasksBorrowed ∧ ex'.spawnedBorrowed = ex.spawnedBorrowed := by
  by_cases ha : a = .spawn
  · rw [ha] at h
    obtain rfl := Option.some.inj h
    rw [spawn]
    split
    · exact ⟨rfl, rfl⟩
    · exact ⟨rfl, rfl⟩
  · obtain ⟨_, _, _, _, _, rfl, -⟩ := frame_of_act h ha
    exact ⟨rfl, rfl⟩

/-- Nothing but `spawn` panics. -/
theorem panic_of_act {a : Act} {ex' : Executor V} (h : ex.act a = some ex') (ha : a ≠ .spawn) :
    ex'.panic = ex.panic := by
  obtain ⟨_, _, _, _, _, rfl, -⟩ := frame_of_act h ha
  rfl

/-- Nothing but `spawn` adds a spawned task, and a task that is cancelled stays so. -/
theorem spawned_of_act {a : Act} {ex' : Executor V} (h : ex.act a = some ex') (ha : a ≠ .spawn) :
    ex'.spawned = ex.spawned ∧
      ∀ id, ex'.isCancelled id = false → ex.isCancelled id = false := by
  obtain ⟨_, _, _, _, _, rfl, hc⟩ := frame_of_act h ha
  exact ⟨rfl, hc⟩

/-- What can happen to the tasks, the wakers and the wake queue between two steps of the executor:
one step of `TaskWaker::wake`, or a waker of somebody else. -/
inductive Touch (ex ex' : Executor V) : Prop where
  | same (htasks : ex'.tasks = ex.tasks) (hwakers : ex'.wakers = ex.wakers)
      (hflights : ex'.flights = ex.flights) (hqueue : ex'.queue = ex.queue)
  | claim {w id : ℕ} {onLocal : Bool} (hw : ex.wakers[w]? = some ⟨id, false⟩)
      (htasks : ex'.tasks = ex.tasks) (hwakers : ex'.wakers = (ex.setAwoken w true).wakers)
      (hflights : ex'.flights = ex.flights ++ [⟨w, .push, onLocal⟩])
      (hqueue : ex'.queue = ex.queue)
  | push {i w : ℕ} {onLocal : Bool} {tw : TaskWaker}
      (hi : ex.flights[i]? = some ⟨w, .push, onLocal⟩)
      (hw : ex.wakers[w]? = some tw) (htasks : ex'.tasks = ex.tasks)
      (hwakers : ex'.wakers = ex.wakers)
      (hflights : ex'.flights = ex.flights.set i ⟨w, .base, onLocal⟩)
      (hqueue : ex'.queue = ex.queue.push tw.taskId onLocal)
  | fire {i w : ℕ} {onLocal : Bool} (hi : ex.flights[i]? = some ⟨w, .base, onLocal⟩)
      (htasks : ex'.tasks = ex.tasks) (hwakers : ex'.wakers = ex.wakers)
      (hflights : ex'.flights = ex.flights.eraseIdx i)
      (hqueue : ex'.queue = { ex.queue with baseWaker := ex.queue.baseWaker.wake })
  | hear {b : ℕ} (htasks : ex'.tasks = ex.tasks) (hwakers : ex'.wakers = ex.wakers)
      (hflights : ex'.flights = ex.flights)
      (hqueue : ex'.queue = { ex.queue with baseWaker := ex.queue.baseWaker.hear b })

theorem Touch.tasks_eq {ex' : Executor V} (h : Touch ex ex') : ex'.tasks = ex.tasks := by
  cases h <;> assumption

/-- Ids are only added to the queue. -/
theorem Touch.mem_localIds {ex' : Executor V} {id : ℕ} (h : Touch ex ex')
    (hid : id ∈ ex.queue.localIds) : id ∈ ex'.queue.localIds := by
  cases h
  case push hqueue =>
    rw [hqueue, WakeQueue.push]
    split
    · exact List.mem_append_left _ hid
    · exact hid
  all_goals simpa only [‹ex'.queue = _›] using hid

/-- Nobody else registers a base waker. -/
theorem Touch.registered_eq {ex' : Executor V} (h : Touch ex ex') :
    ex'.queue.baseWaker.registered = ex.queue.baseWaker.registered := by
  cases h
  all_goals simp only [‹ex'.queue = _›, WakeQueue.baseWaker_push, AtomicWaker.registered_wake,
    AtomicWaker.registered_hear]

/-- What has been woken stays woken. -/
theorem Touch.woken {ex' : Executor V} (h : Touch ex ex') (hw : ex.queue.baseWaker.Woken) :
    ex'.queue.baseWaker.Woken := by
  cases h
  case same hqueue | claim hqueue => exact hqueue ▸ hw
  case push hqueue =>
    rw [hqueue, WakeQueue.baseWaker_push]
    exact hw
  case fire hqueue =>
    rw [hqueue]
    exact hw.wake
  case hear hqueue =>
    rw [hqueue]
    exact hw.hear _

theorem touch_wake (ex : Executor V) (w : ℕ) (onLocal : Bool) : Touch ex (ex.wake w onLocal) := by
  rw [wake]
  split
  next hw => exact .claim hw rfl rfl rfl rfl
  next => exact .same rfl rfl rfl rfl

theorem touch_cancel (ex : Executor V) (h : ℕ) : Touch ex (ex.cancel h) := by
  simp only [cancel]
  split
  next w _ =>
    -- the handle is not among what is watched here
    rw [wake]
    split
    next hw => exact .claim hw rfl rfl rfl rfl
    next => exact .same rfl rfl rfl rfl
  next => exact .same rfl rfl rfl rfl

theorem touch_complete (ex : Executor V) (id : ℕ) (v : V) : Touch ex (ex.complete id v) := by
  simp only [complete]
  split
  next waker _ =>
    rcases waker with w | b
    · rw [wakeRef, wake]
      split
      next hw => exact .claim hw rfl rfl rfl rfl
      next => exact .same rfl rfl rfl rfl
    · exact .hear rfl rfl rfl rfl
  next => exact .same rfl rfl rfl rfl

theorem touch_of_act {a : Act} {ex' : Executor V} (h : ex.act a = some ex') : Touch ex ex' := by
  rcases a with - | hd | ⟨hd, waker⟩ | ⟨w, onLocal⟩ | i | i | b
  · obtain rfl := Option.some.inj h
    rw [spawn]
    split
    · exact .same rfl rfl rfl rfl
    · exact .same rfl rfl rfl rfl
  · obtain rfl := Option.some.inj h
    exact touch_cancel ex hd
  · obtain ⟨_, hp⟩ := exists_pollHandle_eq ex hd waker
    obtain rfl := Option.some.inj h
    rw [hp]
    exact .same rfl rfl rfl rfl
  · obtain rfl := Option.some.inj h
    exact touch_wake ex w onLocal
  · obtain ⟨_, _, _, hi, hw, rfl⟩ := push_eq_some h
    exact .push hi hw rfl rfl rfl rfl
  · obtain ⟨_, _, hi, rfl⟩ := fire_eq_some h
    exact .fire hi rfl rfl rfl rfl
  · obtain rfl := Option.some.inj h
    exact .hear rfl rfl rfl rfl

end Executor

end LocalRuntime
