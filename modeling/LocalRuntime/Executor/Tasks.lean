import LocalRuntime.Executor.LifeCycle
import LocalRuntime.Executor.Run

/-!
# The tasks of the executor

The executor keeps a task in `spawned`, in the slab, or in its hands between the two, and each task
in one place only (`Placed`). Where a task is and where `run` is say where the task is in its life
(`Roster.life`), and every step of the executor does to the life of every task what the events of
the step say (`life_of_taskStep`), so the histories of the tasks are those of `Life`.

`TaskStep` says once what a step can do to the tasks; the invariants of this and of later modules
are derived from it.
-/

namespace LocalRuntime

variable {V : Type}

/-! ### Where the tasks are -/

/-- A place where the executor keeps a task. -/
inductive Place where
  | spawned (i : ℕ)
  /-- Popped from `spawned`, and not in the slab yet. -/
  | inHand
  | slab (key : ℕ)

/-- Where a task was before the last of `n` in `spawned` came into the hands of the executor. -/
def Place.beforePop (n : ℕ) : Place → Place
  | .inHand => .spawned (n - 1)
  | p => p

/-- Where a task was before the one in the hands of the executor went into the slab. -/
def Place.beforeInsert (key : ℕ) : Place → Place
  | .slab k => if k = key then .inHand else .slab k
  | p => p

theorem Place.beforeInsert_inj {key : ℕ} {p q : Place} (hp : p ≠ .inHand) (hq : q ≠ .inHand)
    (h : p.beforeInsert key = q.beforeInsert key) : p = q := by
  cases p <;> cases q
  case spawned.spawned => exact h
  case spawned.slab k | slab.spawned k =>
    simp only [beforeInsert] at h
    split at h <;> cases h
  case slab.slab j k =>
    rw [beforeInsert, beforeInsert] at h
    split at h
    next hj =>
      split at h
      next hk => rw [hj, hk]
      next => cases h
    next =>
      split at h
      next => cases h
      next => exact h
  all_goals first | exact absurd rfl hp | exact absurd rfl hq

/-- The task that has been popped from `spawned`. -/
def Pc.inHand : Pc → Option ℕ
  | .poppedSpawned task | .pollFirst task _ _ => some task.id
  | _ => none

/-- The executor is not busy with a single task. -/
def Pc.isCalm : Pc → Bool
  | .poppedSpawned _ | .pollFirst _ _ _ | .pollTask _ _ | .readyTask _ _ => false
  | _ => true

/-- What the executor has of its tasks and their handles. -/
structure Roster (V : Type) where
  spawned : List SpawnedTask
  tasks : Slab Task
  handles : List HandleData
  rets : List (RetData V)

/-- The tasks of an executor. -/
def Executor.roster (ex : Executor V) : Roster V := ⟨ex.spawned, ex.tasks, ex.handles, ex.rets⟩

namespace Roster

variable {b b' : Roster V} {pc pc' : Pc} {id : ℕ}

/-- The task has been cancelled through its handle. -/
def isCancelled (b : Roster V) (id : ℕ) : Bool :=
  (b.handles[id]?.map HandleData.cancelled).getD false

/-- The task in a place. -/
def taskAt (b : Roster V) (pc : Pc) : Place → Option ℕ
  | .spawned i => b.spawned[i]?.map SpawnedTask.id
  | .inHand => pc.inHand
  | .slab key => (b.tasks.get key).map Task.id

/-- The task whose future is being polled. -/
def polling (b : Roster V) : Pc → Option ℕ
  | .pollTask key _ => (b.tasks.get key).map Task.id
  | .pollFirst task _ _ => some task.id
  | _ => none

/-- The task whose future has returned ready and that is still in the slab. -/
def finished (b : Roster V) : Pc → Option ℕ
  | .readyTask key _ => (b.tasks.get key).map Task.id
  | _ => none

/-- The task is in the slab. -/
def InSlab (b : Roster V) (id : ℕ) : Prop := ∃ task ∈ b.tasks.values, task.id = id

instance (b : Roster V) (id : ℕ) : Decidable (b.InSlab id) :=
  inferInstanceAs (Decidable (∃ task ∈ b.tasks.values, task.id = id))

/-- Where a task is in its life. -/
def stage (b : Roster V) (pc : Pc) (id : ℕ) : Stage :=
  if b.handles.length ≤ id then .unborn
  else if ⟨id⟩ ∈ b.spawned ∨ pc = .poppedSpawned ⟨id⟩ then .waiting
  else if b.polling pc = some id then .polling
  else if b.finished pc = some id then .finished
  else if b.InSlab id then .idle
  else .dropped

/-- The life of a task. -/
def life (b : Roster V) (pc : Pc) (id : ℕ) : Life V where
  stage := b.stage pc id
  cancelled := b.isCancelled id
  value := b.rets[id]?.bind RetData.value
  waker := b.rets[id]?.bind RetData.waker

/-- Every task is in one place and has its cells, and the executor holds what it polls. -/
structure Placed (b : Roster V) (pc : Pc) : Prop where
  apart : ∀ p q id, b.taskAt pc p = some id → b.taskAt pc q = some id → p = q
  lt : ∀ p id, b.taskAt pc p = some id → id < b.handles.length
  rets_length : b.rets.length = b.handles.length
  held : ∀ key d, pc = .pollTask key d ∨ pc = .readyTask key d → ∃ task, b.tasks.get key = some task
  vacant : ∀ task w key, pc = .pollFirst task w key → b.tasks.IsVacant key

theorem mem_spawned_iff : ⟨id⟩ ∈ b.spawned ↔ ∃ i, b.taskAt pc (.spawned i) = some id := by
  simp only [taskAt, List.mem_iff_getElem?, Option.map_eq_some_iff]
  constructor
  · rintro ⟨i, hi⟩
    exact ⟨i, _, hi, rfl⟩
  · rintro ⟨i, ⟨_⟩, hi, rfl⟩
    exact ⟨i, hi⟩

theorem inSlab_iff : b.InSlab id ↔ ∃ key task, b.tasks.get key = some task ∧ task.id = id := by
  simp only [InSlab, Slab.mem_values]
  constructor
  · rintro ⟨task, ⟨key, hget⟩, hid⟩
    exact ⟨key, task, hget, hid⟩
  · rintro ⟨key, task, hget, hid⟩
    exact ⟨task, ⟨key, hget⟩, hid⟩

theorem taskAt_slab {key : ℕ} {task : Task} (hget : b.tasks.get key = some task) :
    b.taskAt pc (.slab key) = some task.id := by
  rw [taskAt, hget, Option.map_some]

namespace Placed

variable (hp : Placed b pc)
include hp

/-- A task of the slab is nowhere else. -/
theorem of_slab {key : ℕ} {task : Task} (hget : b.tasks.get key = some task) :
    task.id < b.handles.length ∧ ⟨task.id⟩ ∉ b.spawned ∧ pc.inHand ≠ some task.id ∧
      ∀ key' task', b.tasks.get key' = some task' → task'.id = task.id → key' = key := by
  have hat : b.taskAt pc (.slab key) = some task.id := taskAt_slab hget
  refine ⟨hp.lt _ _ hat, fun hmem ↦ ?_, fun hhand ↦ ?_, fun key' task' hget' hid ↦ ?_⟩
  · obtain ⟨i, hi⟩ := mem_spawned_iff.1 hmem
    exact absurd (hp.apart _ _ _ hi hat) (by simp)
  · exact absurd (hp.apart .inHand _ _ hhand hat) (by simp)
  · exact Place.slab.inj (hp.apart _ _ _ (hid ▸ taskAt_slab hget') hat)

/-- A task in the hands of the executor is nowhere else. -/
theorem of_inHand (hhand : pc.inHand = some id) :
    id < b.handles.length ∧ ⟨id⟩ ∉ b.spawned ∧ ¬ b.InSlab id := by
  refine ⟨hp.lt .inHand _ hhand, fun hmem ↦ ?_, fun hslab ↦ ?_⟩
  · obtain ⟨i, hi⟩ := mem_spawned_iff.1 hmem
    exact absurd (hp.apart .inHand _ _ hhand hi) (by simp)
  · obtain ⟨key, task, hget, rfl⟩ := inSlab_iff.1 hslab
    exact absurd (hp.apart .inHand _ _ hhand (taskAt_slab hget)) (by simp)

end Placed

/-! ### What a step does to the tasks -/

/-- A new task. -/
def spawn (b : Roster V) : Roster V :=
  { b with
    spawned := b.spawned ++ [⟨b.handles.length⟩]
    handles := b.handles ++ [{}]
    rets := b.rets ++ [{}] }

/-- Events of one task. -/
def only (id₀ : ℕ) (es : List (TaskEvent V)) (id : ℕ) : List (TaskEvent V) :=
  if id = id₀ then es else []

@[simp] theorem mem_only {id₀ : ℕ} {es : List (TaskEvent V)} {e : TaskEvent V} :
    e ∈ only id₀ es id ↔ id = id₀ ∧ e ∈ es := by
  rw [only]
  split
  next h => simp [h]
  next h => simp [h]

/-- Everything a step can do to the tasks and their handles, with its events for each task. -/
inductive TaskStep (b : Roster V) (pc : Pc) :
    Roster V → Pc → (ℕ → List (TaskEvent V)) → Prop where
  | stay : TaskStep b pc b pc fun _ ↦ []
  | calm {pc' : Pc} (hpc : pc.isCalm = true) (hpc' : pc'.isCalm = true) :
      TaskStep b pc b pc' fun _ ↦ []
  | spawn : TaskStep b pc b.spawn pc (only b.handles.length [.spawned])
  | pop {task : SpawnedTask} (hpc : pc.isCalm = true) (hlast : b.spawned.getLast? = some task) :
      TaskStep b pc { b with spawned := b.spawned.dropLast } (.poppedSpawned task) fun _ ↦ []
  | skip {task : SpawnedTask} {pc' : Pc} (hpc : pc = .poppedSpawned task) (hpc' : pc'.isCalm = true)
      (hcancelled : b.isCancelled task.id = true) : TaskStep b pc b pc' (only task.id [.dropped])
  | first {task : SpawnedTask} {w key : ℕ} (hpc : pc = .poppedSpawned task)
      (hcancelled : b.isCancelled task.id = false) (hvacant : b.tasks.IsVacant key) :
      TaskStep b pc
        { b with handles := b.handles.modify task.id fun data ↦ { data with waker := some w } }
        (.pollFirst task w key) (only task.id [.polled])
  | pendFirst {task : SpawnedTask} {w key : ℕ} {pc' : Pc} (hpc : pc = .pollFirst task w key)
      (hpc' : pc'.isCalm = true) :
      TaskStep b pc { b with tasks := b.tasks.insert key ⟨task.id, w⟩ } pc' (only task.id [.pended])
  | readyFirst {task : SpawnedTask} {w key : ℕ} {v : V} {pc' : Pc}
      (hpc : pc = .pollFirst task w key) (hpc' : pc'.isCalm = true) :
      TaskStep b pc { b with rets := b.rets.modify task.id fun _ ↦ ⟨some v, none⟩ } pc'
        (only task.id [.completed v, .dropped])
  | poll {key : ℕ} {d : Drain} {task : Task} (hpc : pc.isCalm = true)
      (hget : b.tasks.get key = some task) (hcancelled : b.isCancelled task.id = false) :
      TaskStep b pc b (.pollTask key d) (only task.id [.polled])
  | pend {key : ℕ} {d : Drain} {task : Task} {pc' : Pc} (hpc : pc = .pollTask key d)
      (hget : b.tasks.get key = some task) (hpc' : pc'.isCalm = true) :
      TaskStep b pc b pc' (only task.id [.pended])
  | ready {key : ℕ} {d : Drain} {task : Task} {v : V} (hpc : pc = .pollTask key d)
      (hget : b.tasks.get key = some task) :
      TaskStep b pc
        { b with rets := b.rets.modify task.id fun _ ↦ ⟨some v, none⟩ } (.readyTask key d)
        (only task.id [.completed v])
  | remove {key : ℕ} {task : Task} {pc' : Pc} (hget : b.tasks.get key = some task)
      (hwhy : pc.isCalm = true ∧ b.isCancelled task.id = true ∨ ∃ d, pc = .readyTask key d)
      (hpc' : pc'.isCalm = true) :
      TaskStep b pc { b with tasks := b.tasks.remove key } pc' (only task.id [.dropped])
  | clear {pc' : Pc} (hpc : pc.isCalm = true) (hpc' : pc'.isCalm = true) :
      TaskStep b pc { b with tasks := .empty } pc' fun id ↦ if b.InSlab id then [.cleared] else []
  | clearSpawned {pc' : Pc} (hpc : pc.isCalm = true) (hpc' : pc'.isCalm = true) :
      TaskStep b pc { b with spawned := [] } pc' fun id ↦
        if ⟨id⟩ ∈ b.spawned then [.cleared] else []
  | cancel {h : ℕ} (hlt : h < b.handles.length) :
      TaskStep b pc { b with handles := b.handles.modify h fun _ ↦ ⟨true, none⟩ } pc
        (only h [.cancelled (decide (b.polling pc = some h))])
  | take {h : ℕ} {waker : WakerRef} {v : V} (hv : b.rets[h]?.bind RetData.value = some v) :
      TaskStep b pc { b with rets := b.rets.modify h fun ret ↦ { ret with value := none } } pc
        (only h [.awaited waker (.ready v)])
  | await {h : ℕ} {waker : WakerRef} (hlt : h < b.handles.length)
      (hv : b.rets[h]?.bind RetData.value = none) :
      TaskStep b pc { b with rets := b.rets.modify h fun ret ↦ { ret with waker := some waker } } pc
        (only h [.awaited waker .pending])

/-! ### Every task stays in one place -/

section Place

variable {ev : ℕ → List (TaskEvent V)}

theorem polling_of_isCalm (h : pc.isCalm = true) : b.polling pc = none := by
  cases pc <;> first | rfl | exact absurd h (by simp [Pc.isCalm])

theorem finished_of_isCalm (h : pc.isCalm = true) : b.finished pc = none := by
  cases pc <;> first | rfl | exact absurd h (by simp [Pc.isCalm])

theorem inHand_of_isCalm (h : pc.isCalm = true) : pc.inHand = none := by
  cases pc <;> first | rfl | exact absurd h (by simp [Pc.isCalm])

theorem ne_poppedSpawned_of_isCalm (h : pc.isCalm = true) (task : SpawnedTask) :
    pc ≠ .poppedSpawned task := by
  rintro rfl
  exact absurd h (by simp [Pc.isCalm])

/-- The tasks move along `f`, no two of them to one place. -/
theorem Placed.move (hp : Placed b pc) (f : Place → Place)
    (hat : ∀ p id, b'.taskAt pc' p = some id → b.taskAt pc (f p) = some id)
    (hinj : ∀ p q id, b'.taskAt pc' p = some id → b'.taskAt pc' q = some id → f p = f q → p = q)
    (hhandles : b'.handles.length = b.handles.length) (hrets : b'.rets.length = b.rets.length)
    (hheld : ∀ key d, pc' = .pollTask key d ∨ pc' = .readyTask key d →
      ∃ task, b'.tasks.get key = some task)
    (hvacant : ∀ task w key, pc' = .pollFirst task w key → b'.tasks.IsVacant key) :
    Placed b' pc' where
  apart p q id hpid hqid := hinj p q id hpid hqid (hp.apart _ _ id (hat p id hpid) (hat q id hqid))
  lt p id hpid := hhandles ▸ hp.lt _ id (hat p id hpid)
  rets_length := by rw [hhandles, hrets, hp.rets_length]
  held := hheld
  vacant := hvacant

/-- Where the executor is calm there is nothing to hold. -/
theorem held_of_isCalm (h : pc.isCalm = true) :
    (∀ key d, pc = .pollTask key d ∨ pc = .readyTask key d → ∃ task, b.tasks.get key = some task) ∧
      ∀ task w key, pc = .pollFirst task w key → b.tasks.IsVacant key := by
  constructor
  · rintro key d (rfl | rfl) <;> exact absurd h (by simp [Pc.isCalm])
  · rintro task w key rfl
    exact absurd h (by simp [Pc.isCalm])

/-- The tasks stay where they are, those that are left. -/
theorem Placed.shrink (hp : Placed b pc)
    (hat : ∀ p id, b'.taskAt pc' p = some id → b.taskAt pc p = some id)
    (hhandles : b'.handles.length = b.handles.length) (hrets : b'.rets.length = b.rets.length)
    (hpc' : pc'.isCalm = true) : Placed b' pc' :=
  hp.move id hat (fun _ _ _ _ _ h ↦ h) hhandles hrets (held_of_isCalm hpc').1
    (held_of_isCalm hpc').2

/-- A task after a `spawn` was there before, or is the new one. -/
theorem taskAt_spawn {p : Place} (hat : b.spawn.taskAt pc p = some id) :
    b.taskAt pc p = some id ∨ p = .spawned b.spawned.length ∧ id = b.handles.length := by
  cases p
  case spawned i =>
    simp only [taskAt, spawn, Option.map_eq_some_iff] at hat
    obtain ⟨task, hi, rfl⟩ := hat
    rcases Nat.lt_trichotomy i b.spawned.length with hlt | rfl | hgt
    · rw [List.getElem?_append_left hlt] at hi
      exact Or.inl (by rw [taskAt, hi, Option.map_some])
    · rw [List.getElem?_concat_length] at hi
      exact Or.inr ⟨rfl, by rw [← Option.some.inj hi]⟩
    · rw [List.getElem?_eq_none (by simp; omega)] at hi
      exact absurd hi (by simp)
  all_goals exact Or.inl hat

theorem Placed.spawn (hp : Placed b pc) : Placed b.spawn pc where
  apart p q id hpid hqid := by
    rcases taskAt_spawn hpid with hpid | ⟨rfl, rfl⟩
      <;> rcases taskAt_spawn hqid with hqid | ⟨rfl, hid⟩
    · exact hp.apart p q id hpid hqid
    · exact absurd (hp.lt p id hpid) (by omega)
    · exact absurd (hp.lt q _ hqid) (by omega)
    · rfl
  lt p id hpid := by
    have hlen : b.spawn.handles.length = b.handles.length + 1 := by simp [Roster.spawn]
    rcases taskAt_spawn hpid with hpid | ⟨-, rfl⟩
    · have := hp.lt p id hpid
      omega
    · omega
  rets_length := by simp [Roster.spawn, hp.rets_length]
  held := hp.held
  vacant := hp.vacant

/-- The last one moves from `spawned` into the hands of the executor. -/
theorem Placed.pop {task : SpawnedTask} (hp : Placed b pc)
    (hlast : b.spawned.getLast? = some task) :
    Placed { b with spawned := b.spawned.dropLast } (.poppedSpawned task) := by
  have hspawned : ∀ i id, taskAt { b with spawned := b.spawned.dropLast } (.poppedSpawned task)
      (.spawned i) = some id → i < b.spawned.length - 1 ∧ b.taskAt pc (.spawned i) = some id := by
    intro i id hat
    simp only [taskAt, List.getElem?_dropLast] at hat ⊢
    split at hat
    next hlt => exact ⟨hlt, hat⟩
    next => exact absurd hat (by simp)
  refine hp.move (Place.beforePop b.spawned.length) (fun p id hat ↦ ?_)
    (fun p q id hpid hqid hpq ↦ ?_) rfl rfl (by simp) (by simp)
  · cases p
    case spawned i => exact (hspawned i id hat).2
    case inHand =>
      obtain rfl := Option.some.inj hat
      rw [List.getLast?_eq_getElem?] at hlast
      show Option.map SpawnedTask.id b.spawned[b.spawned.length - 1]? = _
      rw [hlast, Option.map_some]
    case slab => exact hat
  · cases p <;> cases q
    case spawned.inHand i =>
      have hlt := (hspawned i id hpid).1
      exact absurd (Place.spawned.inj hpq) (by omega)
    case inHand.spawned i =>
      have hlt := (hspawned i id hqid).1
      exact absurd (Place.spawned.inj hpq) (by omega)
    case inHand.inHand => rfl
    case inHand.slab | slab.inHand => exact absurd hpq (by simp [Place.beforePop])
    all_goals exact hpq

/-- The task moves from the hands of the executor into the slab. -/
theorem Placed.pendFirst {task : SpawnedTask} {w key : ℕ} (hp : Placed b pc)
    (hpc : pc = .pollFirst task w key) (hpc' : pc'.isCalm = true) :
    Placed { b with tasks := b.tasks.insert key ⟨task.id, w⟩ } pc' := by
  have hvacant := hp.vacant task w key hpc
  have hhand : ∀ p id, taskAt { b with tasks := b.tasks.insert key ⟨task.id, w⟩ } pc' p = some id →
      p ≠ .inHand := by
    rintro p id hat rfl
    exact absurd hat (by simp [taskAt, inHand_of_isCalm hpc'])
  refine hp.move (Place.beforeInsert key) (fun p id hat ↦ ?_)
    (fun p q id hpid hqid hpq ↦
      Place.beforeInsert_inj (hhand p id hpid) (hhand q id hqid) hpq) rfl rfl
    (held_of_isCalm hpc').1 (held_of_isCalm hpc').2
  cases p
  case spawned => exact hat
  case inHand => exact absurd rfl (hhand _ id hat)
  case slab k =>
    simp only [taskAt, Slab.get_insert hvacant] at hat
    by_cases hk : k = key
    · rw [if_pos hk, Option.map_some] at hat
      simp only [Place.beforeInsert, if_pos hk, taskAt, hpc]
      exact hat
    · rw [if_neg hk] at hat
      simp only [Place.beforeInsert, if_neg hk, taskAt]
      exact hat

/-- **One step keeps every task in one place.** -/
theorem Placed.step (hp : Placed b pc) (ht : TaskStep b pc b' pc' ev) : Placed b' pc' := by
  cases ht
  case stay => exact hp
  case spawn => exact hp.spawn
  case pop task hpc hlast => exact hp.pop hlast
  case pendFirst task w key hpc hpc' => exact hp.pendFirst hpc hpc'
  case first task w key hpc _ hvacant =>
    refine hp.move id (fun p id hat ↦ ?_) (fun _ _ _ _ _ h ↦ h) (by simp) rfl (by simp) ?_
    · cases p
      case inHand =>
        show pc.inHand = _
        rw [hpc]
        exact hat
      all_goals exact hat
    · intro task' w' key' heq
      obtain ⟨-, -, rfl⟩ := Pc.pollFirst.inj heq
      exact hvacant
  case poll key d task hpc hget _ =>
    refine hp.move id (fun p id hat ↦ ?_) (fun _ _ _ _ _ h ↦ h) rfl rfl ?_ (by simp)
    · cases p
      case inHand => exact absurd hat (by simp [taskAt, Pc.inHand])
      all_goals exact hat
    · rintro key' d' (heq | heq)
      · obtain ⟨rfl, -⟩ := Pc.pollTask.inj heq
        exact ⟨task, hget⟩
      · exact absurd heq (by simp)
  case ready key d task v hpc hget =>
    refine hp.move id (fun p id hat ↦ ?_) (fun _ _ _ _ _ h ↦ h) rfl (by simp) ?_ (by simp)
    · cases p
      case inHand => exact absurd hat (by simp [taskAt, Pc.inHand])
      all_goals exact hat
    · rintro key' d' (heq | heq)
      · exact absurd heq (by simp)
      · obtain ⟨rfl, -⟩ := Pc.readyTask.inj heq
        exact ⟨task, hget⟩
  case remove key task _ _ hpc' =>
    refine hp.shrink (fun p id hat ↦ ?_) rfl rfl hpc'
    cases p
    case spawned => exact hat
    case inHand => exact absurd hat (by simp [taskAt, inHand_of_isCalm hpc'])
    case slab k =>
      simp only [taskAt, Slab.get_remove] at hat ⊢
      split at hat
      · exact absurd hat (by simp)
      · exact hat
  case calm hpc' | clear hpc' | clearSpawned hpc' | pend hpc' | skip hpc' =>
    refine hp.shrink (fun p id hat ↦ ?_) rfl rfl hpc'
    cases p
    case inHand => exact absurd hat (by simp [taskAt, inHand_of_isCalm hpc'])
    all_goals first | exact hat | exact absurd hat (by simp [taskAt])
  case readyFirst hpc' =>
    refine hp.shrink (fun p id hat ↦ ?_) rfl (by simp) hpc'
    cases p
    case inHand => exact absurd hat (by simp [taskAt, inHand_of_isCalm hpc'])
    all_goals exact hat
  case cancel | take | await =>
    exact hp.move id (fun p id hat ↦ hat) (fun _ _ _ _ _ h ↦ h) (by simp)
      (by simp) hp.held hp.vacant

end Place

/-! ### Every task lives its life -/

section Life

variable {ev : ℕ → List (TaskEvent V)}

/-- Two moments that look the same from a task. -/
theorem life_eq (hunborn : b'.handles.length ≤ id ↔ b.handles.length ≤ id)
    (hwaiting : ⟨id⟩ ∈ b'.spawned ∨ pc' = .poppedSpawned ⟨id⟩ ↔
      ⟨id⟩ ∈ b.spawned ∨ pc = .poppedSpawned ⟨id⟩)
    (hpolling : b'.polling pc' = some id ↔ b.polling pc = some id)
    (hfinished : b'.finished pc' = some id ↔ b.finished pc = some id)
    (hslab : b'.InSlab id ↔ b.InSlab id) (hcancelled : b'.isCancelled id = b.isCancelled id)
    (hret : b'.rets[id]? = b.rets[id]?) : b'.life pc' id = b.life pc id := by
  simp only [life, stage, hunborn, hwaiting, hpolling, hfinished, hslab, hcancelled, hret]

theorem stage_of_waiting (hlt : id < b.handles.length)
    (h : ⟨id⟩ ∈ b.spawned ∨ pc = .poppedSpawned ⟨id⟩) : b.stage pc id = .waiting := by
  rw [stage, if_neg (by omega), if_pos h]

theorem stage_of_polling (hlt : id < b.handles.length) (hspawned : ⟨id⟩ ∉ b.spawned)
    (h : b.polling pc = some id) : b.stage pc id = .polling := by
  have hpc : pc ≠ .poppedSpawned ⟨id⟩ := by
    rintro rfl
    exact absurd h (by simp [polling])
  rw [stage, if_neg (by omega), if_neg (not_or.2 ⟨hspawned, hpc⟩), if_pos h]

theorem stage_of_finished (hlt : id < b.handles.length) (hspawned : ⟨id⟩ ∉ b.spawned)
    (h : b.finished pc = some id) : b.stage pc id = .finished := by
  have hpc : pc ≠ .poppedSpawned ⟨id⟩ ∧ b.polling pc = none := by
    cases pc
    case readyTask => exact ⟨by simp, rfl⟩
    all_goals exact absurd h (by simp [finished])
  rw [stage, if_neg (by omega), if_neg (not_or.2 ⟨hspawned, hpc.1⟩),
    if_neg (by simp [hpc.2]), if_pos h]

/-- Where the executor is calm, the places of the tasks say all. -/
theorem stage_of_isCalm (hpc : pc.isCalm = true) (hlt : id < b.handles.length) :
    b.stage pc id =
      if ⟨id⟩ ∈ b.spawned then .waiting else if b.InSlab id then .idle else .dropped := by
  have hne := ne_poppedSpawned_of_isCalm hpc ⟨id⟩
  rw [stage, if_neg (by omega), polling_of_isCalm hpc, finished_of_isCalm hpc]
  simp [hne]

/-- A task that is nowhere has been dropped. -/
theorem stage_of_gone (hpc : pc.isCalm = true) (hlt : id < b.handles.length)
    (hspawned : ⟨id⟩ ∉ b.spawned) (hslab : ¬ b.InSlab id) : b.stage pc id = .dropped := by
  rw [stage_of_isCalm hpc hlt, if_neg hspawned, if_neg hslab]

theorem Placed.stage_spawned (hp : Placed b pc) (hmem : ⟨id⟩ ∈ b.spawned) :
    b.stage pc id = .waiting := by
  obtain ⟨i, hi⟩ := mem_spawned_iff.1 hmem
  exact stage_of_waiting (hp.lt _ _ hi) (Or.inl hmem)

/-- A task of the slab that the executor is not busy with. -/
theorem Placed.stage_slab (hp : Placed b pc) (hpc : pc.isCalm = true) {key : ℕ} {task : Task}
    (hget : b.tasks.get key = some task) : b.stage pc task.id = .idle := by
  obtain ⟨hlt, hspawned, -, -⟩ := hp.of_slab hget
  rw [stage_of_isCalm hpc hlt, if_neg hspawned, if_pos (inSlab_iff.2 ⟨key, task, hget, rfl⟩)]

/-- The task in the hands of the executor. -/
theorem Placed.stage_popped {task : SpawnedTask} (hp : Placed b (.poppedSpawned task)) :
    b.stage (.poppedSpawned task) task.id = .waiting :=
  stage_of_waiting (hp.of_inHand rfl).1 (Or.inr rfl)

theorem Placed.stage_first {task : SpawnedTask} {w key : ℕ}
    (hp : Placed b (.pollFirst task w key)) : b.stage (.pollFirst task w key) task.id = .polling :=
  stage_of_polling (hp.of_inHand rfl).1 (hp.of_inHand rfl).2.1 rfl

theorem Placed.stage_pollTask {key : ℕ} {d : Drain} {task : Task} (hp : Placed b (.pollTask key d))
    (hget : b.tasks.get key = some task) : b.stage (.pollTask key d) task.id = .polling :=
  stage_of_polling (hp.of_slab hget).1 (hp.of_slab hget).2.1
    (by rw [polling, hget, Option.map_some])

theorem Placed.stage_readyTask {key : ℕ} {d : Drain} {task : Task}
    (hp : Placed b (.readyTask key d)) (hget : b.tasks.get key = some task) :
    b.stage (.readyTask key d) task.id = .finished :=
  stage_of_finished (hp.of_slab hget).1 (hp.of_slab hget).2.1
    (by rw [finished, hget, Option.map_some])

/-- A task is polled exactly while the executor polls it. -/
theorem Placed.stage_eq_polling_iff (hp : Placed b pc) (hlt : id < b.handles.length) :
    b.stage pc id = .polling ↔ b.polling pc = some id := by
  constructor
  · intro h
    rw [stage, if_neg (by omega)] at h
    split_ifs at h with h₁ h₂
    exact h₂
  · intro h
    refine stage_of_polling hlt ?_ h
    cases pc
    case pollTask key d =>
      obtain ⟨task, hget, rfl⟩ := Option.map_eq_some_iff.1 h
      exact (hp.of_slab hget).2.1
    case pollFirst task w key => exact (hp.of_inHand (Option.some.inj h ▸ rfl)).2.1
    all_goals exact absurd h (by simp [polling])

/-- One event. -/
theorem leads_one {l l₁ l' : Life V} {e : TaskEvent V} (hs : Life.Step l e l₁) (heq : l₁ = l') :
    Leads Life.Step l [e] l' := by
  rw [← heq]
  exact Leads.nil.snoc hs

theorem only_self (es : List (TaskEvent V)) : only id es id = es := if_pos rfl

theorem only_of_ne {id₀ : ℕ} (hne : id ≠ id₀) (es : List (TaskEvent V)) : only id₀ es id = [] :=
  if_neg hne

/-- Where the executor is calm before and after, nothing happens to a task that stays. -/
theorem life_eq_of_isCalm (hpc : pc.isCalm = true) (hpc' : pc'.isCalm = true)
    (hhandles : b'.handles = b.handles) (hspawned : ⟨id⟩ ∈ b'.spawned ↔ ⟨id⟩ ∈ b.spawned)
    (hslab : b'.InSlab id ↔ b.InSlab id) (hret : b'.rets[id]? = b.rets[id]?) :
    b'.life pc' id = b.life pc id := by
  refine life_eq (by rw [hhandles]) ?_ ?_ ?_ hslab (by rw [isCancelled, isCancelled, hhandles]) hret
  · simp [ne_poppedSpawned_of_isCalm hpc, ne_poppedSpawned_of_isCalm hpc', hspawned]
  · rw [polling_of_isCalm hpc, polling_of_isCalm hpc']
  · rw [finished_of_isCalm hpc, finished_of_isCalm hpc']

theorem isCancelled_spawn (b : Roster V) (id : ℕ) : b.spawn.isCancelled id = b.isCancelled id := by
  simp only [isCancelled, spawn]
  rcases Nat.lt_trichotomy id b.handles.length with hlt | rfl | hgt
  · rw [List.getElem?_append_left hlt]
  · simp
  · rw [List.getElem?_eq_none (by simp; omega), List.getElem?_eq_none (by omega)]

theorem life_spawn (hp : Placed b pc) (id : ℕ) :
    Leads Life.Step (b.life pc id) (only b.handles.length [.spawned] id) (b.spawn.life pc id) := by
  have hlen : b.spawn.handles.length = b.handles.length + 1 := by simp [spawn]
  by_cases hid : id = b.handles.length
  · obtain rfl := hid
    have hrets : b.rets[b.handles.length]? = none :=
      List.getElem?_eq_none (by rw [hp.rets_length])
    have hrets' : b.spawn.rets[b.handles.length]? = some {} := by
      rw [← hp.rets_length]
      exact List.getElem?_concat_length
    rw [only_self]
    refine leads_one (.spawned (by simp [life, stage])) ?_
    have hst : b.spawn.stage pc b.handles.length = .waiting :=
      stage_of_waiting (by omega) (Or.inl (by simp [spawn]))
    simp only [life, hst, isCancelled_spawn, hrets, hrets']
    rfl
  · have heq : b.spawn.life pc id = b.life pc id := by
      refine life_eq ?_ ?_ Iff.rfl Iff.rfl Iff.rfl (isCancelled_spawn b id) ?_
      · rw [hlen]
        omega
      · simp [spawn, hid]
      · rcases Nat.lt_or_ge id b.rets.length with hlt | hge
        · exact List.getElem?_append_left hlt
        · have hlt : b.rets.length < id := lt_of_le_of_ne hge fun h ↦ hid (h ▸ hp.rets_length)
          rw [List.getElem?_eq_none hge, List.getElem?_eq_none (by simp [spawn]; omega)]
    rw [only_of_ne hid, heq]
    exact .nil

/-- A task that the executor pops from `spawned` still waits. -/
theorem life_pop (hpc : pc.isCalm = true) {task : SpawnedTask}
    (hlast : b.spawned.getLast? = some task) (id : ℕ) :
    { b with spawned := b.spawned.dropLast }.life (.poppedSpawned task) id = b.life pc id := by
  obtain ⟨rest, hrest⟩ := List.getLast?_eq_some_iff.1 hlast
  refine life_eq Iff.rfl ?_ ?_ ?_ Iff.rfl rfl rfl
  · have hne := ne_poppedSpawned_of_isCalm hpc ⟨id⟩
    simp [hrest, hne, eq_comm]
  · rw [polling_of_isCalm hpc]
    rfl
  · rw [finished_of_isCalm hpc]
    rfl

/-- The executor drops the task in its hands, since it is cancelled. -/
theorem life_skip {task : SpawnedTask} (hp : Placed b (.poppedSpawned task))
    (hpc' : pc'.isCalm = true) (hcancelled : b.isCancelled task.id = true) (id : ℕ) :
    Leads Life.Step (b.life (.poppedSpawned task) id) (only task.id [.dropped] id)
      (b.life pc' id) := by
  by_cases hid : id = task.id
  · obtain rfl := hid
    obtain ⟨hlt, hspawned, hslab⟩ := hp.of_inHand rfl
    have hst : b.stage pc' task.id = .dropped := stage_of_gone hpc' hlt hspawned hslab
    rw [only_self]
    refine leads_one (.dropped (Or.inr ⟨Or.inl hp.stage_popped, hcancelled⟩)) ?_
    simp only [life, hst]
  · have heq : b.life pc' id = b.life (.poppedSpawned task) id := by
      refine life_eq Iff.rfl ?_ ?_ ?_ Iff.rfl rfl rfl
      · have hne : task ≠ ⟨id⟩ := fun h ↦ hid (by rw [h])
        simp [ne_poppedSpawned_of_isCalm hpc', hne]
      · rw [polling_of_isCalm hpc']
        rfl
      · rw [finished_of_isCalm hpc']
        rfl
    rw [only_of_ne hid, heq]
    exact .nil

theorem isCancelled_setWaker (b : Roster V) (h w id : ℕ) :
    { b with
      handles := b.handles.modify h fun data ↦ { data with waker := some w } }.isCancelled id =
      b.isCancelled id := by
  simp only [isCancelled]
  by_cases hid : h = id
  · obtain rfl := hid
    rw [List.getElem?_modify_eq]
    rcases b.handles[h]? with - | data
    · rfl
    · rfl
  · rw [List.getElem?_modify_ne _ _ hid]

/-- The first poll of a task begins. -/
theorem life_first {task : SpawnedTask} {w key : ℕ} (hp : Placed b (.poppedSpawned task))
    (hp' : Placed { b with
      handles := b.handles.modify task.id fun data ↦ { data with waker := some w } }
      (.pollFirst task w key))
    (hcancelled : b.isCancelled task.id = false) (id : ℕ) :
    Leads Life.Step (b.life (.poppedSpawned task) id) (only task.id [.polled] id)
      ({ b with handles := b.handles.modify task.id fun data ↦ { data with waker := some w } }.life
        (.pollFirst task w key) id) := by
  by_cases hid : id = task.id
  · obtain rfl := hid
    rw [only_self]
    refine leads_one (.polled (Or.inl hp.stage_popped) hcancelled) ?_
    simp only [life, hp'.stage_first, isCancelled_setWaker]
  · have heq : { b with
        handles := b.handles.modify task.id fun data ↦ { data with waker := some w } }.life
        (.pollFirst task w key) id = b.life (.poppedSpawned task) id := by
      refine life_eq (by simp) ?_ ?_ Iff.rfl Iff.rfl (isCancelled_setWaker b task.id w id) rfl
      · have hne : task ≠ ⟨id⟩ := fun h ↦ hid (by rw [h])
        simp [hne]
      · simp [polling, Ne.symm hid]
    rw [only_of_ne hid, heq]
    exact .nil

/-- The first poll of a task returns pending. -/
theorem life_pendFirst {task : SpawnedTask} {w key : ℕ} (hp : Placed b (.pollFirst task w key))
    (hp' : Placed { b with tasks := b.tasks.insert key ⟨task.id, w⟩ } pc')
    (hpc' : pc'.isCalm = true) (id : ℕ) :
    Leads Life.Step (b.life (.pollFirst task w key) id) (only task.id [.pended] id)
      ({ b with tasks := b.tasks.insert key ⟨task.id, w⟩ }.life pc' id) := by
  have hget := fun k ↦ Slab.get_insert (hp.vacant task w key rfl) (⟨task.id, w⟩ : Task) k
  by_cases hid : id = task.id
  · obtain rfl := hid
    rw [only_self]
    refine leads_one (.pended hp.stage_first) ?_
    have hslab : (b.tasks.insert key ⟨task.id, w⟩).get key = some ⟨task.id, w⟩ := by
      rw [hget, if_pos rfl]
    have hst := hp'.stage_slab hpc' hslab
    simp only [life, hst]
    rfl
  · have heq : { b with tasks := b.tasks.insert key ⟨task.id, w⟩ }.life pc' id =
        b.life (.pollFirst task w key) id := by
      refine life_eq Iff.rfl ?_ ?_ ?_ ?_ rfl rfl
      · simp [ne_poppedSpawned_of_isCalm hpc']
      · rw [polling_of_isCalm hpc']
        simp [polling, Ne.symm hid]
      · rw [finished_of_isCalm hpc']
        rfl
      · rw [inSlab_iff, inSlab_iff]
        constructor
        · rintro ⟨k, task', hk, rfl⟩
          rw [hget] at hk
          split at hk
          · exact absurd (by rw [← Option.some.inj hk]) hid
          · exact ⟨k, task', hk, rfl⟩
        · rintro ⟨k, task', hk, rfl⟩
          refine ⟨k, task', ?_, rfl⟩
          rw [hget, if_neg, hk]
          rintro rfl
          exact absurd hk (by simp [(hp.vacant task w k rfl).2])
    rw [only_of_ne hid, heq]
    exact .nil

/-- The value of a task that returns ready, and nobody to wake any more. -/
theorem Placed.ret_completed (hp : Placed b pc) (v : V) (hlt : id < b.handles.length) :
    (b.rets.modify id fun _ ↦ ⟨some v, none⟩)[id]? = some ⟨some v, none⟩ := by
  rw [List.getElem?_modify_eq, List.getElem?_eq_getElem (by rw [hp.rets_length]; exact hlt)]
  rfl

/-- The first poll of a task returns ready. -/
theorem life_readyFirst {task : SpawnedTask} {w key : ℕ} {v : V}
    (hp : Placed b (.pollFirst task w key)) (hpc' : pc'.isCalm = true) (id : ℕ) :
    Leads Life.Step (b.life (.pollFirst task w key) id) (only task.id [.completed v, .dropped] id)
      ({ b with rets := b.rets.modify task.id fun _ ↦ ⟨some v, none⟩ }.life pc' id) := by
  by_cases hid : id = task.id
  · obtain rfl := hid
    obtain ⟨hlt, hspawned, hslab⟩ := hp.of_inHand rfl
    have hst : stage { b with rets := b.rets.modify task.id fun _ ↦ ⟨some v, none⟩ } pc' task.id =
        .dropped := stage_of_gone hpc' hlt hspawned hslab
    rw [only_self]
    refine (leads_one (.completed hp.stage_first) rfl).append (leads_one (.dropped (Or.inl rfl)) ?_)
    simp only [life, hst, hp.ret_completed v hlt]
    rfl
  · have heq : life { b with rets := b.rets.modify task.id fun _ ↦ ⟨some v, none⟩ } pc' id =
        b.life (.pollFirst task w key) id := by
      refine life_eq Iff.rfl ?_ ?_ ?_ Iff.rfl rfl (List.getElem?_modify_ne _ _ (Ne.symm hid))
      · simp [ne_poppedSpawned_of_isCalm hpc']
      · rw [polling_of_isCalm hpc']
        simp [polling, Ne.symm hid]
      · rw [finished_of_isCalm hpc']
        rfl
    rw [only_of_ne hid, heq]
    exact .nil

/-- A poll of a task of the slab begins. -/
theorem life_poll {key : ℕ} {d : Drain} {task : Task} (hp : Placed b pc)
    (hp' : Placed b (.pollTask key d)) (hpc : pc.isCalm = true) (hget : b.tasks.get key = some task)
    (hcancelled : b.isCancelled task.id = false) (id : ℕ) :
    Leads Life.Step (b.life pc id) (only task.id [.polled] id) (b.life (.pollTask key d) id) := by
  by_cases hid : id = task.id
  · obtain rfl := hid
    rw [only_self]
    refine leads_one (.polled (Or.inr (hp.stage_slab hpc hget)) hcancelled) ?_
    simp only [life, hp'.stage_pollTask hget]
  · have heq : b.life (.pollTask key d) id = b.life pc id := by
      refine life_eq Iff.rfl ?_ ?_ ?_ Iff.rfl rfl rfl
      · simp [ne_poppedSpawned_of_isCalm hpc]
      · rw [polling_of_isCalm hpc, polling, hget]
        simp [Ne.symm hid]
      · rw [finished_of_isCalm hpc]
        rfl
    rw [only_of_ne hid, heq]
    exact .nil

/-- It returns pending. -/
theorem life_pend {key : ℕ} {d : Drain} {task : Task} (hp : Placed b (.pollTask key d))
    (hp' : Placed b pc') (hget : b.tasks.get key = some task) (hpc' : pc'.isCalm = true) (id : ℕ) :
    Leads Life.Step (b.life (.pollTask key d) id) (only task.id [.pended] id) (b.life pc' id) := by
  by_cases hid : id = task.id
  · obtain rfl := hid
    rw [only_self]
    refine leads_one (.pended (hp.stage_pollTask hget)) ?_
    simp only [life, hp'.stage_slab hpc' hget]
  · have heq : b.life pc' id = b.life (.pollTask key d) id := by
      refine life_eq Iff.rfl ?_ ?_ ?_ Iff.rfl rfl rfl
      · simp [ne_poppedSpawned_of_isCalm hpc']
      · rw [polling_of_isCalm hpc', polling, hget]
        simp [Ne.symm hid]
      · rw [finished_of_isCalm hpc']
        rfl
    rw [only_of_ne hid, heq]
    exact .nil

/-- It returns ready. -/
theorem life_ready {key : ℕ} {d : Drain} {task : Task} {v : V} (hp : Placed b (.pollTask key d))
    (hp' : Placed { b with rets := b.rets.modify task.id fun _ ↦ ⟨some v, none⟩ }
      (.readyTask key d))
    (hget : b.tasks.get key = some task) (id : ℕ) :
    Leads Life.Step (b.life (.pollTask key d) id) (only task.id [.completed v] id)
      ({ b with rets := b.rets.modify task.id fun _ ↦ ⟨some v, none⟩ }.life
        (.readyTask key d) id) := by
  by_cases hid : id = task.id
  · obtain rfl := hid
    rw [only_self]
    refine leads_one (.completed (hp.stage_pollTask hget)) ?_
    simp only [life, hp'.stage_readyTask hget, hp.ret_completed v (hp.of_slab hget).1]
    rfl
  · have heq :
        life { b with rets := b.rets.modify task.id fun _ ↦ ⟨some v, none⟩ } (.readyTask key d) id =
        b.life (.pollTask key d) id := by
      refine life_eq Iff.rfl (by simp) ?_ ?_ Iff.rfl rfl (List.getElem?_modify_ne _ _ (Ne.symm hid))
      · simp [polling, hget, Ne.symm hid]
      · simp [finished, hget, Ne.symm hid]
    rw [only_of_ne hid, heq]
    exact .nil

/-- A task of the slab is dropped, since it is cancelled or has returned ready. -/
theorem life_remove {key : ℕ} {task : Task} (hp : Placed b pc) (hget : b.tasks.get key = some task)
    (hwhy : pc.isCalm = true ∧ b.isCancelled task.id = true ∨ ∃ d, pc = .readyTask key d)
    (hpc' : pc'.isCalm = true) (id : ℕ) :
    Leads Life.Step (b.life pc id) (only task.id [.dropped] id)
      ({ b with tasks := b.tasks.remove key }.life pc' id) := by
  obtain ⟨hlt, hspawned, -, hkey⟩ := hp.of_slab hget
  have hslab : ∀ id, InSlab { b with tasks := b.tasks.remove key } id ↔
      id ≠ task.id ∧ b.InSlab id := by
    intro id
    simp only [inSlab_iff, Slab.get_remove, Option.ite_none_left_eq_some]
    constructor
    · rintro ⟨k, task', ⟨hk, hget'⟩, rfl⟩
      exact ⟨fun hid ↦ hk (hkey k task' hget' hid), k, task', hget', rfl⟩
    · rintro ⟨hid, k, task', hget', rfl⟩
      refine ⟨k, task', ⟨?_, hget'⟩, rfl⟩
      rintro rfl
      rw [hget] at hget'
      exact hid (by rw [Option.some.inj hget'])
  by_cases hid : id = task.id
  · obtain rfl := hid
    have hst : stage { b with tasks := b.tasks.remove key } pc' task.id = .dropped :=
      stage_of_gone hpc' hlt hspawned (by simp [hslab])
    have hwhy' : b.stage pc task.id = .finished ∨
        (b.stage pc task.id).Rests ∧ b.isCancelled task.id = true := by
      rcases hwhy with ⟨hpc, hcancelled⟩ | ⟨d, rfl⟩
      · exact Or.inr ⟨Or.inr (hp.stage_slab hpc hget), hcancelled⟩
      · exact Or.inl (hp.stage_readyTask hget)
    rw [only_self]
    refine leads_one (.dropped hwhy') ?_
    simp only [life, hst]
    rfl
  · have heq : life { b with tasks := b.tasks.remove key } pc' id = b.life pc id := by
      have hpc : pc ≠ .poppedSpawned ⟨id⟩ ∧ b.polling pc ≠ some id ∧ b.finished pc ≠ some id := by
        rcases hwhy with ⟨hpc, -⟩ | ⟨d, rfl⟩
        · simp [ne_poppedSpawned_of_isCalm hpc, polling_of_isCalm hpc, finished_of_isCalm hpc]
        · simp [polling, finished, hget, Ne.symm hid]
      refine life_eq Iff.rfl ?_ ?_ ?_ ?_ rfl rfl
      · simp [ne_poppedSpawned_of_isCalm hpc', hpc.1]
      · simp [polling_of_isCalm hpc', hpc.2.1]
      · simp [finished_of_isCalm hpc', hpc.2.2]
      · rw [hslab]
        exact and_iff_right hid
    rw [only_of_ne hid, heq]
    exact .nil

/-- The slab is cleared. -/
theorem life_clear (hp : Placed b pc) (hpc : pc.isCalm = true) (hpc' : pc'.isCalm = true) (id : ℕ) :
    Leads Life.Step (b.life pc id) (if b.InSlab id then [.cleared] else [])
      ({ b with tasks := .empty }.life pc' id) := by
  have hempty : ¬ InSlab { b with tasks := .empty } id := by simp [inSlab_iff]
  split
  next hslab =>
    obtain ⟨key, task, hget, rfl⟩ := inSlab_iff.1 hslab
    obtain ⟨hlt, hspawned, -, -⟩ := hp.of_slab hget
    refine leads_one (.cleared (Or.inr (hp.stage_slab hpc hget))) ?_
    have hst : stage { b with tasks := .empty } pc' task.id = .dropped :=
      stage_of_gone hpc' hlt hspawned hempty
    simp only [life, hst]
    rfl
  next hslab =>
    have heq : life { b with tasks := .empty } pc' id = b.life pc id :=
      life_eq_of_isCalm hpc hpc' rfl Iff.rfl (by simp [hslab, hempty]) rfl
    rw [heq]
    exact .nil

/-- The spawned tasks are cleared. -/
theorem life_clearSpawned (hp : Placed b pc) (hpc : pc.isCalm = true) (hpc' : pc'.isCalm = true)
    (id : ℕ) :
    Leads Life.Step (b.life pc id) (if ⟨id⟩ ∈ b.spawned then [.cleared] else [])
      ({ b with spawned := [] }.life pc' id) := by
  split
  next hmem =>
    obtain ⟨i, hi⟩ := mem_spawned_iff.1 hmem
    have hlt := hp.lt _ _ hi
    have hslab : ¬ b.InSlab id := by
      intro hslab
      obtain ⟨key, task, hget, rfl⟩ := inSlab_iff.1 hslab
      exact (hp.of_slab hget).2.1 hmem
    refine leads_one (.cleared (Or.inl (stage_of_waiting hlt (Or.inl hmem)))) ?_
    have hst : stage { b with spawned := [] } pc' id = .dropped :=
      stage_of_gone hpc' hlt List.not_mem_nil hslab
    simp only [life, hst]
    rfl
  next hmem =>
    have heq : life { b with spawned := [] } pc' id = b.life pc id :=
      life_eq_of_isCalm hpc hpc' rfl (by simp [hmem]) Iff.rfl rfl
    rw [heq]
    exact .nil

/-- A task is cancelled through its handle. -/
theorem life_cancel {h : ℕ} (hp : Placed b pc) (hlt : h < b.handles.length) (id : ℕ) :
    Leads Life.Step (b.life pc id) (only h [.cancelled (decide (b.polling pc = some h))] id)
      ({ b with handles := b.handles.modify h fun _ ↦ ⟨true, none⟩ }.life pc id) := by
  have hstage : stage { b with handles := b.handles.modify h fun _ ↦ ⟨true, none⟩ } pc id =
      b.stage pc id := by
    simp only [stage, List.length_modify]
    rfl
  by_cases hid : id = h
  · obtain rfl := hid
    have hcancelled :
        isCancelled { b with handles := b.handles.modify id fun _ ↦ ⟨true, none⟩ } id = true := by
      simp only [isCancelled, List.getElem?_modify_eq, List.getElem?_eq_getElem hlt]
      rfl
    have hunborn : b.stage pc id ≠ .unborn := by
      rw [stage, if_neg (by omega)]
      split_ifs <;> simp
    rw [only_self]
    refine leads_one (.cancelled hunborn ?_) ?_
    · rw [decide_eq_true_iff]
      exact (hp.stage_eq_polling_iff hlt).symm
    · simp only [life, hstage, hcancelled]
  · have hcancelled : isCancelled { b with handles := b.handles.modify h fun _ ↦ ⟨true, none⟩ } id =
        b.isCancelled id := by
      simp only [isCancelled, List.getElem?_modify_ne _ _ (Ne.symm hid)]
    have heq : life { b with handles := b.handles.modify h fun _ ↦ ⟨true, none⟩ } pc id =
        b.life pc id := by
      simp only [life, hstage, hcancelled]
    rw [only_of_ne hid, heq]
    exact .nil

/-- A change of the cell of one handle. -/
theorem life_setRet {h : ℕ} {f : RetData V → RetData V} {e : TaskEvent V} {ret : RetData V}
    (hret : b.rets[h]? = some ret)
    (hs : Life.Step (b.life pc h) e
      { b.life pc h with value := (f ret).value, waker := (f ret).waker }) (id : ℕ) :
    Leads Life.Step (b.life pc id) (only h [e] id)
      ({ b with rets := b.rets.modify h f }.life pc id) := by
  by_cases hid : id = h
  · obtain rfl := hid
    have hret' : (b.rets.modify id f)[id]? = some (f ret) := by
      rw [List.getElem?_modify_eq, hret]
      rfl
    rw [only_self]
    refine leads_one hs ?_
    simp only [life, hret']
    rfl
  · have heq : life { b with rets := b.rets.modify h f } pc id = b.life pc id :=
      life_eq Iff.rfl Iff.rfl Iff.rfl Iff.rfl Iff.rfl rfl
        (List.getElem?_modify_ne _ _ (Ne.symm hid))
    rw [only_of_ne hid, heq]
    exact .nil

/-- **One step does to the life of every task what its events say.** -/
theorem life_of_taskStep (hp : Placed b pc) (ht : TaskStep b pc b' pc' ev) (id : ℕ) :
    Leads Life.Step (b.life pc id) (ev id) (b'.life pc' id) := by
  have hp' := hp.step ht
  cases ht
  case stay => exact .nil
  case calm hpc hpc' =>
    rw [life_eq_of_isCalm hpc hpc' rfl Iff.rfl Iff.rfl rfl]
    exact .nil
  case spawn => exact life_spawn hp id
  case pop hpc hlast =>
    rw [life_pop hpc hlast]
    exact .nil
  case skip task hpc hcancelled hpc' =>
    obtain rfl := hpc
    exact life_skip hp hpc' hcancelled id
  case first task w key hpc hcancelled _ =>
    obtain rfl := hpc
    exact life_first hp hp' hcancelled id
  case pendFirst task w key hpc hpc' =>
    obtain rfl := hpc
    exact life_pendFirst hp hp' hpc' id
  case readyFirst task w key v hpc hpc' =>
    obtain rfl := hpc
    exact life_readyFirst hp hpc' id
  case poll hpc hget hcancelled => exact life_poll hp hp' hpc hget hcancelled id
  case pend hpc hget hpc' =>
    obtain rfl := hpc
    exact life_pend hp hp' hget hpc' id
  case ready hpc hget =>
    obtain rfl := hpc
    exact life_ready hp hp' hget id
  case remove hget hwhy hpc' => exact life_remove hp hget hwhy hpc' id
  case clear hpc hpc' => exact life_clear hp hpc hpc' id
  case clearSpawned hpc hpc' => exact life_clearSpawned hp hpc hpc' id
  case cancel hlt => exact life_cancel hp hlt id
  case take h waker v hv =>
    obtain ⟨ret, hret, hvalue⟩ := Option.bind_eq_some_iff.1 hv
    refine life_setRet hret ?_ id
    have hl : (b.life pc h).value = some v := hv
    have hw : (b.life pc h).waker = ret.waker := by simp [life, hret]
    have hs := Life.Step.taken (w := waker) hl
    rwa [← hw]
  case await h waker hlt hv =>
    obtain ⟨ret, hret⟩ : ∃ ret, b.rets[h]? = some ret :=
      ⟨_, List.getElem?_eq_getElem (by rw [hp.rets_length]; exact hlt)⟩
    refine life_setRet hret ?_ id
    have hl : (b.life pc h).value = none := hv
    have hvalue : (b.life pc h).value = ret.value := by simp [life, hret]
    have hunborn : (b.life pc h).stage ≠ .unborn := by
      show b.stage pc h ≠ .unborn
      rw [stage, if_neg (by omega)]
      split_ifs <;> simp
    have hs := Life.Step.awaited (w := waker) hunborn hl
    rwa [← hvalue]

end Life

end Roster

end LocalRuntime
