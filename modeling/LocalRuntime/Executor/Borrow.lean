import LocalRuntime.Executor.Run

/-!
# Borrowing while code runs

Code that is not the executor's runs inside `run`, and may call `Executor::spawn` there. This module
says **exactly** when that panics.

The guards that are held are a function of where the innermost `run` future is (`BorrowInv`); the
executor never conflicts with itself, and no code but `spawn` borrows. What is left is `spawn` while
the guard of `spawned` is held. That is so in the first poll of a task, in the drop of a task by
`poll_spawned`, and in the drop of the spawned tasks at the end of `run`, and nowhere else: not in
later polls, not in the drop of a task of the slab, not in the main future and not outside of `run`.
-/

namespace LocalRuntime

variable {V : Type}

/-- Code that is not the executor's runs under the guard of `spawned`: the first poll of a task, the
drop of a task that is cancelled before its first poll or finished in it, and the drop of a task
that is still waiting for its first poll when `run` completes. -/
def Pc.underSpawnedGuard : Pc → Bool
  | .pollFirst _ _ _ | .dropSpawned | .clearSpawned _ => true
  | _ => false

theorem Pc.holdsSpawned_of_isUser {pc : Pc} (h : pc.isUser = true) :
    pc.holdsSpawned = pc.underSpawnedGuard := by
  rcases pc <;> first | rfl | exact absurd h (by simp [Pc.isUser])

/-- Code that polls a `run` future runs under no guard. -/
theorem Pc.not_holds_of_main {pc : Pc} (h : (pc == .pollMain || pc == .dropMain) = true) :
    pc.holdsTasks = false ∧ pc.holdsSpawned = false := by
  simp only [Bool.or_eq_true, beq_iff_eq] at h
  obtain rfl | rfl := h
  · exact ⟨rfl, rfl⟩
  · exact ⟨rfl, rfl⟩

theorem Pc.not_holds_of_isIdle {pc : Pc} (h : pc.isIdle = true) :
    pc.holdsTasks = false ∧ pc.holdsSpawned = false := by
  rcases pc <;> first | exact ⟨rfl, rfl⟩ | exact absurd h (by simp [Pc.isIdle])

namespace Executor

variable {ex ex' : Executor V} {r r' : Run}

/-- The guards that are held are those of a place. -/
structure Guards (ex : Executor V) (tasks spawned : Bool) : Prop where
  tasks_eq : ex.tasksBorrowed = tasks
  spawned_eq : ex.spawnedBorrowed = spawned

/-- **A step of `run` takes and drops its guards as it goes.** -/
theorem Guards.trans (h : ex.Guards r.pc.holdsTasks r.pc.holdsSpawned) (ht : ex.Trans r ex' r') :
    ex'.Guards r'.pc.holdsTasks r'.pc.holdsSpawned := by
  obtain ⟨htasks, hspawned⟩ := h
  cases ht
  case resetPop | borrowTasks | borrowSpawned | unwrap | mainTaskId => exact ⟨htasks, hspawned⟩
  case readyTask hpc _ | readyFirst hpc =>
    obtain ⟨_, _, _, _, hc⟩ := exists_complete_eq ex _ _
    rw [hpc] at htasks hspawned
    rw [hc]
    exact ⟨htasks, hspawned⟩
  case snapshot | drained | pollSpawned | noSpawned | clear | clearedTasks =>
    rw [‹r.pc = _›] at hspawned
    exact ⟨rfl, hspawned⟩
  case popSpawned | clearSpawned | clearedSpawned | pendingFirst | droppedSpawned =>
    rw [‹r.pc = _›] at htasks
    exact ⟨htasks, rfl⟩
  -- the other steps touch no guard
  all_goals
    rw [‹r.pc = _›] at htasks hspawned
    exact ⟨htasks, hspawned⟩

/-- **The executor never conflicts with itself.** -/
theorem Guards.panic_ne (h : ex.Guards r.pc.holdsTasks r.pc.holdsSpawned) (ht : ex.Trans r ex' r')
    (hpanic : ex.panic ≠ some .borrow) : ex'.panic ≠ some .borrow := by
  cases ht
  case borrowTasks hpc hb =>
    have htasks := h.tasks_eq
    rw [hb] at htasks
    obtain hpc | hpc | hpc := hpc <;> exact absurd htasks (by simp [hpc, Pc.holdsTasks])
  case borrowSpawned hpc hb =>
    have hspawned := h.spawned_eq
    rw [hb] at hspawned
    obtain hpc | hpc := hpc <;> exact absurd hspawned (by simp [hpc, Pc.holdsSpawned])
  case unwrap | mainTaskId => simp [crash]
  case readyTask | readyFirst =>
    obtain ⟨_, _, _, _, hc⟩ := exists_complete_eq ex _ _
    rw [hc]
    exact hpanic
  all_goals exact hpanic

/-- Whatever is done from outside leaves the guards alone. -/
theorem Guards.act {a : Act} {tasks spawned : Bool} (h : ex.Guards tasks spawned)
    (ha : ex.act a = some ex') : ex'.Guards tasks spawned := by
  obtain ⟨htasks, hspawned⟩ := borrowed_of_act ha
  exact ⟨htasks.trans h.tasks_eq, hspawned.trans h.spawned_eq⟩

/-- What is done from outside does not panic, unless it is a `spawn` under the guard. -/
theorem panic_ne_of_act {a : Act} (ha : ex.act a = some ex')
    (hspawn : a = .spawn → ex.spawnedBorrowed = false) (hpanic : ex.panic ≠ some .borrow) :
    ex'.panic ≠ some .borrow := by
  rcases eq_or_ne a .spawn with rfl | hne
  · obtain rfl := Option.some.inj ha
    rw [spawn_of_not_borrowed (hspawn rfl)]
    exact hpanic
  · rw [panic_of_act ha hne]
    exact hpanic

end Executor

/-! ### Overlapping runs -/

namespace Overlapping

variable {s t : Overlapping V}

/-- The guards that are held are those of the innermost `run` future; the enclosing ones are in
their main futures. -/
structure BorrowInv (s : Overlapping V) : Prop where
  guards : s.ex.Guards (s.stack.head?.any fun r ↦ r.pc.holdsTasks)
    (s.stack.head?.any fun r ↦ r.pc.holdsSpawned)
  panic_ne : s.ex.panic ≠ some .borrow
  enclosing : ∀ r ∈ s.stack.tail, (r.pc == .pollMain || r.pc == .dropMain) = true
  idle : ∀ r ∈ s.idle, r.pc.isIdle = true

theorem BorrowInv.init : BorrowInv (init : Overlapping V) where
  guards := ⟨rfl, rfl⟩
  panic_ne := by simp [Overlapping.init, Executor.new]
  enclosing _ h := absurd h (by simp [Overlapping.init])
  idle _ h := absurd h (by simp [Overlapping.init])

/-- A `spawn` is not made under the guard of `spawned`. -/
def SpawnsUnguarded (s : Overlapping V) (a : Act V) : Prop :=
  a = .ex .spawn → ∀ r, s.stack.head? = some r → r.pc.underSpawnedGuard = false

/-- A `spawn` appends the new task. -/
def SpawnAppends (s : Overlapping V) (a : Act V) : Prop :=
  a = .ex .spawn → ∀ t, s.step a = some t →
    t.ex.panic = none ∧ t.ex.spawned = s.ex.spawned ++ [⟨s.ex.handles.length⟩]

/-- Where a `spawn` is possible, the guard is held exactly under the guard. -/
theorem holdsSpawned_of_inUser (h : s.inUser = true) :
    (s.stack.head?.any fun r ↦ r.pc.holdsSpawned) =
      s.stack.head?.any fun r ↦ r.pc.underSpawnedGuard := by
  rw [inUser] at h
  rcases hhead : s.stack.head? with - | r
  · rfl
  · rw [hhead] at h
    exact Pc.holdsSpawned_of_isUser h

/-- Where `run` can be polled no guard is held. -/
theorem BorrowInv.guards_of_canPoll (h : BorrowInv s) (hcan : s.canPoll = true) :
    s.ex.Guards false false := by
  have hg := h.guards
  rw [canPoll] at hcan
  rcases hhead : s.stack.head? with - | r
  · rwa [hhead] at hg
  · rw [hhead] at hcan hg
    obtain ⟨htasks, hspawned⟩ := Pc.not_holds_of_main hcan
    simpa only [Option.any_some, htasks, hspawned] using hg

/-- The guards once a poll of a `run` future is over. -/
theorem BorrowInv.settle {ex' : Executor V} {r' : Run} {rest : List Run}
    (hguards : ex'.Guards r'.pc.holdsTasks r'.pc.holdsSpawned) (hpanic : ex'.panic ≠ some .borrow)
    (henclosing : ∀ r ∈ rest, (r.pc == .pollMain || r.pc == .dropMain) = true)
    (hidle : ∀ r ∈ s.idle, r.pc.isIdle = true) :
    BorrowInv (Overlapping.settle ex' s.idle rest r') := by
  rw [Overlapping.settle]
  split
  next hpc =>
    obtain ⟨htasks, hspawned⟩ := Pc.not_holds_of_isIdle hpc
    rw [htasks, hspawned] at hguards
    refine ⟨?_, hpanic, fun r hr ↦ henclosing r (List.mem_of_mem_tail hr), ?_⟩
    · -- the next one out is in its main future, which holds nothing
      rcases rest with - | ⟨r, rest⟩
      · exact hguards
      · obtain ⟨ht, hs⟩ := Pc.not_holds_of_main (henclosing r List.mem_cons_self)
        simpa [ht, hs] using hguards
    · intro r hr
      rcases List.mem_append.1 hr with hr | hr
      · exact hidle r hr
      · rw [List.mem_singleton.1 hr]
        exact hpc
  next => exact ⟨hguards, hpanic, henclosing, hidle⟩

/-- Where a `spawn` is made, the guard is not held. -/
theorem BorrowInv.not_borrowed_of_spawn (h : BorrowInv s) (hC : SpawnsUnguarded s (.ex .spawn))
    (huser : s.inUser = true) : s.ex.spawnedBorrowed = false := by
  rw [h.guards.spawned_eq, holdsSpawned_of_inUser huser]
  rcases hhead : s.stack.head? with - | r
  · rfl
  · exact hC rfl r hhead

/-- **One step keeps the guards in order**, unless it is a `spawn` under the guard. -/
theorem BorrowInv.step {a : Act V} (h : BorrowInv s) (hC : SpawnsUnguarded s a)
    (hs : s.step a = some t) : BorrowInv t := by
  cases step_cases hs
  case newRun =>
    refine ⟨h.guards, h.panic_ne, h.enclosing, fun r hr ↦ ?_⟩
    rcases List.mem_append.1 hr with hr | hr
    · exact h.idle r hr
    · rw [List.mem_singleton.1 hr]
      rfl
  case dropRun i =>
    exact ⟨h.guards, h.panic_ne, h.enclosing, fun r hr ↦ h.idle r (List.mem_of_mem_eraseIdx hr)⟩
  case poll i cx r r' ex' hr hcan hbegin =>
    have hguards := h.guards_of_canPoll hcan
    have henclosing : ∀ r ∈ s.stack, (r.pc == .pollMain || r.pc == .dropMain) = true :=
      forall_mem_stack_of_canPoll hcan (fun r hpc ↦ by simpa using hpc) h.enclosing
    have hidle : ∀ r ∈ s.idle.eraseIdx i, r.pc.isIdle = true :=
      fun r hr ↦ h.idle r (List.mem_of_mem_eraseIdx hr)
    obtain ⟨-, rfl, rfl⟩ | ⟨-, rfl, rfl⟩ := Executor.beginPoll_cases hbegin
    · exact ⟨⟨hguards.tasks_eq, hguards.spawned_eq⟩, h.panic_ne, henclosing, hidle⟩
    · exact ⟨hguards, h.panic_ne, henclosing, hidle⟩
  case run a r r' rest ex' hstack hstep =>
    have hguards := h.guards
    have henclosing := h.enclosing
    rw [hstack] at hguards henclosing
    have htrans := Executor.trans_of_runStep hstep
    exact .settle (hguards.trans htrans) (hguards.panic_ne htrans h.panic_ne) henclosing h.idle
  case ex a ex' hact hlocal =>
    refine ⟨h.guards.act hact, Executor.panic_ne_of_act hact ?_ h.panic_ne, h.enclosing, h.idle⟩
    rintro rfl
    exact h.not_borrowed_of_spawn hC (hlocal rfl).2

/-- A `spawn` under the guard panics. -/
theorem BorrowInv.panic_of_guarded {a : Act V} (h : BorrowInv s) (hC : ¬ SpawnsUnguarded s a)
    (hs : s.step a = some t) : t.ex.panic = some .borrow := by
  simp only [SpawnsUnguarded, not_forall, Bool.not_eq_false] at hC
  obtain ⟨rfl, r, hhead, hguard⟩ := hC
  simp only [Overlapping.step, Option.ite_none_right_eq_some, Option.map_eq_some_iff] at hs
  obtain ⟨hlocal, ex', hact, rfl⟩ := hs
  have hborrowed := h.guards.spawned_eq
  rw [holdsSpawned_of_inUser (hlocal rfl).2, hhead, Option.any_some, hguard] at hborrowed
  obtain rfl := Option.some.inj hact
  rw [Executor.spawn_of_borrowed hborrowed]

/-- A `spawn` that is not under the guard appends the new task. -/
theorem BorrowInv.spawnAppends {a : Act V} (h : BorrowInv s) (hC : SpawnsUnguarded s a) :
    SpawnAppends s a := by
  rintro rfl t hs
  simp only [Overlapping.step, Option.ite_none_right_eq_some, Option.map_eq_some_iff] at hs
  obtain ⟨hlocal, ex', hact, rfl⟩ := hs
  obtain ⟨hfree, huser⟩ := hlocal rfl
  obtain rfl := Option.some.inj hact
  rw [Executor.spawn_of_not_borrowed (h.not_borrowed_of_spawn hC huser)]
  exact ⟨hfree.1, rfl⟩

/-- **Spawning from inside `run`, exactly.** In a run of the executor, with any number of `run`
futures and any code in them: no borrow of `tasks` or `spawned` conflicts and every `spawn` appends
its task, if and only if no `spawn` is made in the first poll of a task, in the drop of a task by
`poll_spawned`, or in the drop of the tasks that wait for their first poll when `run` completes. -/
theorem spawn_panics_iff (as : List (Act V)) (t : Overlapping V)
    (hrun : (machine V).run init as = some t) :
    ((∀ u, (machine V).Visits init as u → u.ex.panic ≠ some .borrow) ∧
      (machine V).AllSteps SpawnAppends init as) ↔
    (machine V).AllSteps SpawnsUnguarded init as := by
  have hiff := Machine.forall_visits_iff_allSteps (M := machine V) (I := BorrowInv)
    (P := fun u ↦ u.ex.panic ≠ some .borrow) (C := SpawnsUnguarded)
    (fun _ h ↦ h.panic_ne) (fun _ _ _ h hC hs ↦ h.step hC hs)
    (fun _ _ _ h hC hs hne ↦ hne (h.panic_of_guarded hC hs)) .init hrun
  constructor
  · exact fun h ↦ hiff.1 h.1
  · intro hall
    refine ⟨hiff.2 hall, ?_⟩
    exact Machine.AllSteps.imp (I := BorrowInv) (fun _ _ _ h hC hs ↦ h.step hC hs)
      (fun _ _ h hC ↦ h.spawnAppends hC) .init hall

/-- A new `run` future is polled as far as its main future. -/
def toMain : List (Act Unit) :=
  [.newRun, .poll 0 7, .run .tick, .run .tick, .run .tick, .run .tick, .run .tick, .run .tick,
    .run .tick]

/-- The main future spawns a task, which spawns another one in its first poll. -/
def spawnInFirstPoll : List (Act Unit) :=
  toMain ++ [.ex .spawn, .run (.ret none), .run .tick, .run .tick, .run (.firstPoll 0), .ex .spawn]

/-- **A task that spawns in its first poll panics.** -/
theorem spawnInFirstPoll_panics :
    ∃ u, (machine Unit).Visits init spawnInFirstPoll u ∧ u.ex.panic = some .borrow := by
  refine ⟨_, ⟨spawnInFirstPoll, List.prefix_rfl, rfl⟩, ?_⟩
  decide

/-- The main future spawns a task, which spawns another one the second time it is polled. -/
def spawnInSecondPoll : List (Act Unit) :=
  toMain ++ [.ex .spawn, .run (.ret none), .run .tick, .run .tick, .run (.firstPoll 0),
    .run (.ret none), .run .tick, .ex (.wake 1 true), .ex (.push 0), .ex (.fire 0), .poll 0 7,
    .run .tick, .run .tick, .run .tick, .run .tick, .ex .spawn]

theorem spawn_panics_iff_spawnInSecondPoll :
    ∃ t, (machine Unit).run init spawnInSecondPoll = some t ∧
      (((∀ u, (machine Unit).Visits init spawnInSecondPoll u → u.ex.panic ≠ some .borrow) ∧
        (machine Unit).AllSteps SpawnAppends init spawnInSecondPoll) ↔
      (machine Unit).AllSteps SpawnsUnguarded init spawnInSecondPoll) := by
  refine ⟨_, rfl, ?_⟩
  exact spawn_panics_iff spawnInSecondPoll _ rfl

end Overlapping

end LocalRuntime
