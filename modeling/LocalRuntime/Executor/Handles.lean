import LocalRuntime.Executor.Histories

/-!
# Task handles

What a `TaskHandle` gives its owner, in every run: with any tasks, any number of `run` futures,
handles polled from anywhere and with changing wakers, and cancels at any time. A handle gives out
the value of the future it was made for, once; whoever polled it last is woken when the value comes;
and `TaskHandle::is_finished` foretells the next poll.

All of it is about the history of one task. `LocalRuntime.Executor.Histories` shows that the history
is one of a `Life`, and what follows from that is in `LocalRuntime.Executor.LifeCycle`.
-/

namespace LocalRuntime

variable {V : Type}

namespace Executor

/-- `TaskHandle::is_finished`. -/
def isFinished (ex : Executor V) (h : ℕ) : Bool := (ex.rets[h]?.bind RetData.value).isSome

/-- `is_finished` says whether a poll of the handle would return ready. -/
theorem isFinished_iff (ex : Executor V) (h : ℕ) (waker : WakerRef) :
    ex.isFinished h = true ↔ ∃ v, (ex.pollHandle h waker).1 = .ready v := by
  rcases hv : ex.rets[h]?.bind RetData.value with - | v
  · simp [isFinished, pollHandle, hv]
  · simp [isFinished, pollHandle, hv]

/-- A future that returns ready wakes the waker in the cell of its handle. -/
theorem complete_eq_wakeRef {ex : Executor V} {id : ℕ} {waker : WakerRef} (v : V)
    (hw : ex.rets[id]?.bind RetData.waker = some waker) :
    ∃ rets, ex.complete id v = wakeRef { ex with rets } waker := by
  simp only [complete, hw]
  exact ⟨_, rfl⟩

theorem not_mem_tickEvents (ex : Executor V) (pc : Pc) (id : ℕ) (v : V) :
    .completed v ∉ ex.tickEvents pc id := by
  cases pc
  case popped key d =>
    simp only [tickEvents]
    split
    · exact List.not_mem_nil
    · rcases ex.tasks.get key with - | task
      · exact List.not_mem_nil
      · rw [Roster.mem_only, List.mem_singleton]
        split
        · simp
        · simp
  case readyTask key d =>
    simp only [tickEvents]
    rcases ex.tasks.get key with - | task
    · exact List.not_mem_nil
    · simp
  case poppedSpawned task => simp [tickEvents]
  case completed | cleared =>
    simp only [tickEvents]
    split
    · exact List.not_mem_nil
    · simp only
      split_ifs <;> simp
  all_goals exact List.not_mem_nil

/-- **A step with the event of a task that returns ready is the one that completes it.** -/
theorem eq_complete_of_runStep {ex ex' : Executor V} {r r' : Run} {a : RunAct V} {id : ℕ} {v : V}
    (hs : ex.runStep r a = some (ex', r')) (hev : .completed v ∈ ex.runEvents r.pc a id) :
    ex' = ex.complete id v := by
  simp only [runStep] at hs
  split at hs
  · rcases a with - | key | out
    · exact absurd hev (not_mem_tickEvents ex r.pc id v)
    · rcases hpc : r.pc
      case poppedSpawned task =>
        simp only [runEvents, hpc] at hev
        split at hev
        · exact absurd hev List.not_mem_nil
        · exact absurd hev (by simp)
      all_goals exact absurd hev (by simp [runEvents, hpc])
    · simp only [runEvents] at hev
      rcases hpc : r.pc
      case pollTask key d =>
        rcases hget : ex.tasks.get key with - | task
        · exact absurd hev (by simp [retEvents, hpc, hget])
        · rcases out with - | v'
          · exact absurd hev (by simp [retEvents, hpc, hget])
          · simp only [retEvents, hpc, hget, Roster.mem_only, List.mem_singleton,
              TaskEvent.completed.injEq] at hev
            simp only [ret, hpc, hget, Option.map_some, Option.some.injEq, Prod.mk.injEq] at hs
            rw [hev.1, hev.2, hs.1]
      case pollFirst task w key =>
        rcases out with - | v'
        · exact absurd hev (by simp [retEvents, hpc])
        · simp only [retEvents, hpc, Roster.mem_only, List.mem_cons, TaskEvent.completed.injEq,
            reduceCtorEq, List.not_mem_nil, or_false] at hev
          simp only [ret, hpc, Option.some.injEq, Prod.mk.injEq] at hs
          rw [hev.1, hev.2, hs.1]
      all_goals exact absurd hev (by simp [retEvents, hpc])
  · exact absurd hs (by simp)

theorem not_mem_actEvents (ex : Executor V) (pc : Pc) (a : Act) (id : ℕ) (v : V) :
    .completed v ∉ ex.actEvents pc a id := by
  cases a
  case spawn | cancel | pollHandle =>
    simp only [actEvents]
    split
    · simp
    · simp
  all_goals exact List.not_mem_nil

end Executor

namespace Overlapping

/-- The step in which a task returns ready completes it. -/
theorem eq_complete_of_step {s t : Overlapping V} {a : Act V} {id : ℕ} {v : V}
    (hs : s.step a = some t) (hev : .completed v ∈ s.taskEvents a id) :
    t.ex = s.ex.complete id v := by
  rcases a with - | i | ⟨i, cx⟩ | a | a
  case run =>
    simp only [step] at hs
    split at hs
    · exact absurd hs (by simp)
    next r rest hstack =>
      obtain ⟨⟨ex', r'⟩, hrun, rfl⟩ := Option.map_eq_some_iff.1 hs
      have hpc : s.pc = r.pc := pc_of_stack hstack
      rw [taskEvents, hpc] at hev
      rw [← Executor.eq_complete_of_runStep hrun hev, settle]
      split
      · rfl
      · rfl
  case ex => exact absurd hev (Executor.not_mem_actEvents _ _ _ _ _)
  all_goals exact absurd hev List.not_mem_nil

/-- **Results are delivered once and to the right handle.** In every run of the executor, for every
handle `h`:

* a poll of the handle returns `ready v` only after the future it was made for has returned `v`,
  which no other code had cancelled before, and only once;
* the future returns ready at most once;
* if the latest poll of the handle returned pending, the step in which the future returns ready
  wakes the waker of that poll;
* `is_finished` is true exactly when a poll of the handle would return ready. -/
theorem results_delivered (as : List (Act V)) (t : Logged (Overlapping V) ℕ (TaskEvent V))
    (hrun : (recording V).run ⟨init, fun _ ↦ []⟩ as = some t) :
    (∀ h before after waker v, t.log h = before ++ .awaited waker (.ready v) :: after →
      (∃ b₁ b₂, before = b₁ ++ .completed v :: b₂ ∧ .cancelled false ∉ b₁) ∧
        ∀ waker' v', .awaited waker' (.ready v') ∉ before) ∧
    (∀ h before after v, t.log h = before ++ .completed v :: after → ∀ v', .completed v' ∉ before) ∧
    (∀ h waker, lastAwait (t.log h) = some (waker, .pending) → ∀ a u v, t.state.step a = some u →
      .completed v ∈ t.state.taskEvents a h →
        ∃ rets, u.ex = Executor.wakeRef { t.state.ex with rets } waker) ∧
    ∀ h waker, t.state.ex.isFinished h = true ↔
      ∃ v, (t.state.ex.pollHandle h waker).1 = .ready v := by
  have hrec := recorded_of_run hrun
  refine ⟨fun h before after waker v hlog ↦ ?_, fun h before after v hlog ↦ ?_,
    fun h waker hlast a u v hs hev ↦ ?_, fun h waker ↦ Executor.isFinished_iff _ h waker⟩
  · have hl := hrec.lives h
    rw [hlog] at hl
    exact hl.of_taken
  · have hl := hrec.lives h
    rw [hlog] at hl
    exact hl.of_completed.1
  · have hrun' : (recording V).run ⟨init, fun _ ↦ []⟩ (as ++ [a]) =
        some ⟨u, fun i ↦ t.log i ++ t.state.taskEvents a i⟩ := by
      rw [Machine.run_append, hrun, Option.bind_some, Machine.run_cons_eq_some]
      exact ⟨_, Machine.step_logged_eq_some.2 ⟨u, hs, rfl⟩, rfl⟩
    -- the future has not returned ready before
    have hnot : ∀ v', .completed v' ∉ t.log h := by
      intro v' hmem
      obtain ⟨pre, post, hpre⟩ := List.append_of_mem hev
      have hl : Lives (t.log h ++ t.state.taskEvents a h) _ := (recorded_of_run hrun').lives h
      rw [hpre, ← List.append_assoc] at hl
      exact hl.of_completed.1 v' (List.mem_append_left _ hmem)
    rw [eq_complete_of_step hs hev]
    exact Executor.complete_eq_wakeRef v ((hrec.lives h).waker_of_lastAwait hlast hnot)

/-- The main future spawns a task and polls its handle with its own waker; the task returns 5 in its
first poll, which wakes the main future; the main future polls the handle again. -/
def awaitTask : List (Act ℕ) :=
  [.newRun, .poll 0 7, .run .tick, .run .tick, .run .tick, .run .tick, .run .tick, .run .tick,
    .run .tick, .ex .spawn, .ex (.pollHandle 0 (.task 0)), .run (.ret none), .run .tick, .run .tick,
    .run (.firstPoll 0), .run (.ret (some 5)), .ex (.push 0), .ex (.fire 0), .run (.ret none),
    .run .tick, .poll 0 7, .run .tick, .run .tick, .run .tick, .run .tick, .run .tick, .run .tick,
    .ex (.pollHandle 0 (.task 0))]

theorem results_delivered_awaitTask :
    ∃ t, (recording ℕ).run ⟨init, fun _ ↦ []⟩ awaitTask = some t ∧
      t.log 0 = [.spawned, .awaited (.task 0) .pending, .polled, .completed 5, .dropped] ++
        [.awaited (.task 0) (.ready 5)] ∧
      ∀ waker' v', .awaited waker' (.ready v') ∉
        ([.spawned, .awaited (.task 0) .pending, .polled, .completed 5, .dropped] :
          List (TaskEvent ℕ)) := by
  obtain ⟨t, hrun, hlog⟩ : ∃ t, (recording ℕ).run ⟨init, fun _ ↦ []⟩ awaitTask = some t ∧
      t.log 0 = [.spawned, .awaited (.task 0) .pending, .polled, .completed 5, .dropped] ++
        [.awaited (.task 0) (.ready 5)] := ⟨_, rfl, rfl⟩
  exact ⟨t, hrun, hlog, ((results_delivered awaitTask t hrun).1 0 _ [] (.task 0) 5 hlog).2⟩

end Overlapping

end LocalRuntime
