import LocalRuntime.Executor.Borrow
import LocalRuntime.Executor.PollTasks

/-!
# A poll of `run` comes to its end

A poll of a `run` future resets the wake queue the first time, polls what has been woken, polls the
main future, and then polls what has been spawned; if the main future is ready it drops all tasks
instead. Apart from the poll of the main future these are loops, and two of them go on until a queue
is empty that others fill: the reset, until no other thread has pushed, and `poll_spawned`.

`Executor.left` bounds the steps that are left of a poll. Every step takes one away, so the loops
end; a wake that pushes an id adds five and a `spawn` four. Other `run` futures may be polled inside
the main future, which moves tasks from `spawned` to the slab and leaves the bound alone (`work`).
`poll_of_run_ends` adds that a poll that is not over can make a step.
-/

namespace LocalRuntime

variable {V : Type}

/-- A task is on its way from `spawned` to the slab. -/
def Pc.carried : Pc → ℕ
  | .poppedSpawned _ | .pollFirst _ _ _ => 1
  | _ => 0

/-- What is seen of the poll of a `run` future: a step of its own, a push to the wake queue, a
`spawn`. -/
inductive PollEvent where
  | own
  | pushed
  | spawned
  deriving DecidableEq

/-- What an action from outside adds to the work of the executor. -/
def Executor.Act.costs : Act → List PollEvent
  | .push _ => [.pushed]
  | .spawn => [.spawned]
  | _ => []

theorem WakeQueue.length_push (q : WakeQueue) (val : ℕ) (onLocal : Bool) :
    (q.push val onLocal).localIds.length + (q.push val onLocal).concurrent.length =
      q.localIds.length + q.concurrent.length + 1 := by
  cases onLocal with
  | false => exact congrArg (q.localIds.length + ·) List.length_append
  | true =>
    show (q.localIds ++ [val]).length + q.concurrent.length = _
    rw [List.length_append, List.length_singleton]
    omega

namespace Executor

variable {ex ex' : Executor V} {r r' : Run} {pc top : Pc}

/-- What the tasks can still cost, if the innermost `run` future is at `top`: four steps for the
first poll of a spawned task, and one for the drop of a task of the slab. -/
def work (ex : Executor V) (top : Pc) : ℕ :=
  4 * ex.spawned.length + ex.tasks.values.length + top.carried

/-- The steps that are left of the poll of a `run` future at most, if the innermost one is at `top`
and nothing is pushed or spawned. -/
def left (ex : Executor V) (top : Pc) : Pc → ℕ
  | .created | .pending | .done => 0
  | .resetting => 5 * (ex.queue.localIds.length + ex.queue.concurrent.length) + ex.work top + 11
  | .register => 5 * (ex.queue.localIds.length + ex.queue.concurrent.length) + ex.work top + 10
  | .snapshot => 5 * (ex.queue.localIds.length + ex.queue.concurrent.length) + ex.work top + 9
  | .drain d => 5 * (d.localLen + d.conLen) + ex.work top + 8
  | .popped _ d => 5 * (d.localLen + d.conLen) + ex.work top + 12
  | .pollTask _ d => 5 * (d.localLen + d.conLen) + ex.work top + 11
  | .readyTask _ d => 5 * (d.localLen + d.conLen) + ex.work top + 10
  | .dropTask d => 5 * (d.localLen + d.conLen) + ex.work top + 9
  | .mainCheck _ => ex.work top + 7
  | .pollMain => ex.work top + 6
  | .pollSpawned => 4 * ex.spawned.length + 2
  | .nextSpawned => 4 * ex.spawned.length + 1
  | .poppedSpawned _ => 4 * ex.spawned.length + 4
  | .pollFirst _ _ _ => 4 * ex.spawned.length + 3
  | .dropSpawned => 4 * ex.spawned.length + 2
  | .completed => ex.tasks.values.length + ex.spawned.length + 5
  | .clearTasks n => n + ex.spawned.length + 4
  | .cleared => ex.spawned.length + 3
  | .clearSpawned n => n + 2
  | .dropMain => 1

theorem work_complete (ex : Executor V) (id : ℕ) (v : V) (top : Pc) :
    (ex.complete id v).work top = ex.work top := by
  obtain ⟨_, _, _, _, heq⟩ := exists_complete_eq ex id v
  rw [heq]
  rfl

theorem left_complete (ex : Executor V) (id : ℕ) (v : V) (top pc : Pc) :
    (ex.complete id v).left top pc = ex.left top pc := by
  obtain ⟨_, _, _, _, heq⟩ := exists_complete_eq ex id v
  rw [heq]
  cases pc <;> rfl

/-- **Every step of a poll takes one away**, unless it panics. -/
theorem Trans.left_lt (ht : ex.Trans r ex' r') :
    ex'.panic ≠ none ∨ ex'.left r'.pc r'.pc < ex.left r.pc r.pc := by
  cases ht
  case borrowTasks | borrowSpawned | unwrap | mainTaskId => exact Or.inl (by simp [crash])
  case readyTask hpc _ | readyFirst hpc =>
    rw [left_complete, hpc]
    exact Or.inr (Nat.lt_succ_self _)
  case removeCancelled id d _ hpc _ _ _ =>
    have hle := ex.tasks.length_values_remove_le id
    refine Or.inr ?_
    simp only [hpc, left, work, Pc.carried]
    omega
  case removeReady key d hpc =>
    have hle := ex.tasks.length_values_remove_le key
    refine Or.inr ?_
    simp only [hpc, left, work, Pc.carried]
    omega
  case popSpawned task hpc _ hlast =>
    have hpos := List.length_pos_iff.2 (List.ne_nil_of_mem (List.mem_of_getLast? hlast))
    refine Or.inr ?_
    simp only [hpc, left, List.length_dropLast]
    omega
  -- elsewhere the place alone, or the place and the queue it pops from, say what is left
  all_goals
    refine Or.inr ?_
    simp only [left, work, Pc.carried, toSleep, setAwoken, fromSpawned, List.length_cons, *]
    omega

/-- **What the tasks can cost does not grow** by the steps of a `run` future. -/
theorem Trans.work_le (ht : ex.Trans r ex' r') : ex'.work r'.pc ≤ ex.work r.pc := by
  cases ht
  case resetPop | borrowTasks | borrowSpawned | unwrap | mainTaskId => exact Nat.le_refl _
  case readyTask | readyFirst =>
    rw [work_complete]
    exact Nat.le_add_right _ _
  case removeCancelled id d _ _ _ _ _ =>
    have hle := ex.tasks.length_values_remove_le id
    simp only [work, Pc.carried]
    omega
  case removeReady key d _ =>
    have hle := ex.tasks.length_values_remove_le key
    simp only [work, Pc.carried]
    omega
  case popSpawned task hpc _ hlast =>
    have hpos := List.length_pos_iff.2 (List.ne_nil_of_mem (List.mem_of_getLast? hlast))
    simp only [work, Pc.carried, List.length_dropLast]
    omega
  case pendingFirst task w key hpc =>
    -- the task that was carried is in the slab
    have hle := ex.tasks.length_values_insert_le key ⟨task.id, w⟩
    simp only [hpc, work, Pc.carried]
    omega
  case firstPoll hpc _ _ =>
    simp only [hpc, work, fromSpawned, Pc.carried]
    exact Nat.le_refl _
  case clear =>
    simp only [work, Pc.carried, Slab.values, Slab.empty, List.filterMap_nil, List.length_nil]
    omega
  case clearSpawned =>
    simp only [work, Pc.carried, List.length_nil]
    omega
  all_goals exact Nat.le_add_right _ _

theorem left_le {n m : ℕ}
    (hqueue : ex'.queue.localIds.length + ex'.queue.concurrent.length ≤
      ex.queue.localIds.length + ex.queue.concurrent.length + n)
    (hspawned : ex'.spawned.length ≤ ex.spawned.length + m) (htasks : ex'.tasks = ex.tasks)
    (top pc : Pc) : ex'.left top pc ≤ ex.left top pc + 5 * n + 4 * m := by
  cases pc <;> simp only [left, work, htasks] <;> omega

/-- In its main future a poll is left with what the tasks can cost. -/
theorem left_le_of_work {top' : Pc} (h : ex'.work top' ≤ ex.work top)
    (hpc : pc = .pollMain ∨ pc = .dropMain) : ex'.left top' pc ≤ ex.left top pc := by
  obtain rfl | rfl := hpc
  · exact Nat.add_le_add_right h 6
  · exact Nat.le_refl _

/-- **What is done from outside is paid for.** -/
theorem left_act {a : Act} (ha : ex.act a = some ex') (top pc : Pc) :
    ex'.left top pc ≤ ex.left top pc + 5 * a.costs.count .pushed + 4 * a.costs.count .spawned := by
  refine left_le ?_ ?_ (touch_of_act ha).tasks_eq top pc
  · rcases a with - | h | ⟨h, waker⟩ | ⟨w, onLocal⟩ | i | i | b
    · obtain rfl := Option.some.inj ha
      rw [spawn]
      split <;> exact Nat.le_refl _
    · obtain rfl := Option.some.inj ha
      obtain ⟨_, _, heq⟩ := exists_cancel_eq ex h
      rw [heq]
      exact Nat.le_refl _
    · obtain rfl := Option.some.inj ha
      obtain ⟨_, heq⟩ := exists_pollHandle_eq ex h waker
      rw [heq]
      exact Nat.le_refl _
    · obtain rfl := Option.some.inj ha
      obtain ⟨_, _, heq⟩ := exists_wake_eq ex w onLocal
      rw [heq]
      exact Nat.le_refl _
    · obtain ⟨_, _, tw, -, -, rfl⟩ := push_eq_some ha
      exact (ex.queue.length_push tw.taskId _).le
    · obtain ⟨_, _, -, rfl⟩ := fire_eq_some ha
      exact Nat.le_refl _
    · obtain rfl := Option.some.inj ha
      exact Nat.le_refl _
  · rcases eq_or_ne a .spawn with rfl | hne
    · obtain rfl := Option.some.inj ha
      rw [spawn]
      split
      · exact Nat.le_succ _
      · exact (List.length_append).le
    · rw [(spawned_of_act ha hne).1]
      exact Nat.le_add_right _ _

/-- What is left when the poll begins. -/
theorem left_of_beginPoll {cx : ℕ} (h : ex.beginPoll r cx = some (ex', r')) :
    ex'.left r'.pc r'.pc < 5 * (ex'.queue.localIds.length + ex'.queue.concurrent.length) +
      4 * ex'.spawned.length + ex'.tasks.values.length + 12 := by
  obtain ⟨-, rfl, rfl⟩ | ⟨-, rfl, rfl⟩ := beginPoll_cases h
  · simp only [left, work, Pc.carried]
    omega
  · simp only [left, work, Pc.carried]
    omega

/-! ### A step is possible -/

/-- The thread that is free can go on, wherever it is. Only a task that has been popped from
`spawned` needs a vacant key. -/
theorem exists_runStep (hfree : ex.LocalFree) (hidle : r.pc.isIdle = false)
    (hpc : ∀ task, r.pc ≠ .poppedSpawned task) : ∃ a, (ex.runStep r a).isSome := by
  by_cases hdraining : r.pc.draining = .idle
  swap
  · exact exists_runStep_of_draining hdraining hfree
  rcases hr : r.pc
  case created | pending | done => exact absurd hidle (by simp [hr, Pc.isIdle])
  case drain | popped | pollTask | readyTask | dropTask =>
    exact absurd hdraining (by simp [hr, Pc.draining])
  case poppedSpawned task => exact absurd hr (hpc task)
  case pollMain | pollFirst | dropSpawned | dropMain =>
    exact ⟨.ret none, by simp [runStep, hfree, ret, hr]⟩
  case clearTasks n | clearSpawned n =>
    cases n with
    | zero => exact ⟨.tick, by simp [runStep, hfree, tick, hr]⟩
    | succ n => exact ⟨.ret none, by simp [runStep, hfree, ret, hr]⟩
  case register => exact ⟨.tick, by simp [runStep, hfree, tick, hr]⟩
  case nextSpawned =>
    refine ⟨.tick, ?_⟩
    simp only [runStep, hfree, if_true, tick, hr]
    split
    · rfl
    · split <;> rfl
  all_goals
    refine ⟨.tick, ?_⟩
    simp only [runStep, hfree, if_true, tick, hr]
    split <;> rfl

theorem panic_of_runStep {b : RunAct V} (h : ex.runStep r b = some (ex', r')) :
    ex.panic = none := by
  simp only [runStep, Option.ite_none_right_eq_some] at h
  exact h.1.1

/-- A task that has been popped is dropped if it is cancelled, and polled at the key past the end of
the slab if not. -/
theorem exists_runStep_of_poppedSpawned {task : SpawnedTask} (hfree : ex.LocalFree)
    (hpc : r.pc = .poppedSpawned task) (hroom : ex.tasks.entries.length < MAIN_TASK_ID) :
    ∃ a ex' r', ex.runStep r a = some (ex', r') ∧ ex'.panic = none := by
  rcases hcancelled : ex.isCancelled task.id with - | -
  · have hvacant : ex.tasks.IsVacant ex.tasks.entries.length := ⟨Nat.le_refl _, by simp [Slab.get]⟩
    refine ⟨.firstPoll ex.tasks.entries.length, ex.fromSpawned task ex.tasks.entries.length,
      { r with pc := .pollFirst task ex.wakers.length ex.tasks.entries.length }, ?_, hfree.1⟩
    simp only [runStep, hfree, if_true, firstPoll, hpc, hcancelled, hvacant, hroom.ne, if_false,
      Bool.false_eq_true]
  · refine ⟨.tick, ex, { r with pc := .dropSpawned }, ?_, hfree.1⟩
    simp only [runStep, hfree, if_true, tick, hpc, hcancelled]

theorem panic_complete (ex : Executor V) (id : ℕ) (v : V) :
    (ex.complete id v).panic = ex.panic := by
  obtain ⟨_, _, _, _, heq⟩ := exists_complete_eq ex id v
  rw [heq]

theorem Trans.panic_ne_mainTaskId (ht : ex.Trans r ex' r') (hpanic : ex.panic = none)
    (hpc : ∀ task, r.pc ≠ .poppedSpawned task) : ex'.panic ≠ some .mainTaskId := by
  cases ht
  case mainTaskId task hpc' => exact absurd hpc' (hpc task)
  case borrowTasks | borrowSpawned | unwrap => simp [crash]
  case readyTask | readyFirst => simp [panic_complete, hpanic]
  case sleepTask | sleepMain => simp [toSleep, setAwoken, hpanic]
  case firstPoll => simp [fromSpawned, hpanic]
  all_goals simp [hpanic]

end Executor

/-! ### The polls of `run` futures inside each other -/

namespace Overlapping

variable {s t : Overlapping V} {a : Act V} {inner rest : List Run} {r : Run}

/-- The events of an action, for the `run` future that is the `d`th that is being polled. -/
def pollEvents (d : ℕ) (s : Overlapping V) : Act V → List PollEvent
  | .run _ => if s.stack.length = d then [.own] else []
  | .ex a => a.costs
  | _ => []

/-- The machine that keeps these events. -/
def metered (V : Type) (d : ℕ) : Machine (Logged (Overlapping V) Unit PollEvent) (Act V) :=
  (machine V).logged fun s a _ ↦ s.pollEvents d a

/-- Nobody takes a panic back. -/
theorem panic_of_step (hs : s.step a = some t) (hpanic : t.ex.panic = none) :
    s.ex.panic = none := by
  cases step_cases hs
  case newRun | dropRun => exact hpanic
  case poll hbegin =>
    obtain ⟨-, rfl, rfl⟩ | ⟨-, rfl, rfl⟩ := Executor.beginPoll_cases hbegin
    · exact hpanic
    · exact hpanic
  case run hstack hstep => exact Executor.panic_of_runStep hstep
  case ex b ex' hact _ =>
    rcases eq_or_ne b .spawn with rfl | hne
    · obtain rfl := Option.some.inj hact
      simp only [Executor.spawn] at hpanic
      split at hpanic
      · cases hpanic
      · exact hpanic
    · exact (Executor.panic_of_act hact hne).symm.trans hpanic

/-- As long as nothing has panicked the guards are in order. -/
theorem borrowInv_of_run {as : List (Act V)} (hrun : (machine V).run init as = some s)
    (hpanic : s.ex.panic = none) : BorrowInv s := by
  refine Machine.run_preserves (M := machine V) (I := fun s ↦ s.ex.panic = none → BorrowInv s)
    (fun s a t h hs hpanic ↦ ?_) (fun _ ↦ .init) hrun hpanic
  have hinv := h (panic_of_step hs hpanic)
  by_cases hC : SpawnsUnguarded s a
  · exact hinv.step hC hs
  · exact absurd ((hinv.panic_of_guarded hC hs).symm.trans hpanic) (by simp)

/-- A `run` future that is being polled is not idle. -/
theorem not_idle_of_run {as : List (Act V)} (hrun : (machine V).run init as = some s) :
    ∀ r ∈ s.stack, r.pc.isIdle = false := by
  refine Machine.run_preserves (M := machine V) (I := fun s ↦ ∀ r ∈ s.stack, r.pc.isIdle = false)
    (fun s a t h hs ↦ ?_) (fun r hr ↦ absurd hr List.not_mem_nil) hrun
  cases step_cases hs
  case newRun | dropRun | ex => exact h
  case poll r r' ex' hr hcan hbegin =>
    refine List.forall_mem_cons.2 ⟨?_, h⟩
    obtain ⟨-, -, rfl⟩ | ⟨-, -, rfl⟩ := Executor.beginPoll_cases hbegin
    · rfl
    · rfl
  case run hstack _ =>
    rw [hstack] at h
    rw [settle]
    split
    · exact fun r hr ↦ h r (List.mem_cons_of_mem _ hr)
    next hidle =>
      exact List.forall_mem_cons.2 ⟨Bool.eq_false_iff.2 hidle, (List.forall_mem_cons.1 h).2⟩

/-- **A poll that is not over can make a step**, which does not panic if there is room in the
slab. -/
theorem exists_run_step {as : List (Act V)} (hrun : (machine V).run init as = some s)
    (hstack : s.stack ≠ []) (hfree : s.ex.LocalFree)
    (hroom : s.ex.tasks.entries.length < MAIN_TASK_ID) :
    ∃ b v, s.step (.run b) = some v ∧ v.ex.panic = none := by
  obtain ⟨r, rest, hstack⟩ := List.exists_cons_of_ne_nil hstack
  by_cases hpc : ∃ task, r.pc = .poppedSpawned task
  · obtain ⟨task, hpc⟩ := hpc
    obtain ⟨b, ex', r', hstep, hpanic⟩ := Executor.exists_runStep_of_poppedSpawned hfree hpc hroom
    refine ⟨b, settle ex' s.idle rest r', ?_, by rwa [ex_settle]⟩
    simp only [step, hstack, hstep, Option.map_some]
  · rw [not_exists] at hpc
    have hidle := not_idle_of_run hrun r (hstack ▸ List.mem_cons_self)
    obtain ⟨b, hsome⟩ := Executor.exists_runStep hfree hidle hpc
    obtain ⟨⟨ex', r'⟩, hstep⟩ := Option.isSome_iff_exists.1 hsome
    have hs : s.step (.run b) = some (settle ex' s.idle rest r') := by
      simp only [step, hstack, hstep, Option.map_some]
    refine ⟨b, settle ex' s.idle rest r', hs, ?_⟩
    -- each of the three panics is excluded for a reason of its own
    have hborrow := ((borrowInv_of_run hrun hfree.1).step (fun heq ↦ by cases heq) hs).panic_ne
    have hunwrap := ((drainBound_of_run hrun).step hs).panic_ne
    have hmain := (Executor.trans_of_runStep hstep).panic_ne_mainTaskId hfree.1 hpc
    rw [ex_settle] at hborrow hunwrap ⊢
    cases hpanic : ex'.panic with
    | none => rfl
    | some p =>
      cases p with
      | borrow => exact absurd hpanic hborrow
      | unwrap => exact absurd hpanic hunwrap
      | mainTaskId => exact absurd hpanic hmain

theorem carried_settle (ex' : Executor V) (idle : List Run) (r' : Run)
    (henclosing : ∀ r ∈ rest, r.pc = .pollMain ∨ r.pc = .dropMain) :
    (settle ex' idle rest r').pc.carried = r'.pc.carried := by
  obtain hpc | ⟨hidle, hpc⟩ := pc_settle ex' idle r' henclosing
  · rw [hpc]
  · have hzero : r'.pc.carried = 0 := by
      cases hr : r'.pc
      case poppedSpawned | pollFirst => exact absurd hidle (by simp [hr, Pc.isIdle])
      all_goals rfl
    rw [hzero]
    obtain hpc | hpc | hpc := hpc <;> rw [hpc] <;> rfl

/-- **What a step costs a poll that is under way.** The poll goes on above the same `run` futures,
or is over. -/
theorem left_step (henclosing : ∀ r ∈ s.stack.tail, r.pc = .pollMain ∨ r.pc = .dropMain)
    (hstack : s.stack = inner ++ r :: rest) (hs : s.step a = some t) :
    t.stack = rest ∨ ∃ inner' r', t.stack = inner' ++ r' :: rest ∧
      (t.ex.panic = none → t.ex.left t.pc r'.pc + (s.pollEvents (rest.length + 1) a).count .own ≤
        s.ex.left s.pc r.pc + 5 * (s.pollEvents (rest.length + 1) a).count .pushed +
          4 * (s.pollEvents (rest.length + 1) a).count .spawned) := by
  cases step_cases hs
  case newRun | dropRun => exact Or.inr ⟨inner, r, hstack, fun _ ↦ Nat.le_refl _⟩
  case poll i cx r₁ r' ex' hr hcan hbegin =>
    refine Or.inr ⟨r' :: inner, r, congrArg (r' :: ·) hstack, fun _ ↦ ?_⟩
    have hmain : r.pc = .pollMain ∨ r.pc = .dropMain :=
      forall_mem_stack_of_canPoll hcan (fun _ hpc ↦ hpc) henclosing r (by simp [hstack])
    have hwork : ex'.work r'.pc ≤ s.ex.work s.pc := by
      obtain ⟨-, rfl, rfl⟩ | ⟨-, rfl, rfl⟩ := Executor.beginPoll_cases hbegin
      · exact Nat.le_add_right _ _
      · exact Nat.le_add_right _ _
    exact Executor.left_le_of_work hwork hmain
  case run b r₁ r' rest₁ ex' hstack₁ hstep =>
    have ht := Executor.trans_of_runStep hstep
    rw [hstack₁, List.tail_cons] at henclosing
    rcases inner with - | ⟨r₀, inner⟩
    · -- a step of the poll itself
      obtain ⟨rfl, rfl⟩ := List.cons.inj (hstack₁.symm.trans hstack)
      have hown : s.pollEvents (rest₁.length + 1) (.run b) = [.own] := by
        simp [pollEvents, hstack₁]
      by_cases hidle : r'.pc.isIdle = true
      · exact Or.inl (by rw [settle, if_pos hidle])
      refine Or.inr ⟨[], r', by rw [settle, if_neg hidle]; rfl, fun hpanic ↦ ?_⟩
      rw [ex_settle] at hpanic
      have hlt := ht.left_lt.resolve_left (fun hne ↦ hne hpanic)
      rw [hown, settle, if_neg hidle, pc_of_stack hstack₁]
      exact hlt
    · -- a step of a poll inside it
      rw [List.cons_append] at hstack
      obtain ⟨rfl, rfl⟩ := List.cons.inj (hstack₁.symm.trans hstack)
      have hnot : s.pollEvents (rest.length + 1) (.run b) = [] := by
        have hne : s.stack.length ≠ rest.length + 1 := by
          simp only [hstack, List.length_cons, List.length_append]
          omega
        simp [pollEvents, hne]
      have hwork : (settle ex' s.idle (inner ++ r :: rest) r').ex.work
          (settle ex' s.idle (inner ++ r :: rest) r').pc ≤ s.ex.work s.pc := by
        rw [Executor.work, carried_settle ex' s.idle r' henclosing, ex_settle, pc_of_stack hstack₁]
        exact ht.work_le
      have hle := Executor.left_le_of_work hwork (henclosing r (by simp))
      rw [hnot]
      by_cases hidle : r'.pc.isIdle = true
      · exact Or.inr ⟨inner, r, by rw [settle, if_pos hidle], fun _ ↦ hle⟩
      · exact Or.inr ⟨r' :: inner, r, by rw [settle, if_neg hidle]; rfl, fun _ ↦ hle⟩
  case ex b ex' hact _ =>
    refine Or.inr ⟨inner, r, hstack, fun _ ↦ ?_⟩
    have hown : b.costs.count .own = 0 := by cases b <;> rfl
    show ex'.left s.pc r.pc + b.costs.count .own ≤ _
    rw [hown]
    exact Executor.left_act hact s.pc r.pc

/-- A step of the poll itself is made by a thread that has not panicked. -/
theorem count_own (hs : s.step a = some t) (d : ℕ) :
    (s.pollEvents d a).count .own = 0 ∨ (s.pollEvents d a).count .own = 1 ∧ s.ex.panic = none := by
  cases step_cases hs
  case newRun | dropRun | poll => exact Or.inl rfl
  case run b _ _ _ _ _ hstep =>
    rw [pollEvents]
    split
    · exact Or.inr ⟨rfl, Executor.panic_of_runStep hstep⟩
    · exact Or.inl rfl
  case ex b _ _ _ =>
    refine Or.inl ?_
    cases b <;> rfl

variable {x u : Logged (Overlapping V) Unit PollEvent} {B : ℕ} {bs : List (Act V)}

/-- The steps that the poll above `rest` may make: those it was given, and those that have been paid
for. -/
def budget (B : ℕ) (x : Logged (Overlapping V) Unit PollEvent) : ℕ :=
  B + 5 * (x.log ()).count .pushed + 4 * (x.log ()).count .spawned

/-- The poll above `rest` has made no more steps than it may, nor will it with those that are
left. -/
structure WithinBudget (rest : List Run) (B : ℕ) (x : Logged (Overlapping V) Unit PollEvent) :
    Prop where
  own_le : (x.log ()).count .own ≤ budget B x
  left_le : x.state.stack = rest ∨ ∃ inner r, x.state.stack = inner ++ r :: rest ∧
    (x.state.ex.panic = none →
      (x.log ()).count .own + x.state.ex.left x.state.pc r.pc + 1 ≤ budget B x)

/-- **One step stays within the budget.** -/
theorem WithinBudget.step (h : WithinBudget rest B x)
    (henclosing : ∀ r ∈ x.state.stack.tail, r.pc = .pollMain ∨ r.pc = .dropMain)
    (hgoes : rest.length < x.state.stack.length) (hs : x.state.step a = some t) :
    WithinBudget rest B ⟨t, fun i ↦ x.log i ++ x.state.pollEvents (rest.length + 1) a⟩ := by
  rcases h.left_le with heq | ⟨inner, r, hstack, hleft⟩
  · exact absurd (congrArg List.length heq) hgoes.ne'
  refine ⟨?_, (left_step henclosing hstack hs).imp_right ?_⟩
  · have hle := h.own_le
    simp only [budget, List.count_append] at hle hleft ⊢
    rcases count_own hs (rest.length + 1) with hown | ⟨hown, hpanic⟩
    · omega
    · have hleft := hleft hpanic
      omega
  · rintro ⟨inner', r', hstack', hstep⟩
    refine ⟨inner', r', hstack', fun hpanic ↦ ?_⟩
    have hleft := hleft (panic_of_step hs hpanic)
    have hstep := hstep hpanic
    simp only [budget, List.count_append] at hleft ⊢
    omega

theorem WithinBudget.run (h : WithinBudget rest B x)
    (henclosing : ∀ r ∈ x.state.stack.tail, r.pc = .pollMain ∨ r.pc = .dropMain)
    (hgoes : (machine V).AllSteps (fun v _ ↦ rest.length < v.stack.length) x.state bs)
    (hrun : (metered V (rest.length + 1)).run x bs = some u) : WithinBudget rest B u := by
  have hinv : (∀ r ∈ u.state.stack.tail, r.pc = .pollMain ∨ r.pc = .dropMain) ∧
      WithinBudget rest B u := by
    refine Machine.run_logged_preserves (I := fun x ↦
      (∀ r ∈ x.state.stack.tail, r.pc = .pollMain ∨ r.pc = .dropMain) ∧ WithinBudget rest B x)
      (fun y a v hy hgoes hv ↦ ?_) ⟨henclosing, h⟩ hgoes hrun
    exact ⟨enclosing_step hy.1 hv, hy.2.step hy.1 hgoes hv⟩
  exact hinv.2

/-- **A poll of `run` comes to its end.** In every run of the executor, with any tasks and any
number of `run` futures, take a poll of one of them and go on for as long as it is not over; other
`run` futures may be polled inside its main future. It makes at most five steps for each id that is
in the wake queue at its start or is pushed meanwhile, four for each task that is spawned then or
meanwhile, one for each task of the slab, and twelve more. And as long as it is not over it, or the
poll inside it, can make a step once the thread is free, and one that does not panic if there is
room in the slab. -/
theorem poll_of_run_ends {as : List (Act V)} {i cx : ℕ} (hreach : (machine V).run init as = some s)
    (hpoll : s.step (.poll i cx) = some t)
    (hgoes : (machine V).AllSteps (fun v _ ↦ s.stack.length < v.stack.length) t bs)
    (hrun : (metered V (s.stack.length + 1)).run ⟨t, fun _ ↦ []⟩ bs = some u) :
    (u.log ()).count .own ≤
      5 * (t.ex.queue.localIds.length + t.ex.queue.concurrent.length + (u.log ()).count .pushed) +
        4 * (t.ex.spawned.length + (u.log ()).count .spawned) + t.ex.tasks.values.length + 12 ∧
    (s.stack.length < u.state.stack.length → u.state.ex.LocalFree →
      u.state.ex.tasks.entries.length < MAIN_TASK_ID →
      ∃ b v, u.state.step (.run b) = some v ∧ v.ex.panic = none) := by
  have hstart : (machine V).run init (as ++ [.poll i cx]) = some t := by
    rw [Machine.run_append, hreach, Option.bind_some]
    exact (Machine.run_cons_eq_some _).2 ⟨t, hpoll, rfl⟩
  constructor
  · have henclosing := (drainBound_of_run hstart).enclosing
    have hbudget : WithinBudget s.stack
        (5 * (t.ex.queue.localIds.length + t.ex.queue.concurrent.length) + 4 * t.ex.spawned.length +
          t.ex.tasks.values.length + 12) ⟨t, fun _ ↦ []⟩ := by
      refine ⟨Nat.zero_le _, Or.inr ?_⟩
      cases step_cases hpoll
      case poll r r' ex' _ _ hbegin =>
        refine ⟨[], r', rfl, fun _ ↦ ?_⟩
        have hleft := Executor.left_of_beginPoll hbegin
        show 0 + ex'.left r'.pc r'.pc + 1 ≤
          5 * (ex'.queue.localIds.length + ex'.queue.concurrent.length) + 4 * ex'.spawned.length +
            ex'.tasks.values.length + 12 + 5 * 0 + 4 * 0
        omega
    have hle := (hbudget.run henclosing hgoes hrun).own_le
    rw [budget] at hle
    omega
  · intro hlt hfree hroom
    have hend : (machine V).run init (as ++ [.poll i cx] ++ bs) = some u.state := by
      rw [Machine.run_append, hstart, Option.bind_some]
      exact Machine.state_of_run_logged hrun
    refine exists_run_step hend ?_ hfree hroom
    exact List.ne_nil_of_length_pos ((Nat.zero_le _).trans_lt hlt)

/-- A `run` future is polled as far as its main future, which spawns two tasks and polls another
`run` future. That one polls the two tasks for the first time and wakes one of them. -/
def pollInside : List (Act Unit) :=
  List.flatten [List.replicate 7 (.run .tick), [.ex .spawn, .ex .spawn, .poll 0 8],
    List.replicate 7 (.run .tick), [.run (.ret none), .run .tick, .run .tick, .run (.firstPoll 0)],
    [.run (.ret none), .run .tick, .run (.firstPoll 1), .run (.ret none), .run .tick],
    [.ex (.wake 2 true), .ex (.push 0), .ex (.fire 0), .run (.ret none), .run .tick]]

theorem poll_of_run_ends_pollInside :
    ∃ s t u, (machine Unit).run init [.newRun, .newRun] = some s ∧ s.step (.poll 0 7) = some t ∧
      (metered Unit 1).run ⟨t, fun _ ↦ []⟩ pollInside = some u ∧ (u.log ()).count .own = 9 ∧
      u.state.ex.tasks.values.length = 2 ∧
      (u.log ()).count .own ≤ 5 * (1 + 0 + (u.log ()).count .pushed) +
        4 * (0 + (u.log ()).count .spawned) + 0 + 12 ∧
      ∃ b v, u.state.step (.run b) = some v ∧ v.ex.panic = none := by
  obtain ⟨s, hreach, hs, t, ht, hlocal, hcon, hspawned, htasks, u, hu, hown, hvalues, hstack,
    hfree, hroom,
      hgoes⟩ : ∃ s, (machine Unit).run init [.newRun, .newRun] = some s ∧ s.stack = [] ∧
      ∃ t, s.step (.poll 0 7) = some t ∧ t.ex.queue.localIds.length = 1 ∧
        t.ex.queue.concurrent.length = 0 ∧ t.ex.spawned.length = 0 ∧ t.ex.tasks.values.length = 0 ∧
      ∃ u, (metered Unit 1).run ⟨t, fun _ ↦ []⟩ pollInside = some u ∧ (u.log ()).count .own = 9 ∧
        u.state.ex.tasks.values.length = 2 ∧ u.state.stack.length = 1 ∧ u.state.ex.LocalFree ∧
        u.state.ex.tasks.entries.length < MAIN_TASK_ID ∧
        (machine Unit).AllSteps (fun v _ ↦ 0 < v.stack.length) t pollInside := by
    refine ⟨_, rfl, rfl, _, rfl, rfl, rfl, rfl, rfl, _, rfl, rfl, rfl, rfl, ?_, ?_, ?_⟩
    · decide
    · decide
    · decide
  have hzero : s.stack.length = 0 := congrArg List.length hs
  obtain ⟨hle, hstep⟩ := poll_of_run_ends hreach ht (by rwa [hzero]) (by rwa [hzero])
  rw [hlocal, hcon, hspawned, htasks] at hle
  refine ⟨s, t, u, hreach, ht, hu, hown, hvalues, hle, hstep ?_ hfree hroom⟩
  rw [hzero, hstack]
  exact Nat.one_pos

end Overlapping

end LocalRuntime
