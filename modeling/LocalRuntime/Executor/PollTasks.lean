import LocalRuntime.Executor.Drain
import LocalRuntime.Executor.Histories

/-!
# `poll_tasks` drains the wake queue

`Executor::poll_tasks` is a call of `drain_for_each` with the callback that polls a task. The pops
of its ids are the pops of `Draining`, and what its callback does is a stutter
(`Overlapping.draining_step`). In every reachable state the bounds that it has read are met by the
queues (`DrainBound`), so it ends after a number of steps that its start fixes, even if every task
wakes itself.
-/

namespace LocalRuntime

variable {V : Type}

/-! ### The call in `poll_tasks` -/

/-- The call of `drain_for_each` that a `run` future is in. -/
def Pc.draining : Pc → DrainPc
  | .drain d => .loop d.localLen d.conLen
  | .popped _ d | .pollTask _ d | .readyTask _ d | .dropTask d => .callback d.localLen d.conLen
  | _ => .idle

/-- The steps that are left at most of `poll_tasks`, once it has read the lengths. -/
def Pc.stepsLeft : Pc → ℕ
  | .drain d => 5 * (d.localLen + d.conLen) + 1
  | .popped _ d => 5 * (d.localLen + d.conLen) + 5
  | .pollTask _ d => 5 * (d.localLen + d.conLen) + 4
  | .readyTask _ d => 5 * (d.localLen + d.conLen) + 3
  | .dropTask d => 5 * (d.localLen + d.conLen) + 2
  | _ => 0

theorem Pc.cases_of_draining {pc : Pc} (h : pc.draining ≠ .idle) :
    ∃ d, pc = .drain d ∨ (∃ id, pc = .popped id d) ∨ (∃ key, pc = .pollTask key d) ∨
      (∃ key, pc = .readyTask key d) ∨ pc = .dropTask d := by
  cases pc
  case drain d | popped d | pollTask d | readyTask d | dropTask d => exact ⟨d, by simp⟩
  all_goals exact absurd rfl h

theorem Pc.draining_of_isIdle {pc : Pc} (h : pc.isIdle = true) :
    pc.draining = .idle ∧ pc.stepsLeft = 0 := by
  cases pc
  case created | pending | done => exact ⟨rfl, rfl⟩
  all_goals cases h

/-- The ids of the queue, without the base waker. -/
def WakeQueue.ids (q : WakeQueue) : WakeQueue := { q with baseWaker := .new }

namespace Executor

variable {ex ex' : Executor V} {r r' : Run}

/-- From outside, ids are only pushed. -/
theorem Touch.ids_eq (ht : Touch ex ex') :
    ex'.queue.ids = ex.queue.ids ∨ ∃ val b, ex'.queue.ids = ex.queue.ids.push val b := by
  cases ht
  case push b tw _ _ _ _ _ hqueue =>
    refine Or.inr ⟨tw.taskId, b, ?_⟩
    rw [hqueue]
    cases b with
    | true => rfl
    | false => rfl
  all_goals
    refine Or.inl ?_
    rw [‹ex'.queue = _›]
    first | done | rfl

/-- No `unwrap` panics from outside. -/
theorem panic_ne_unwrap_of_act {a : Act} (hact : ex.act a = some ex')
    (h : ex.panic ≠ some .unwrap) : ex'.panic ≠ some .unwrap := by
  by_cases ha : a = .spawn
  · rw [ha] at hact
    obtain rfl := Option.some.inj hact
    rw [spawn]
    split
    · simp
    · exact h
  · rw [panic_of_act hact ha]
    exact h

/-- The future of a task that ends pushes nothing. -/
theorem ids_complete (ex : Executor V) (id : ℕ) (v : V) :
    (ex.complete id v).queue.ids = ex.queue.ids := by
  obtain ⟨_, _, _, _, heq⟩ := exists_complete_eq ex id v
  rw [heq]
  rfl

/-- **What a step of `poll_tasks` is for the call**: a pop, the end of the loop, the return of the
callback, or something that the callback does. It is one step less of those that are left; only a
local queue shorter than its bound makes it panic. -/
theorem Trans.draining_cases (ht : ex.Trans r ex' r') (hpc : r.pc.draining ≠ .idle) :
    (∃ ds, .start ∉ ds ∧ r'.pc.stepsLeft < r.pc.stepsLeft ∧ ex'.panic = ex.panic ∧
        Draining.machine.run ⟨ex.queue.ids, r.pc.draining⟩ ds =
          some ⟨ex'.queue.ids, r'.pc.draining⟩) ∨
      ∃ n m, r.pc.draining = .loop (n + 1) m ∧ ex.queue.localIds = [] := by
  cases ht
  case popLocal n m awoken id rest hpc' hq =>
    refine Or.inl ⟨[.tick], by simp, ?_, rfl, ?_⟩
    · simp only [hpc', Pc.stepsLeft]
      omega
    · simp [hpc', Pc.draining, Machine.run, Draining.machine, Draining.step, Draining.tick,
        WakeQueue.ids, hq]
  case popConcurrent m awoken id rest hpc' hq =>
    refine Or.inl ⟨[.tick], by simp, ?_, rfl, ?_⟩
    · simp only [hpc', Pc.stepsLeft]
      omega
    · simp [hpc', Pc.draining, Machine.run, Draining.machine, Draining.step, Draining.tick,
        WakeQueue.ids, hq]
  case drained m awoken hpc' hq =>
    refine Or.inl ⟨[.tick], by simp, ?_, rfl, ?_⟩
    · simp only [hpc', Pc.stepsLeft]
      omega
    · rcases m with - | m
      · simp [hpc', Pc.draining, Machine.run, Draining.machine, Draining.step, Draining.tick,
          WakeQueue.ids]
      · obtain hq : ex.queue.concurrent = [] := by simpa using hq
        simp [hpc', Pc.draining, Machine.run, Draining.machine, Draining.step, Draining.tick,
          WakeQueue.ids, hq]
  case unwrap n m awoken hpc' hq => exact Or.inr ⟨n, m, by rw [hpc']; rfl, hq⟩
  case poppedMain hpc' | poppedGone hpc' _ _ | pendingTask hpc' | droppedTask hpc' =>
    refine Or.inl ⟨[.ret], by simp, ?_, rfl, ?_⟩
    · simp only [hpc', Pc.stepsLeft]
      omega
    · simp [hpc', Pc.draining, Machine.run, Draining.machine, Draining.step]
  case removeCancelled hpc' _ _ _ | removeReady hpc' =>
    refine Or.inl ⟨[], by simp, ?_, rfl, ?_⟩
    · simp only [hpc', Pc.stepsLeft]
      omega
    · simp [hpc', Pc.draining]
  case sleepTask hpc' _ _ _ =>
    refine Or.inl ⟨[], by simp, ?_, rfl, ?_⟩
    · simp only [hpc', Pc.stepsLeft]
      omega
    · simp [hpc', Pc.draining, toSleep, setAwoken]
  case readyTask task v hpc' _ =>
    obtain ⟨_, _, _, _, heq⟩ := exists_complete_eq ex task.id v
    refine Or.inl ⟨[], by simp, ?_, by rw [heq], ?_⟩
    · simp only [hpc', Pc.stepsLeft]
      omega
    · simp [hpc', Pc.draining, ids_complete]
  case borrowTasks hpc' _ =>
    obtain hpc' | hpc' | hpc' := hpc' <;> exact absurd (by rw [hpc']; rfl) hpc
  case borrowSpawned hpc' _ =>
    obtain hpc' | hpc' := hpc' <;> exact absurd (by rw [hpc']; rfl) hpc
  all_goals exact absurd (by rw [‹r.pc = _›]; rfl) hpc

/-- Outside `poll_tasks` no call is begun, but by the step that reads the lengths; and `unwrap` does
not panic there. -/
theorem Trans.draining_of_idle (ht : ex.Trans r ex' r') (hpc : r.pc.draining = .idle) :
    (r'.pc.draining = .idle ∨
      r.pc = .snapshot ∧ ex'.queue = ex.queue ∧
        r'.pc = .drain ⟨ex.queue.localIds.length, ex.queue.concurrent.length, false⟩) ∧
      (ex'.panic = some .unwrap → ex.panic = some .unwrap) := by
  cases ht
  case snapshot hpc' hb => exact ⟨Or.inr ⟨hpc', rfl, rfl⟩, id⟩
  case borrowTasks | borrowSpawned | mainTaskId =>
    exact ⟨Or.inl hpc, fun h ↦ absurd h (by simp [crash])⟩
  case resetPop => exact ⟨Or.inl hpc, id⟩
  case readyFirst task w key v hpc' =>
    obtain ⟨_, _, _, _, heq⟩ := exists_complete_eq ex task.id v
    rw [heq]
    exact ⟨Or.inl rfl, id⟩
  case resetDone | register | sleepMain | skipMain | pollSpawned | popSpawned | noSpawned |
      cancelledSpawned | firstPoll | clear | clearedTasks | clearSpawned | clearedSpawned |
      pendingMain | pendingFirst | droppedSpawned | droppedClearTasks | droppedClearSpawned |
      droppedMain | readyMain =>
    exact ⟨Or.inl rfl, id⟩
  all_goals
    rw [‹r.pc = _›] at hpc
    exact absurd hpc (by simp [Pc.draining])

/-- Inside `poll_tasks` some step is possible once the thread is free. -/
theorem exists_runStep_of_draining (hpc : r.pc.draining ≠ .idle) (hfree : ex.LocalFree) :
    ∃ a, (ex.runStep r a).isSome := by
  obtain ⟨d, hr | ⟨id, hr⟩ | ⟨key, hr⟩ | ⟨key, hr⟩ | hr⟩ := Pc.cases_of_draining hpc
  · refine ⟨.tick, ?_⟩
    rcases d with ⟨- | n, m, awoken⟩
    · rcases m with - | m
      · simp [runStep, hfree, tick, hr]
      · simp only [runStep, hfree, if_true, tick, hr]
        split <;> rfl
    · simp only [runStep, hfree, if_true, tick, hr]
      split <;> rfl
  · refine ⟨.tick, ?_⟩
    simp only [runStep, hfree, if_true, tick, hr]
    split
    · rfl
    · split
      · rfl
      · split <;> rfl
  · exact ⟨.ret none, by simp [runStep, hfree, ret, hr]⟩
  · exact ⟨.tick, by simp [runStep, hfree, tick, hr]⟩
  · exact ⟨.ret none, by simp [runStep, hfree, ret, hr]⟩

end Executor

namespace Overlapping

variable {s t : Overlapping V}

/-- The call of `drain_for_each` that the innermost `run` future is in. -/
def draining (s : Overlapping V) : Draining := ⟨s.ex.queue.ids, s.pc.draining⟩

/-- The bounds of the call are met, and no `unwrap` has panicked. -/
structure DrainBound (s : Overlapping V) : Prop where
  bounded : s.draining.Bounded
  panic_ne : s.ex.panic ≠ some .unwrap
  enclosing : ∀ r ∈ s.stack.tail, r.pc = .pollMain ∨ r.pc = .dropMain

/-- Where a `run` future can be polled, the innermost one is in its main future, if there is one. -/
theorem pc_of_canPoll (hcan : s.canPoll = true) :
    s.pc = .pollMain ∨ s.pc = .dropMain ∨ s.pc = .created := by
  rw [pc]
  rcases hstack : s.stack with - | ⟨r, rest⟩
  · exact Or.inr (Or.inr rfl)
  · rw [canPoll, hstack] at hcan
    obtain hr | hr : r.pc = .pollMain ∨ r.pc = .dropMain := by simpa using hcan
    · exact Or.inl hr
    · exact Or.inr (Or.inl hr)

/-- A `run` future that can be polled interrupts no call. -/
theorem draining_of_canPoll (hcan : s.canPoll = true) : s.pc.draining = .idle := by
  obtain hpc | hpc | hpc := pc_of_canPoll hcan <;> rw [hpc] <;> rfl

/-- After a step the innermost `run` future is the one that made it, or that one has returned and
the next one is in its main future. -/
theorem pc_settle (ex' : Executor V) (idle : List Run) {rest : List Run} (r' : Run)
    (henclosing : ∀ r ∈ rest, r.pc = .pollMain ∨ r.pc = .dropMain) :
    (settle ex' idle rest r').pc = r'.pc ∨ r'.pc.isIdle = true ∧
      ((settle ex' idle rest r').pc = .pollMain ∨ (settle ex' idle rest r').pc = .dropMain ∨
        (settle ex' idle rest r').pc = .created) := by
  rw [settle]
  split
  next hidle =>
    refine Or.inr ⟨hidle, ?_⟩
    rcases rest with - | ⟨r, rest⟩
    · exact Or.inr (Or.inr rfl)
    · exact (henclosing r List.mem_cons_self).imp_right Or.inl
  next => exact Or.inl rfl

/-- When the innermost `run` future returns, the next one is in no call either. -/
theorem draining_settle (ex' : Executor V) (idle : List Run) {rest : List Run} (r' : Run)
    (henclosing : ∀ r ∈ rest, r.pc = .pollMain ∨ r.pc = .dropMain) :
    (settle ex' idle rest r').pc.draining = r'.pc.draining ∧
      (settle ex' idle rest r').pc.stepsLeft = r'.pc.stepsLeft := by
  obtain hpc | ⟨hidle, hpc⟩ := pc_settle ex' idle r' henclosing
  · rw [hpc]
    exact ⟨rfl, rfl⟩
  · obtain ⟨hdraining, hleft⟩ := Pc.draining_of_isIdle hidle
    rw [hdraining, hleft]
    obtain hpc | hpc | hpc := hpc <;> rw [hpc] <;> exact ⟨rfl, rfl⟩

/-- The steps of a `run` future. -/
def Act.isRun : Act V → Bool
  | .run _ => true
  | _ => false

/-- **`poll_tasks` drains the queue.** A step of the machine inside `poll_tasks` is none or some
steps of the call, and a step of the `run` future is one less of those that are left. -/
theorem draining_step {a : Act V} (h : DrainBound s) (hs : s.step a = some t)
    (hpc : s.pc.draining ≠ .idle) :
    ∃ ds, .start ∉ ds ∧ t.pc.stepsLeft + [a].countP Act.isRun ≤ s.pc.stepsLeft ∧
      t.ex.panic ≠ some .unwrap ∧ Draining.machine.run s.draining ds = some t.draining := by
  cases step_cases hs
  case newRun | dropRun => exact ⟨[], List.not_mem_nil, le_rfl, h.panic_ne, rfl⟩
  case poll hcan _ => exact absurd (draining_of_canPoll hcan) hpc
  case run a r r' rest ex' hstack hstep =>
    have hr : s.pc = r.pc := pc_of_stack hstack
    have hbound : Draining.Bounded ⟨s.ex.queue.ids, r.pc.draining⟩ := hr ▸ h.bounded
    have henclosing := h.enclosing
    rw [hstack, List.tail_cons] at henclosing
    obtain ⟨hdraining, hleft⟩ := draining_settle ex' s.idle r' henclosing
    rw [hr] at hpc
    rw [draining, draining, hdraining, hleft, hr, ex_settle]
    rcases (Executor.trans_of_runStep hstep).draining_cases hpc with
      ⟨ds, hstart, hlt, hpanic, hrun⟩ | ⟨n, m, hloop, hnil⟩
    · exact ⟨ds, hstart, hlt, by rw [hpanic]; exact h.panic_ne, hrun⟩
    · -- the bound says that there is an id to pop
      rw [hloop] at hbound
      obtain ⟨hn, -⟩ : n + 1 ≤ s.ex.queue.localIds.length ∧ _ := hbound
      rw [hnil] at hn
      exact absurd hn (Nat.not_succ_le_zero n)
  case ex a ex' hact hlocal =>
    have hpanic := Executor.panic_ne_unwrap_of_act hact h.panic_ne
    rcases (Executor.touch_of_act hact).ids_eq with hids | ⟨val, b, hids⟩
    · refine ⟨[], List.not_mem_nil, le_rfl, hpanic, ?_⟩
      show some s.draining = some ⟨ex'.queue.ids, s.pc.draining⟩
      rw [hids]
      rfl
    · refine ⟨[.push val b], by simp, le_rfl, hpanic, ?_⟩
      show some _ = some (⟨ex'.queue.ids, s.pc.draining⟩ : Draining)
      rw [hids]
      rfl

theorem DrainBound.init : DrainBound (init : Overlapping V) where
  bounded := trivial
  panic_ne := by simp [Overlapping.init, Executor.new]
  enclosing _ h := absurd h (by simp [Overlapping.init])

/-- The `run` futures that enclose the innermost one stay in their main futures. -/
theorem enclosing_step {a : Act V} (h : ∀ r ∈ s.stack.tail, r.pc = .pollMain ∨ r.pc = .dropMain)
    (hs : s.step a = some t) : ∀ r ∈ t.stack.tail, r.pc = .pollMain ∨ r.pc = .dropMain := by
  cases step_cases hs
  case newRun | dropRun | ex => exact h
  case poll hcan _ => exact forall_mem_stack_of_canPoll hcan (fun _ hpc ↦ hpc) h
  case run r r' rest ex' hstack hstep =>
    rw [hstack, List.tail_cons] at h
    rw [settle]
    split
    · exact fun r hr ↦ h r (List.mem_of_mem_tail hr)
    · exact h

theorem bounded_of_draining_eq_idle (h : s.pc.draining = .idle) : s.draining.Bounded := by
  rw [draining, h]
  trivial

/-- **The bounds are met in every reachable state.** -/
theorem DrainBound.step {a : Act V} (h : DrainBound s) (hs : s.step a = some t) : DrainBound t := by
  by_cases hpc : s.pc.draining = .idle
  · -- only the step that reads the lengths leads into a call
    have henclosing := enclosing_step h.enclosing hs
    cases step_cases hs
    case newRun | dropRun => exact ⟨bounded_of_draining_eq_idle hpc, h.panic_ne, henclosing⟩
    case poll i cx r r' ex' hr hcan hbegin =>
      obtain ⟨-, rfl, rfl⟩ | ⟨-, rfl, rfl⟩ := Executor.beginPoll_cases hbegin
      · exact ⟨trivial, h.panic_ne, henclosing⟩
      · exact ⟨trivial, h.panic_ne, henclosing⟩
    case run a r r' rest ex' hstack hstep =>
      have hr : s.pc = r.pc := pc_of_stack hstack
      have hrest := h.enclosing
      rw [hstack, List.tail_cons] at hrest
      obtain ⟨hsettle, -⟩ := draining_settle ex' s.idle r' hrest
      rw [hr] at hpc
      obtain ⟨hcall, hpanic⟩ := (Executor.trans_of_runStep hstep).draining_of_idle hpc
      refine ⟨?_, ?_, henclosing⟩
      · rcases hcall with hidle | ⟨-, hqueue, hdrain⟩
        · exact bounded_of_draining_eq_idle (hsettle.trans hidle)
        · rw [draining, hsettle, hdrain, ex_settle, hqueue]
          exact ⟨le_rfl, le_rfl⟩
      · rw [ex_settle]
        exact fun heq ↦ h.panic_ne (hpanic heq)
    case ex a ex' hact hlocal =>
      refine ⟨bounded_of_draining_eq_idle hpc, ?_, henclosing⟩
      exact Executor.panic_ne_unwrap_of_act hact h.panic_ne
  · obtain ⟨ds, -, -, hpanic, hrun⟩ := draining_step h hs hpc
    refine ⟨?_, hpanic, enclosing_step h.enclosing hs⟩
    exact Machine.run_preserves (M := Draining.machine)
      (fun _ _ _ hb hd ↦ hb.step (Draining.step_cases hd)) h.bounded hrun

theorem drainBound_of_run {as : List (Act V)} (hrun : (machine V).run init as = some s) :
    DrainBound s :=
  Machine.run_preserves (M := machine V) (fun _ _ _ h hs ↦ h.step hs) DrainBound.init hrun

/-- The rest of a call of `poll_tasks`: it goes on from `s` for as long as it is not over. -/
theorem draining_of_run {as : List (Act V)} (h : DrainBound s)
    (hin : (machine V).AllSteps (fun u _ ↦ u.pc.draining ≠ .idle) s as)
    (hrun : (machine V).run s as = some t) :
    ∃ ds, .start ∉ ds ∧ t.pc.stepsLeft + as.countP Act.isRun ≤ s.pc.stepsLeft ∧
      Draining.machine.run s.draining ds = some t.draining := by
  induction as generalizing s with
  | nil =>
    obtain rfl := Option.some.inj hrun
    exact ⟨[], List.not_mem_nil, le_rfl, rfl⟩
  | cons a as ih =>
    obtain ⟨u, hu, hrun⟩ := Machine.run_cons_eq_some _ |>.1 hrun
    obtain ⟨ds, hstart, hle, -, hds⟩ := draining_step h hu hin.1
    obtain ⟨es, hstart', hle', hes⟩ := ih (h.step hu) (hin.2 u hu) hrun
    refine ⟨ds ++ es, by simp [hstart, hstart'], ?_, ?_⟩
    · rw [← List.singleton_append, List.countP_append]
      omega
    · rw [Machine.run_append, hds]
      exact hes

end Overlapping

/-! ### The drain is safe, complete and bounded -/

/-- What is promised of a call of `poll_tasks` that has read the lengths in the state `s`, after the
actions `bs`. -/
structure Overlapping.PollTasksSpec (s : Overlapping V) (bs : List (Act V)) (t : Overlapping V) :
    Prop where
  /-- It is a call that drains the queue. -/
  drains : ∃ ds, .start ∉ ds ∧
    Draining.machine.run ⟨s.ex.queue.ids, .idle⟩ (.start :: ds) = some t.draining
  /-- It makes so many steps at most, whatever is woken meanwhile. -/
  bounded : bs.countP Act.isRun ≤
    5 * (s.ex.queue.localIds.length + s.ex.queue.concurrent.length) + 1
  no_panic : t.ex.panic ≠ some .unwrap
  /-- If it is not over it can make a step, once the thread is free. -/
  goes_on : t.pc.draining ≠ .idle → t.ex.LocalFree → ∃ a, (t.step (.run a)).isSome

theorem Overlapping.pollTasksSpec_of_run {as bs : List (Act V)} {s u t : Overlapping V}
    (hreach : (machine V).run init as = some s) (hpc : s.pc = .snapshot)
    (hread : s.step (.run .tick) = some u) (hcall : u.pc.draining ≠ .idle)
    (hin : (machine V).AllSteps (fun v _ ↦ v.pc.draining ≠ .idle) u bs)
    (hrun : (machine V).run u bs = some t) : PollTasksSpec s bs t := by
  have hs := drainBound_of_run hreach
  have hu := hs.step hread
  obtain ⟨ds, hstart, hle, hds⟩ := draining_of_run hu hin hrun
  have ht : DrainBound t :=
    Machine.run_preserves (M := machine V) (fun _ _ _ h hs ↦ h.step hs) hu hrun
  cases step_cases hread
  case run r r' rest ex' hstack hstep =>
    have hr : s.pc = r.pc := pc_of_stack hstack
    have hrest := hs.enclosing
    rw [hstack, List.tail_cons] at hrest
    obtain ⟨hsettle, hleft⟩ := draining_settle ex' s.idle r' hrest
    have hidle : r.pc.draining = .idle := by rw [← hr, hpc]; rfl
    rcases ((Executor.trans_of_runStep hstep).draining_of_idle hidle).1 with hno |
      ⟨-, hqueue, hdrain⟩
    · exact absurd (hsettle.trans hno) hcall
    · rw [hleft, hdrain] at hle
      rw [draining, hsettle, hdrain, ex_settle, hqueue] at hds
      refine ⟨⟨.tick :: ds, by simp [hstart], hds⟩, (Nat.le_add_left _ _).trans hle,
        ht.panic_ne, ?_⟩
      intro hdraining hfree
      rcases htstack : t.stack with - | ⟨r₁, rest₁⟩
      · exact absurd (by rw [pc, htstack]; rfl) hdraining
      · have hr₁ : r₁.pc.draining ≠ .idle := by rwa [pc, htstack] at hdraining
        obtain ⟨a, ha⟩ := Executor.exists_runStep_of_draining hr₁ hfree
        exact ⟨a, by simpa [step, htstack] using ha⟩

/-- **Draining the wake queue is safe, complete and bounded.** One call of `drain_for_each`, from
any content of the queue and with any pushes, by the callback and by other threads, never panics; it
calls back on the local ids of the start and then on the concurrent ids of the reading, in order and
on nothing else, in a number of steps that these fix; and it leaves what was pushed since. Over any
pushes and any calls, each id that was there or was pushed has been called exactly once or is still
there. And `poll_tasks` is such a call in every reachable state, which ends whatever the tasks
wake. -/
theorem drain_for_each_delivers (V : Type) :
    (∀ q as t, Draining.recording.run ⟨⟨q, .idle⟩, fun _ ↦ []⟩ (.start :: as) = some t →
      .start ∉ as → Draining.CallSpec q as t) ∧
    (∀ q as t, Draining.recording.run ⟨⟨q, .idle⟩, fun _ ↦ []⟩ as = some t →
      t.state.pc ≠ .panicked ∧
      (q.localIds ++ q.concurrent ++
          (Draining.pushes true (t.log ()) ++ Draining.pushes false (t.log ()))).Perm
        (Draining.calls (t.log ()) ++ (t.state.queue.localIds ++ t.state.queue.concurrent))) ∧
    ∀ (as bs : List (Overlapping.Act V)) (s u t : Overlapping V),
      (Overlapping.machine V).run .init as = some s → s.pc = .snapshot →
      s.step (.run .tick) = some u → u.pc.draining ≠ .idle →
      (Overlapping.machine V).AllSteps (fun v _ ↦ v.pc.draining ≠ .idle) u bs →
      (Overlapping.machine V).run u bs = some t → Overlapping.PollTasksSpec s bs t := by
  refine ⟨fun q as t hrun hone ↦ Draining.callSpec_of_run hrun hone, fun q as t hrun ↦ ?_,
    fun as bs s u t ↦ Overlapping.pollTasksSpec_of_run⟩
  refine ⟨(Draining.bounded_of_run hrun).pc_ne_panicked, List.perm_iff_count.2 fun id ↦ ?_⟩
  have hacc := Draining.accounted_of_run hrun id
  simp only [List.count_append]
  omega

/-- Two local ids and a concurrent one. Another thread pushes before the reading and after it, and
the first callback pushes its own id again. -/
def drainOnce : List Draining.Act :=
  [.push 6 false, .tick, .tick, .push 12 true, .ret, .push 7 false, .tick, .ret, .tick, .ret,
    .tick, .ret, .tick]

theorem drain_for_each_delivers_drainOnce :
    ∃ t, Draining.recording.run ⟨⟨⟨.new, [12, 13], [5]⟩, .idle⟩, fun _ ↦ []⟩ (.start :: drainOnce) =
        some t ∧ t.state.pc = .idle ∧ Draining.calls (t.log ()) = [12, 13, 5, 6] ∧
      t.state.queue.localIds = [12] ∧ t.state.queue.concurrent = [7] ∧
      Draining.CallSpec ⟨.new, [12, 13], [5]⟩ drainOnce t := by
  obtain ⟨t, hrun, hpc, hcalls, hlocal, hcon⟩ : ∃ t, Draining.recording.run
      ⟨⟨⟨.new, [12, 13], [5]⟩, .idle⟩, fun _ ↦ []⟩ (.start :: drainOnce) = some t ∧
      t.state.pc = .idle ∧ Draining.calls (t.log ()) = [12, 13, 5, 6] ∧
      t.state.queue.localIds = [12] ∧ t.state.queue.concurrent = [7] :=
    ⟨_, rfl, rfl, rfl, rfl, rfl⟩
  refine ⟨t, hrun, hpc, hcalls, hlocal, hcon, ?_⟩
  exact (drain_for_each_delivers Unit).1 _ _ t hrun (by decide)

end LocalRuntime
