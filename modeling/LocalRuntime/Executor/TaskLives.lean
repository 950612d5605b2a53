import LocalRuntime.Executor.Cancel

/-!
# The life of a task within one run

`task_lives` follows the tasks through one `run` future on an executor whose slab is empty when it
is first polled: with any wakes, of tasks that are there and of tasks that are gone, any reuse of
slots, and cancels from anywhere, the tasks themselves included. A task is polled only while it may
be, a drain drops what is cancelled, and so does the first poll of the spawned tasks; and nothing
else is dropped but what has just returned ready.
-/

namespace LocalRuntime

open Roster

variable {V : Type}

/-- In `poll_spawned`. -/
def Pc.inPollSpawned : Pc → Bool
  | .pollSpawned | .nextSpawned | .poppedSpawned _ | .pollFirst _ _ _ | .dropSpawned => true
  | _ => false

/-- A task that waits is in `spawned` or in the hands of the executor. -/
theorem Roster.waiting_of_stage {b : Roster V} {pc : Pc} {id : ℕ} (h : b.stage pc id = .waiting) :
    ⟨id⟩ ∈ b.spawned ∨ pc = .poppedSpawned ⟨id⟩ := by
  rw [stage] at h
  split_ifs at h with _ hwaiting
  exact hwaiting

namespace Executor

variable {ex ex' : Executor V} {r r' : Run}

/-- `poll_spawned` ends when nothing is left. -/
theorem inPollSpawned_of_trans (ht : ex.Trans r ex' r') (h : r.pc.inPollSpawned = true) :
    r'.pc.inPollSpawned = true ∨ r'.pc = .pending ∧ ex'.spawned = [] := by
  cases ht
  case noSpawned hnil => exact Or.inr ⟨rfl, hnil⟩
  case borrowTasks | borrowSpawned | mainTaskId | resetPop | unwrap => exact Or.inl h
  case pollSpawned | popSpawned | cancelledSpawned | firstPoll | pendingFirst | readyFirst |
      droppedSpawned =>
    exact Or.inl rfl
  all_goals exact absurd h (by simp [‹r.pc = _›, Pc.inPollSpawned])

/-- `poll_spawned` clears nothing. -/
theorem not_mem_cleared {pc : Pc} (hpc : pc.inPollSpawned = true) (a : RunAct V) (id : ℕ) :
    .cleared ∉ ex.runEvents pc a id := by
  cases pc
  case pollSpawned | nextSpawned | dropSpawned => cases a <;> exact List.not_mem_nil
  case poppedSpawned task =>
    cases a
    case tick => simp [runEvents, tickEvents]
    case firstPoll key =>
      simp only [runEvents]
      split
      · exact List.not_mem_nil
      · simp
    case ret => exact List.not_mem_nil
  case pollFirst task w key =>
    cases a
    case ret out => rcases out with - | v <;> simp [runEvents, retEvents]
    all_goals exact List.not_mem_nil
  all_goals exact absurd hpc (by simp [Pc.inPollSpawned])

theorem not_mem_cleared_of_act (pc : Pc) (a : Act) (id : ℕ) : .cleared ∉ ex.actEvents pc a id := by
  cases a
  case spawn | cancel | pollHandle =>
    simp only [actEvents]
    split
    · simp
    · simp
  all_goals exact List.not_mem_nil

/-- **What takes a task out of the slab.** -/
theorem removed_of_trans {key : ℕ} {task : Task} (hp : Placed ex.roster r.pc)
    (ht : ex.Trans r ex' r') (hpc : r.pc ≠ .completed) (hget : ex.tasks.get key = some task)
    (hgone : ex'.tasks.get key ≠ some task) :
    ex.isCancelled task.id = true ∨ ∃ d, r.pc = .readyTask key d := by
  cases ht
  case removeCancelled id d task' _ _ hget' hcancelled =>
    by_cases hk : key = id
    · rw [hk, hget'] at hget
      exact Or.inl (Option.some.inj hget ▸ hcancelled)
    · exact absurd (by rw [Slab.get_remove, if_neg hk, hget]) hgone
  case removeReady k d hpc' =>
    by_cases hk : key = k
    · exact Or.inr ⟨d, hk ▸ hpc'⟩
    · exact absurd (by rw [Slab.get_remove, if_neg hk, hget]) hgone
  case pendingFirst task' w k hpc' =>
    have hvacant := hp.vacant task' w k hpc'
    refine absurd ((Slab.get_insert hvacant _ key).trans ?_) hgone
    rw [if_neg, show ex.roster.tasks.get key = _ from hget]
    rintro rfl
    exact absurd hget (by simp [show ex.tasks.get key = none from hvacant.2])
  case clear hpc' _ => exact absurd hpc' hpc
  case readyTask | readyFirst =>
    refine absurd ?_ hgone
    rw [show (ex.complete _ _).tasks = ex.tasks
      from congrArg Roster.tasks (roster_complete ex _ _), hget]
  all_goals exact absurd hget hgone

/-- A task is about to be removed because it has just returned ready. -/
theorem completed_of_runStep {a : RunAct V} {key : ℕ} {d : Drain}
    (hs : ex.runStep r a = some (ex', r')) (hpc : r'.pc = .readyTask key d) :
    ∃ task v, ex'.tasks.get key = some task ∧ ex.runEvents r.pc a task.id = [.completed v] := by
  have ht := trans_of_runStep hs
  cases ht
  case readyTask k d' task v hpc' hget =>
    obtain ⟨rfl, -⟩ := Pc.readyTask.inj hpc
    simp only [runStep] at hs
    split at hs
    · rcases a with - | k' | out
      · exact absurd hs (by simp [tick, hpc'])
      · exact absurd hs (by simp [firstPoll, hpc'])
      · rcases out with - | v'
        · simp only [ret, hpc', Option.some.injEq, Prod.mk.injEq] at hs
          exact absurd (congrArg Run.pc hs.2) (by simp)
        · refine ⟨task, v', ?_, ?_⟩
          · rw [show (ex.complete _ _).tasks = ex.tasks from
              congrArg Roster.tasks (roster_complete ex _ _), hget]
          · simp only [runEvents, retEvents, hpc', hget, only_self]
    · exact absurd hs (by simp)
  case borrowTasks hpc' _ =>
    rcases hpc' with hpc' | hpc' | hpc' <;> exact absurd hpc (by simp [hpc'])
  case borrowSpawned hpc' _ => rcases hpc' with hpc' | hpc' <;> exact absurd hpc (by simp [hpc'])
  case resetPop hpc' _ | unwrap hpc' _ | mainTaskId hpc' => exact absurd hpc (by simp [hpc'])
  all_goals exact absurd hpc (by simp)

end Executor

namespace Single

open Executor

variable {t u : Logged (Single V) ℕ (TaskEvent V)}

/-! ### What waits for its first poll -/

/-- A cancelled task has been dropped, or waits for the rest of `poll_spawned`. -/
def Leaving (id : ℕ) (t : Logged (Single V) ℕ (TaskEvent V)) : Prop :=
  .dropped ∈ t.log id ∨ t.state.pc.inPollSpawned = true ∧
    (t.state.ex.roster.life t.state.pc id).stage = .waiting ∧ t.state.ex.isCancelled id = true

theorem Leaving.step {id : ℕ} {a : Act V} (h : Leaving id t) (hinv : ArmedInv t) (ha : a ≠ .dropRun)
    (hs : (recording V).step t a = some u) : Leaving id u := by
  obtain ⟨v, hv, rfl⟩ := Machine.step_logged_eq_some.1 hs
  replace hv : t.state.step a = some v := hv
  rcases h with hdropped | ⟨hpc, hwaiting, hcancelled⟩
  · exact Or.inl (List.mem_append_left _ hdropped)
  have hp := hinv.recorded.placed
  have hlife := life_of_taskStep hp (taskStep_of_step hp hv) id
  have hrests := fun hcleared ↦ Lives.rests_or_dropped hlife (Or.inl hwaiting) hcancelled hcleared
  rw [hwaiting] at hrests
  cases step_cases hv
  case newRun hnone =>
    rw [pc, hnone] at hpc
    exact absurd hpc (by simp [Pc.inPollSpawned])
  case dropRun => exact absurd rfl ha
  case firstPoll r cx hr hpc' | poll r cx hr hpc' =>
    rw [pc_eq hr, hpc'] at hpc
    exact absurd hpc (by simp [Pc.inPollSpawned])
  case run a r r' ex' hr htrans =>
    rw [pc_eq hr] at hpc
    have hcleared : .cleared ∉ t.state.taskEvents (.run a) id := by
      rw [taskEvents, pc_eq hr]
      exact not_mem_cleared hpc a id
    rcases hrests hcleared with hdropped | ⟨hstage, hc⟩
    · exact Or.inl (List.mem_append_right _ hdropped)
    · refine Or.inr ⟨?_, hstage, hc⟩
      rcases inPollSpawned_of_trans htrans hpc with hpc' | ⟨hpending, hnil⟩
      · exact hpc'
      · -- at the end of `poll_spawned` nothing waits
        have hstage : ex'.roster.stage r'.pc id = .waiting := hstage
        rcases waiting_of_stage hstage with hmem | hpc'
        · exact absurd hmem (by simp [roster, hnil])
        · exact absurd hpc' (by simp [hpending])
  case ex a ex' hact _ =>
    rcases hrests (not_mem_cleared_of_act _ a id) with hdropped | ⟨hstage, hc⟩
    · exact Or.inl (List.mem_append_right _ hdropped)
    · exact Or.inr ⟨hpc, hstage, hc⟩

/-! ### What has returned ready -/

/-- The latest thing that has happened to a task which is about to be removed is that it returned
ready. -/
def ReadyLast (t : Logged (Single V) ℕ (TaskEvent V)) : Prop :=
  ∀ key d, t.state.pc = .readyTask key d → ∃ task v, t.state.ex.tasks.get key = some task ∧
    (t.log task.id).getLast? = some (.completed v)

theorem ReadyLast.step {a : Act V} (h : ReadyLast t) (hs : (recording V).step t a = some u) :
    ReadyLast u := by
  obtain ⟨v, hv, rfl⟩ := Machine.step_logged_eq_some.1 hs
  replace hv : t.state.step a = some v := hv
  intro key d hpc
  cases step_cases hv
  case newRun => exact absurd hpc (by simp [pc, Run.new])
  case dropRun | firstPoll | poll => exact absurd hpc (by simp [pc])
  case run a r r' ex' hr _ =>
    obtain ⟨task, v, hget, hev⟩ := completed_of_runStep (runStep_of_step hv hr) hpc
    refine ⟨task, v, hget, ?_⟩
    show (t.log task.id ++ t.state.taskEvents (.run a) task.id).getLast? = _
    rw [taskEvents, pc_eq hr, hev, List.getLast?_concat]
  case ex a ex' hact hlocal =>
    have hpc : t.state.pc = .readyTask key d := hpc
    obtain ⟨task, v, hget, hlast⟩ := h key d hpc
    -- no code but that of the executor runs on its thread here
    have hother : a.isLocal = false := by
      by_contra ha
      obtain ⟨-, huser⟩ := hlocal (Bool.eq_true_of_not_eq_false ha)
      rw [inUser] at huser
      rw [pc] at hpc
      rcases hrun : t.state.run with - | r
      · exact absurd hpc (by simp [hrun])
      · rw [hrun] at hpc huser
        have hpc : r.pc = .readyTask key d := hpc
        exact absurd huser (by simp [hpc, Pc.isIdle, Pc.isUser])
    refine ⟨task, v, ?_, ?_⟩
    · rw [(touch_of_act hact).tasks_eq, hget]
    · have hnil : t.state.taskEvents (.ex a) task.id = [] := by
        cases a
        case wake w onLocal => rfl
        case push | fire | hear => rfl
        all_goals exact absurd hother (by simp [Executor.Act.isLocal])
      show (t.log task.id ++ t.state.taskEvents (.ex a) task.id).getLast? = _
      rw [hnil, List.append_nil, hlast]

/-! ### The life of a task -/

/-- Between two moments of a run a task is dropped and not polled. -/
def DroppedBetween (id : ℕ) (t u : Logged (Single V) ℕ (TaskEvent V)) : Prop :=
  ∃ after, u.log id = t.log id ++ after ∧ .dropped ∈ after ∧ .polled ∉ after

/-- A task that is cancelled at a moment, and dropped later. -/
theorem droppedBetween {id : ℕ} {bs : List (Act V)}
    (ht : Recorded t.state.ex.roster t.state.pc t.log)
    (hu : Recorded u.state.ex.roster u.state.pc u.log) (hrun : (recording V).run t bs = some u)
    (hcancelled : t.state.ex.isCancelled id = true)
    (hstage : t.state.ex.roster.stage t.state.pc id ≠ .dropped) (hdropped : .dropped ∈ u.log id) :
    DroppedBetween id t u := by
  obtain ⟨after, hafter⟩ := Machine.log_prefix_of_run hrun id
  have hl := hu.lives id
  rw [← hafter] at hdropped hl
  refine ⟨after, hafter.symm, ?_, fun hpolled ↦ ?_⟩
  · rcases List.mem_append.1 hdropped with hold | hnew
    · exact absurd ((ht.lives id).stage_of_dropped hold) hstage
    · exact hnew
  · obtain ⟨own, hown⟩ := (ht.lives id).exists_cancelled hcancelled
    obtain ⟨b₁, b₂, rfl⟩ := List.append_of_mem hpolled
    rw [← List.append_assoc] at hl
    exact hl.of_polled.1 own (List.mem_append_left _ hown)

/-- What the executor owes its tasks at a moment of a run.

* A poll of a task begins only if the task has not been cancelled and has not returned ready before,
  and if every earlier poll has returned.
* A task of the slab that is cancelled when `poll_tasks` starts is dropped by its end without being
  polled, unless a call of `TaskWaker::wake` for the task is between its compare-exchange and its
  push then.
* A task that is cancelled in `spawned` has never been polled, and is dropped by the end of
  `poll_spawned` without being polled.
* A step takes a task out of the slab only if the task is cancelled or has just returned ready; the
  end of `run`, which clears the slab, is apart. -/
structure LivesWell (t : Logged (Single V) ℕ (TaskEvent V)) : Prop where
  polls : ∀ id before after, t.log id = before ++ .polled :: after →
    (∀ own, .cancelled own ∉ before) ∧ (∀ v, .completed v ∉ before) ∧
      ∀ b₁ b₂, before = b₁ ++ .polled :: b₂ → .pended ∈ b₂
  slab : t.state.pc = .snapshot → ∀ key task, t.state.ex.tasks.get key = some task →
    t.state.ex.isCancelled task.id = true → ¬ t.state.ex.Pushing task.waker →
    ∀ bs u awoken, Act.dropRun ∉ bs → (recording V).run t bs = some u →
      u.state.pc = .mainCheck awoken → DroppedBetween task.id t u
  spawned : t.state.pc.inPollSpawned = true → ∀ id, ⟨id⟩ ∈ t.state.ex.spawned →
    t.state.ex.isCancelled id = true → .polled ∉ t.log id ∧
    ∀ bs u, Act.dropRun ∉ bs → (recording V).run t bs = some u → u.state.pc = .pending →
      DroppedBetween id t u
  removes : t.state.pc ≠ .completed → ∀ key task, t.state.ex.tasks.get key = some task →
    ∀ a u, (recording V).step t a = some u → u.state.ex.tasks.get key ≠ some task →
      t.state.ex.isCancelled task.id = true ∨ ∃ v, (t.log task.id).getLast? = some (.completed v)

/-- A drain finds the cancelled tasks of the slab. -/
theorem doomed_of_snapshot {key : ℕ} {task : Task} (h : ArmedInv t) (hpc : t.state.pc = .snapshot)
    (hget : t.state.ex.tasks.get key = some task)
    (hcancelled : t.state.ex.isCancelled task.id = true)
    (hpushing : ¬ t.state.ex.Pushing task.waker) : Doomed key task t := by
  obtain ⟨r, hrun⟩ := h.running
  rw [pc_eq hrun.run_eq] at hpc
  obtain ⟨-, tw, hw, -, htraced⟩ := hrun.wakes.tasks key task hget
  obtain ⟨tw', hw', hawoken⟩ := (h.armed.tasks key task hget).awoken hcancelled
  rw [hw] at hw'
  refine Or.inr ⟨hget, hcancelled, r, hrun.run_eq, ?_⟩
  rw [hpc]
  rcases htraced (Option.some.inj hw' ▸ hawoken) with hq | hp | ⟨r₁, hr₁, hp⟩
  · exact hq
  · exact absurd hp hpushing
  · obtain rfl := Option.some.inj (hrun.run_eq ▸ hr₁)
    rw [hpc] at hp
    exact hp.elim

theorem ArmedInv.livesWell (h : ArmedInv t) (hready : ReadyLast t) : LivesWell t := by
  have hp := h.recorded.placed
  refine ⟨fun id before after hlog ↦ ?_,
    fun hpc key task hget hcancelled hpushing bs u awoken hbs hrun hend ↦ ?_,
    fun hpc id hmem hcancelled ↦ ⟨?_, fun bs u hbs hrun hend ↦ ?_⟩,
    fun hpc key task hget a u hs hgone ↦ ?_⟩
  · have hl := h.recorded.lives id
    rw [hlog] at hl
    exact hl.of_polled
  · have hinv : ArmedInv u ∧ Doomed key task u := by
      refine Machine.run_preserves_of_allSteps (C := fun _ a ↦ a ≠ .dropRun)
        (I := fun u ↦ ArmedInv u ∧ Doomed key task u) ?_
        ⟨h, doomed_of_snapshot h hpc hget hcancelled hpushing⟩
        (Machine.allSteps_of_forall ?_ t) hrun
      · exact fun _ _ _ hI ha hs ↦ ⟨hI.1.step ha hs, hI.2.step hI.1 ha hs⟩
      · exact fun _ a ha hdrop ↦ hbs (hdrop ▸ ha)
    have hcalm : t.state.pc.isCalm = true := by rw [hpc]; rfl
    refine droppedBetween h.recorded hinv.1.recorded hrun hcancelled ?_ ?_
    · rw [hp.stage_slab hcalm hget]
      simp
    · rcases hinv.2 with hdropped | ⟨-, -, r, hr, hahead⟩
      · exact hdropped
      · rw [pc_eq hr] at hend
        rw [hend] at hahead
        exact hahead.elim
  · exact (h.recorded.lives id).not_mem_polled (Or.inr (hp.stage_spawned hmem))
  · have hwaiting := hp.stage_spawned hmem
    have hinv : ArmedInv u ∧ Leaving id u := by
      refine Machine.run_preserves_of_allSteps (C := fun _ a ↦ a ≠ .dropRun)
        (I := fun u ↦ ArmedInv u ∧ Leaving id u) ?_
        ⟨h, Or.inr ⟨hpc, hwaiting, hcancelled⟩⟩ (Machine.allSteps_of_forall ?_ t) hrun
      · exact fun _ _ _ hI ha hs ↦ ⟨hI.1.step ha hs, hI.2.step hI.1 ha hs⟩
      · exact fun _ a ha hdrop ↦ hbs (hdrop ▸ ha)
    refine droppedBetween h.recorded hinv.1.recorded hrun hcancelled ?_ ?_
    · rw [hwaiting]
      simp
    · rcases hinv.2 with hdropped | ⟨hpc', -, -⟩
      · exact hdropped
      · rw [hend] at hpc'
        exact absurd hpc' (by simp [Pc.inPollSpawned])
  · obtain ⟨v, hv, rfl⟩ := Machine.step_logged_eq_some.1 hs
    replace hv : t.state.step a = some v := hv
    cases step_cases hv
    case newRun | dropRun | firstPoll | poll => exact absurd hget hgone
    case run a r r' ex' hr htrans =>
      rw [pc_eq hr] at hp hpc
      rcases removed_of_trans hp htrans hpc hget hgone with hcancelled | ⟨d, hpc'⟩
      · exact Or.inl hcancelled
      · obtain ⟨task', v, hget', hlast⟩ := hready key d (by rw [pc_eq hr, hpc'])
        rw [hget] at hget'
        obtain rfl := Option.some.inj hget'
        exact Or.inr ⟨v, hlast⟩
    case ex a ex' hact _ => exact absurd (by rw [(touch_of_act hact).tasks_eq, hget]) hgone

/-- **The life of a task within one run.** Take a `run` future on an executor whose slab is empty,
after any history of the executor, and follow it from its first poll on, with any main future, any
tasks, wakes of any wakers from any threads and cancels from anywhere. In every state that is
reached, the executor owes its tasks nothing (`LivesWell`). -/
theorem task_lives (pre as : List (Act V)) (s t : Logged (Single V) ℕ (TaskEvent V))
    (r₀ : Run) (cx : ℕ) (hpre : (recording V).run ⟨init, fun _ ↦ []⟩ pre = some s)
    (hrun₀ : s.state.run = some r₀) (hpc : r₀.pc = .created)
    (hempty : ∀ key, s.state.ex.tasks.get key = none) (has : Act.dropRun ∉ as)
    (hrun : (recording V).run s (.poll cx :: as) = some t) : LivesWell t := by
  have hs : ArmedInv s := by
    refine ⟨recorded_of_run hpre, ⟨r₀, .start hrun₀ hpc hempty⟩, fun key task hk ↦ ?_,
      fun r task w key hr hpc' ↦ ?_⟩
    · exact absurd hk (by simp [hempty key])
    · obtain rfl := Option.some.inj (hrun₀ ▸ hr)
      exact absurd hpc' (by simp [hpc])
  have hready : ReadyLast s := by
    intro key d hpc'
    rw [pc_eq hrun₀, hpc] at hpc'
    exact absurd hpc' (by simp)
  have hnot : Act.dropRun ∉ Act.poll cx :: as := by simp [has]
  refine (hs.run hnot hrun).livesWell ?_
  exact Machine.run_preserves (I := ReadyLast) (fun _ _ _ hI hs ↦ hI.step hs) hready hrun

/-- A task is left in the slab, another one waits for its first poll, and both are cancelled between
two polls of `run`; the next poll goes as far as its drain. -/
def cancelBoth : List (Act Unit) :=
  toMain ++ spawnOne ++ [.ex .spawn, .ex (.cancel 0), .ex (.push 0), .ex (.fire 0), .ex (.cancel 1),
    .poll 7, .run .tick]

/-- The drain drops the first one. -/
theorem task_lives_cancelBoth :
    ∃ s t u, (recording Unit).run ⟨init, fun _ ↦ []⟩ [.newRun] = some s ∧
      (recording Unit).run s (.poll 7 :: cancelBoth) = some t ∧
      (recording Unit).run t [.run .tick, .run .tick, .run .tick, .run (.ret none), .run .tick] =
        some u ∧
      DroppedBetween 0 t u := by
  obtain ⟨s, hs, hsrun, hempty⟩ : ∃ s, (recording Unit).run ⟨init, fun _ ↦ []⟩ [.newRun] = some s ∧
      s.state.run = some .new ∧ ∀ key, s.state.ex.tasks.get key = none :=
    ⟨_, rfl, rfl, fun _ ↦ rfl⟩
  obtain ⟨s', hs', t, ht, hpc, hget, hcancelled, hflights, u, hu, hend⟩ :
      ∃ s', (recording Unit).run ⟨init, fun _ ↦ []⟩ [.newRun] = some s' ∧
      ∃ t, (recording Unit).run s' (.poll 7 :: cancelBoth) = some t ∧ t.state.pc = .snapshot ∧
        t.state.ex.tasks.get 0 = some ⟨0, 1⟩ ∧ t.state.ex.isCancelled 0 = true ∧
        t.state.ex.flights = [] ∧
        ∃ u, (recording Unit).run t
          [.run .tick, .run .tick, .run .tick, .run (.ret none), .run .tick] = some u ∧
            u.state.pc = .mainCheck false :=
    ⟨_, rfl, _, rfl, rfl, rfl, rfl, rfl, _, rfl, rfl⟩
  obtain rfl := Option.some.inj (hs.symm.trans hs')
  have hpushing : ¬ t.state.ex.Pushing 1 := by
    rintro ⟨f, hf, -⟩
    exact absurd hf (by simp [hflights])
  have hlives : LivesWell t := task_lives [.newRun] cancelBoth s t .new 7 hs hsrun rfl hempty
    (by simp [cancelBoth, toMain, spawnOne]) ht
  exact ⟨s, t, u, hs, ht, hu,
    hlives.slab hpc 0 ⟨0, 1⟩ hget hcancelled hpushing _ u false (by simp) hu hend⟩

/-- A task is left in the slab. Another thread is in the middle of waking it when it is cancelled,
and the next poll of `run` goes as far as its drain. -/
def cancelDuringWake : List (Act Unit) :=
  toMain ++ spawnOne ++ [.ex (.wake 1 false), .ex (.cancel 0), .poll 7, .run .tick]

/-- **A cancelled task can survive a drain**: the wake of `cancel` gives way to the one of the other
thread, which has not pushed its id yet. -/
theorem cancelDuringWake_survives :
    ∃ s t u, (recording Unit).run ⟨init, fun _ ↦ []⟩ [.newRun] = some s ∧
      (∀ key, s.state.ex.tasks.get key = none) ∧
      (recording Unit).run s (.poll 7 :: cancelDuringWake) = some t ∧ t.state.pc = .snapshot ∧
      t.state.ex.tasks.get 0 = some ⟨0, 1⟩ ∧ t.state.ex.isCancelled 0 = true ∧
      (recording Unit).run t [.run .tick, .run .tick] = some u ∧ u.state.pc = .mainCheck false ∧
      u.state.ex.tasks.get 0 = some ⟨0, 1⟩ ∧ ¬ DroppedBetween 0 t u := by
  refine ⟨_, _, _, rfl, fun _ ↦ rfl, rfl, rfl, rfl, rfl, rfl, rfl, rfl, ?_⟩
  rintro ⟨after, hlog, hdropped, -⟩
  -- the drain has done nothing to the task
  rw [List.self_eq_append_right.1 hlog] at hdropped
  exact absurd hdropped List.not_mem_nil

end Single

end LocalRuntime
