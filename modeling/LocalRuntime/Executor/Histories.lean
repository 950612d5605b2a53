import LocalRuntime.Executor.Tasks

/-!
# The histories of the tasks

What the executor and the code around it do to each task, step by step, as events. The events of a
step are read off the state before it and the action alone; `taskStep_of_runStep` and
`taskStep_of_act` show that they are what the step does. So in every run, with one `run` future at a
time or with overlapping ones, the history of every task is one that a `Life` may have, and leads to
where the task is (`lives_of_run`).
-/

namespace LocalRuntime

open Roster

variable {V : Type}

namespace Executor

variable {ex ex' : Executor V} {r r' : Run}

/-! ### The events of a step -/

/-- The events of a step of the executor itself. -/
def tickEvents (ex : Executor V) : Pc → ℕ → List (TaskEvent V)
  | .popped key _ =>
    if key = MAIN_TASK_ID then fun _ ↦ []
    else
      match ex.tasks.get key with
      | none => fun _ ↦ []
      | some task => only task.id [if ex.isCancelled task.id then .dropped else .polled]
  | .readyTask key _ =>
    match ex.tasks.get key with
    | none => fun _ ↦ []
    | some task => only task.id [.dropped]
  | .poppedSpawned task => only task.id [.dropped]
  | .completed =>
    if ex.tasksBorrowed then fun _ ↦ []
    else fun id ↦ if ex.roster.InSlab id then [.cleared] else []
  | .cleared =>
    if ex.spawnedBorrowed then fun _ ↦ [] else fun id ↦ if ⟨id⟩ ∈ ex.spawned then [.cleared] else []
  | _ => fun _ ↦ []

/-- The events of the end of a call. -/
def retEvents (ex : Executor V) (out : Option V) : Pc → ℕ → List (TaskEvent V)
  | .pollTask key _ =>
    match ex.tasks.get key, out with
    | none, _ => fun _ ↦ []
    | some task, none => only task.id [.pended]
    | some task, some v => only task.id [.completed v]
  | .pollFirst task _ _ =>
    match out with
    | none => only task.id [.pended]
    | some v => only task.id [.completed v, .dropped]
  | _ => fun _ ↦ []

/-- The events of a step of a `run` future. -/
def runEvents (ex : Executor V) (pc : Pc) : RunAct V → ℕ → List (TaskEvent V)
  | .tick => ex.tickEvents pc
  | .firstPoll key =>
    match pc with
    | .poppedSpawned task => if key = MAIN_TASK_ID then fun _ ↦ [] else only task.id [.polled]
    | _ => fun _ ↦ []
  | .ret out => ex.retEvents out pc

/-- The events of an action from outside. A handle that does not exist is not called. -/
def actEvents (ex : Executor V) (pc : Pc) : Act → ℕ → List (TaskEvent V)
  | .spawn => if ex.spawnedBorrowed then fun _ ↦ [] else only ex.handles.length [.spawned]
  | .cancel h =>
    if h < ex.handles.length then only h [.cancelled (decide (ex.roster.polling pc = some h))]
    else fun _ ↦ []
  | .pollHandle h waker =>
    if h < ex.rets.length then only h [.awaited waker (ex.pollHandle h waker).1] else fun _ ↦ []
  | _ => fun _ ↦ []

/-! ### They are what the step does -/

@[simp] theorem roster_wake (ex : Executor V) (w : ℕ) (onLocal : Bool) :
    (ex.wake w onLocal).roster = ex.roster := by
  obtain ⟨_, _, hw⟩ := exists_wake_eq ex w onLocal
  rw [hw]
  rfl

theorem roster_cancel (ex : Executor V) (h : ℕ) :
    (ex.cancel h).roster =
      { ex.roster with handles := ex.handles.modify h fun _ ↦ ⟨true, none⟩ } := by
  obtain ⟨_, _, hc⟩ := exists_cancel_eq ex h
  rw [hc]
  rfl

theorem roster_complete (ex : Executor V) (id : ℕ) (v : V) :
    (ex.complete id v).roster =
      { ex.roster with rets := ex.rets.modify id fun _ ↦ ⟨some v, none⟩ } := by
  simp only [complete]
  split
  next waker _ =>
    rcases waker with w | c
    · rw [wakeRef, roster_wake]
      rfl
    · rfl
  · rfl

theorem taskStep_of_tick (hp : Placed ex.roster r.pc) (h : ex.tick r = some (ex', r')) :
    TaskStep ex.roster r.pc ex'.roster r'.pc (ex.tickEvents r.pc) := by
  have ht := trans_of_tick h
  cases ht
  case resetPop hpc _ | unwrap hpc _ =>
    rw [hpc]
    exact .stay
  case borrowTasks hpc hb =>
    rcases hpc with hpc | hpc | hpc
    · rw [hpc]
      exact .stay
    · rw [hpc]
      exact .stay
    · rw [hpc, tickEvents, if_pos hb]
      exact .stay
  case borrowSpawned hpc hb =>
    rcases hpc with hpc | hpc
    · rw [hpc]
      exact .stay
    · rw [hpc, tickEvents, if_pos hb]
      exact .stay
  case poppedMain d hpc =>
    rw [hpc, tickEvents, if_pos rfl]
    exact .calm rfl rfl
  case poppedGone key d hpc hid hget =>
    rw [hpc, tickEvents, if_neg hid, hget]
    exact .calm rfl rfl
  case removeCancelled key d task hpc hid hget hcancelled =>
    rw [hpc, tickEvents, if_neg hid, hget]
    simp only [if_pos hcancelled]
    exact .remove hget (Or.inl ⟨rfl, hcancelled⟩) rfl
  case sleepTask key d task hpc hid hget hcancelled =>
    rw [hpc, tickEvents, if_neg hid, hget]
    simp only [hcancelled]
    exact .poll rfl hget hcancelled
  case removeReady key d hpc =>
    obtain ⟨task, hget⟩ := hp.held key d (Or.inr hpc)
    rw [hpc, tickEvents, show ex.tasks.get key = some task from hget]
    exact .remove hget (Or.inr ⟨d, rfl⟩) rfl
  case popSpawned task hpc _ hlast =>
    rw [hpc]
    exact .pop rfl hlast
  case cancelledSpawned task hpc hcancelled =>
    rw [hpc]
    exact .skip rfl rfl hcancelled
  case clear hpc hb =>
    rw [hpc, tickEvents, if_neg (by simp [hb])]
    exact .clear rfl rfl
  case clearSpawned hpc hb =>
    rw [hpc, tickEvents, if_neg (by simp [hb])]
    exact .clearSpawned rfl rfl
  -- the end of a call and a first poll are other actions
  case pendingTask hpc | droppedTask hpc | pendingMain hpc | pendingFirst hpc | droppedSpawned hpc |
      droppedClearTasks hpc | droppedClearSpawned hpc | droppedMain hpc | readyTask hpc _ |
      readyMain hpc | readyFirst hpc =>
    exact absurd h (by simp [tick, hpc])
  case firstPoll task key hpc _ _ | mainTaskId task hpc =>
    simp only [tick, hpc] at h
    obtain ⟨-, h⟩ := Option.ite_none_right_eq_some.1 h
    exact absurd (congrArg Run.pc (Prod.mk.inj (Option.some.inj h)).2) (by simp [hpc])
  all_goals
    rw [‹r.pc = _›]
    exact .calm rfl rfl

theorem taskStep_of_firstPoll {key : ℕ} (h : ex.firstPoll r key = some (ex', r')) :
    TaskStep ex.roster r.pc ex'.roster r'.pc (ex.runEvents r.pc (.firstPoll key)) := by
  simp only [firstPoll] at h
  split at h
  next task hpc =>
    split at h
    next => exact absurd h (by simp)
    next hcancelled =>
      split at h
      next hvacant =>
        split at h
        next hkey =>
          obtain ⟨rfl, rfl⟩ := Prod.mk.inj (Option.some.inj h)
          simp only [runEvents, hpc, if_pos hkey]
          exact .stay
        next hkey =>
          obtain ⟨rfl, rfl⟩ := Prod.mk.inj (Option.some.inj h)
          simp only [runEvents, hpc, if_neg hkey]
          exact .first rfl (Bool.eq_false_iff.2 hcancelled) hvacant
      next => exact absurd h (by simp)
  next => exact absurd h (by simp)

theorem taskStep_of_ret {out : Option V} (hp : Placed ex.roster r.pc)
    (h : ex.ret r out = some (ex', r')) :
    TaskStep ex.roster r.pc ex'.roster r'.pc (ex.retEvents out r.pc) := by
  rcases out with - | v
  · simp only [ret] at h
    split at h
    next key d hpc =>
      obtain ⟨rfl, rfl⟩ := Prod.mk.inj (Option.some.inj h)
      obtain ⟨task, hget⟩ := hp.held key d (Or.inl hpc)
      simp only [retEvents, hpc, show ex.tasks.get key = some task from hget]
      exact .pend rfl hget rfl
    next hpc =>
      obtain ⟨rfl, rfl⟩ := Prod.mk.inj (Option.some.inj h)
      rw [hpc]
      exact .calm rfl rfl
    next hpc =>
      obtain ⟨rfl, rfl⟩ := Prod.mk.inj (Option.some.inj h)
      rw [hpc]
      exact .calm rfl rfl
    next task w key hpc =>
      obtain ⟨rfl, rfl⟩ := Prod.mk.inj (Option.some.inj h)
      rw [hpc]
      exact .pendFirst rfl rfl
    next hpc =>
      obtain ⟨rfl, rfl⟩ := Prod.mk.inj (Option.some.inj h)
      rw [hpc]
      exact .calm rfl rfl
    next hpc =>
      obtain ⟨rfl, rfl⟩ := Prod.mk.inj (Option.some.inj h)
      rw [hpc]
      exact .calm rfl rfl
    next hpc =>
      obtain ⟨rfl, rfl⟩ := Prod.mk.inj (Option.some.inj h)
      rw [hpc]
      exact .calm rfl rfl
    next hpc =>
      obtain ⟨rfl, rfl⟩ := Prod.mk.inj (Option.some.inj h)
      rw [hpc]
      exact .calm rfl rfl
    next => exact absurd h (by simp)
  · simp only [ret] at h
    split at h
    next key d hpc =>
      obtain ⟨task, hget, heq⟩ := Option.map_eq_some_iff.1 h
      obtain ⟨rfl, rfl⟩ := Prod.mk.inj heq
      simp only [retEvents, hpc, hget, roster_complete]
      exact .ready rfl hget
    next hpc =>
      obtain ⟨rfl, rfl⟩ := Prod.mk.inj (Option.some.inj h)
      rw [hpc]
      exact .calm rfl rfl
    next task w key hpc =>
      obtain ⟨rfl, rfl⟩ := Prod.mk.inj (Option.some.inj h)
      rw [hpc, roster_complete]
      exact .readyFirst rfl rfl
    next => exact absurd h (by simp)

/-- **The events of a step of `run` are what it does to the tasks.** -/
theorem taskStep_of_runStep {a : RunAct V} (hp : Placed ex.roster r.pc)
    (h : ex.runStep r a = some (ex', r')) :
    TaskStep ex.roster r.pc ex'.roster r'.pc (ex.runEvents r.pc a) := by
  simp only [runStep] at h
  split at h
  · rcases a with - | key | out
    · exact taskStep_of_tick hp h
    · exact taskStep_of_firstPoll h
    · exact taskStep_of_ret hp h
  · exact absurd h (by simp)

/-- **So are the events of an action from outside.** -/
theorem taskStep_of_act {a : Act} {pc : Pc} (hp : Placed ex.roster pc) (h : ex.act a = some ex') :
    TaskStep ex.roster pc ex'.roster pc (ex.actEvents pc a) := by
  rcases a with - | hd | ⟨hd, waker⟩ | ⟨w, onLocal⟩ | i | i | c
  · obtain rfl := Option.some.inj h
    by_cases hb : ex.spawnedBorrowed = true
    · rw [spawn_of_borrowed hb, actEvents, if_pos hb]
      exact .stay
    · rw [spawn_of_not_borrowed (Bool.eq_false_iff.2 hb), actEvents, if_neg hb]
      exact .spawn
  · obtain rfl := Option.some.inj h
    rw [roster_cancel, actEvents]
    split
    next hlt => exact .cancel hlt
    next hge =>
      have heq : ex.handles.modify hd (fun _ ↦ ⟨true, none⟩) = ex.handles :=
        List.modify_eq_self (Nat.le_of_not_lt hge)
      rw [heq]
      exact .stay
  · obtain rfl := Option.some.inj h
    rw [actEvents]
    rcases hv : ex.rets[hd]?.bind RetData.value with - | v
    · split
      next hlt =>
        simp only [pollHandle, hv]
        exact .await (hp.rets_length ▸ hlt) hv
      next hge =>
        have heq : ex.rets.modify hd (fun ret ↦ { ret with waker := some waker }) = ex.rets :=
          List.modify_eq_self (Nat.le_of_not_lt hge)
        simp only [pollHandle, hv, heq]
        exact .stay
    · obtain ⟨ret, hret, -⟩ := Option.bind_eq_some_iff.1 hv
      rw [if_pos (List.getElem?_eq_some_iff.1 hret).1]
      simp only [pollHandle, hv]
      exact .take hv
  · obtain rfl := Option.some.inj h
    rw [roster_wake]
    exact .stay
  · obtain ⟨_, _, _, -, -, rfl⟩ := push_eq_some h
    exact .stay
  · obtain ⟨_, _, -, rfl⟩ := fire_eq_some h
    exact .stay
  · obtain rfl := Option.some.inj h
    exact .stay

end Executor

/-! ### Histories that lead to where the tasks are -/

/-- Every task is in one place, and its history leads to where it is. -/
structure Recorded (b : Roster V) (pc : Pc) (log : ℕ → List (TaskEvent V)) : Prop where
  placed : Placed b pc
  lives : ∀ id, Lives (log id) (b.life pc id)

namespace Recorded

variable {b b' : Roster V} {pc pc' : Pc} {log ev : ℕ → List (TaskEvent V)}

/-- A new executor has no tasks. -/
theorem new : Recorded (Executor.new : Executor V).roster .created fun _ ↦ [] := by
  refine ⟨⟨fun p q id hp ↦ ?_, fun p id hp ↦ ?_, rfl, by simp, by simp⟩, fun id ↦ ?_⟩
  · cases p <;> exact absurd hp (by simp [taskAt, Executor.roster, Executor.new, Pc.inHand])
  · cases p <;> exact absurd hp (by simp [taskAt, Executor.roster, Executor.new, Pc.inHand])
  · exact Leads.nil

theorem step (h : Recorded b pc log) (ht : TaskStep b pc b' pc' ev) :
    Recorded b' pc' fun id ↦ log id ++ ev id :=
  ⟨h.placed.step ht, fun id ↦ (h.lives id).append (life_of_taskStep h.placed ht id)⟩

/-- Where the executor is calm, it does not matter where. -/
theorem of_isCalm (h : Recorded b pc log) (hpc : pc.isCalm = true) (hpc' : pc'.isCalm = true) :
    Recorded b pc' log := by
  refine ⟨h.placed.step (.calm hpc hpc'), fun id ↦ ?_⟩
  rw [life_eq_of_isCalm hpc hpc' rfl Iff.rfl Iff.rfl rfl]
  exact h.lives id

end Recorded

theorem Pc.isCalm_of_isIdle {pc : Pc} (h : pc.isIdle = true) : pc.isCalm = true := by
  cases pc <;> first | rfl | exact absurd h (by simp [Pc.isIdle])

/-- The start of a poll of a `run` future does nothing to the tasks. -/
theorem Executor.roster_of_beginPoll {ex ex' : Executor V} {r r' : Run} {cx : ℕ}
    (h : ex.beginPoll r cx = some (ex', r')) :
    ex'.roster = ex.roster ∧ r.pc.isCalm = true ∧ r'.pc.isCalm = true := by
  obtain ⟨hpc, rfl, rfl⟩ | ⟨hpc, rfl, rfl⟩ := beginPoll_cases h
  · exact ⟨rfl, by rw [hpc]; rfl, rfl⟩
  · exact ⟨rfl, by rw [hpc]; rfl, rfl⟩

namespace Single

/-- Where the thread of the executor is. -/
def pc (s : Single V) : Pc := (s.run.map Run.pc).getD .created

theorem pc_eq {s : Single V} {r : Run} (hrun : s.run = some r) : s.pc = r.pc := by
  rw [pc, hrun]
  rfl

/-- The events of an action. -/
def taskEvents (s : Single V) : Act V → ℕ → List (TaskEvent V)
  | .run a => s.ex.runEvents s.pc a
  | .ex a => s.ex.actEvents s.pc a
  | _ => fun _ ↦ []

/-- The machine that keeps the histories of the tasks. -/
def recording (V : Type) : Machine (Logged (Single V) ℕ (TaskEvent V)) (Act V) :=
  (machine V).logged taskEvents

/-- **What a step does to the tasks.** -/
theorem taskStep_of_step {s t : Single V} {a : Act V} (hp : Placed s.ex.roster s.pc)
    (hs : s.step a = some t) :
    TaskStep s.ex.roster s.pc t.ex.roster t.pc (s.taskEvents a) := by
  cases step_cases hs
  case newRun hnone =>
    rw [pc, hnone]
    exact .calm rfl rfl
  case dropRun r hrun hidle =>
    rw [pc_eq hrun]
    exact .calm (Pc.isCalm_of_isIdle hidle) rfl
  case firstPoll r cx hrun hpc | poll r cx hrun hpc =>
    rw [pc_eq hrun, hpc]
    exact .calm rfl rfl
  case run a r r' ex' hrun _ =>
    rw [pc_eq hrun] at hp
    rw [taskEvents, pc_eq hrun]
    exact Executor.taskStep_of_runStep hp (runStep_of_step hs hrun)
  case ex a ex' hact _ => exact Executor.taskStep_of_act hp hact

/-- **The histories of the tasks, with one `run` future at a time.** -/
theorem recorded_of_run {as : List (Act V)} {t : Logged (Single V) ℕ (TaskEvent V)}
    (hrun : (recording V).run ⟨init, fun _ ↦ []⟩ as = some t) :
    Recorded t.state.ex.roster t.state.pc t.log := by
  refine Machine.run_preserves (I := fun t ↦ Recorded t.state.ex.roster t.state.pc t.log) ?_
    Recorded.new hrun
  intro s a t h hs
  obtain ⟨u, hu, rfl⟩ := Machine.step_logged_eq_some.1 hs
  exact h.step (taskStep_of_step h.placed hu)

end Single

namespace Overlapping

/-- Where the thread of the executor is: in the innermost `run` future. -/
def pc (s : Overlapping V) : Pc := (s.stack.head?.map Run.pc).getD .created

theorem pc_of_stack {s : Overlapping V} {r : Run} {rest : List Run} (hstack : s.stack = r :: rest) :
    s.pc = r.pc := by
  rw [pc, hstack]
  rfl

/-- The events of an action. -/
def taskEvents (s : Overlapping V) : Act V → ℕ → List (TaskEvent V)
  | .run a => s.ex.runEvents s.pc a
  | .ex a => s.ex.actEvents s.pc a
  | _ => fun _ ↦ []

/-- The machine that keeps the histories of the tasks. -/
def recording (V : Type) : Machine (Logged (Overlapping V) ℕ (TaskEvent V)) (Act V) :=
  (machine V).logged taskEvents

/-- The histories of the tasks, with overlapping `run` futures. The enclosing ones are busy with no
task. -/
structure RecordInv (s : Overlapping V) (log : ℕ → List (TaskEvent V)) : Prop where
  recorded : Recorded s.ex.roster s.pc log
  enclosing : ∀ r ∈ s.stack.tail, r.pc.isCalm = true

theorem RecordInv.step {s t : Overlapping V} {log : ℕ → List (TaskEvent V)} {a : Act V}
    (h : RecordInv s log) (hs : s.step a = some t) :
    RecordInv t fun id ↦ log id ++ s.taskEvents a id := by
  cases step_cases hs
  case newRun => exact ⟨h.recorded.step .stay, h.enclosing⟩
  case dropRun => exact ⟨h.recorded.step .stay, h.enclosing⟩
  case poll i cx r r' ex' _ hcan hbegin =>
    obtain ⟨hroster, -, hpc'⟩ := Executor.roster_of_beginPoll hbegin
    -- what polls a `run` future is a main future or nothing of this executor
    have hstack : ∀ r ∈ s.stack, r.pc.isCalm = true := by
      refine forall_mem_stack_of_canPoll hcan (fun r hpc ↦ ?_) h.enclosing
      obtain hpc | hpc := hpc
      · rw [hpc]
        rfl
      · rw [hpc]
        rfl
    have hpc : s.pc.isCalm = true := by
      rw [pc]
      rcases hhead : s.stack.head? with - | r₀
      · rfl
      · exact hstack r₀ (List.mem_of_mem_head? hhead)
    refine ⟨?_, hstack⟩
    rw [show (⟨ex', s.idle.eraseIdx i, r' :: s.stack⟩ : Overlapping V).ex.roster = s.ex.roster from
      hroster]
    exact h.recorded.step (.calm hpc hpc')
  case run a r r' rest ex' hstack hstep =>
    have hpc : s.pc = r.pc := pc_of_stack hstack
    have hrec := h.recorded
    have henclosing := h.enclosing
    rw [hstack] at henclosing
    rw [hpc] at hrec
    have hrec' := hrec.step (Executor.taskStep_of_runStep hrec.placed hstep)
    rw [taskEvents, hpc, settle]
    split
    next hidle =>
      refine ⟨hrec'.of_isCalm (Pc.isCalm_of_isIdle hidle) ?_, fun r₁ hr₁ ↦ ?_⟩
      · rw [pc]
        rcases hhead : rest.head? with - | r₀
        · rfl
        · exact henclosing r₀ (List.mem_of_mem_head? hhead)
      · exact henclosing r₁ (List.mem_of_mem_tail hr₁)
    next => exact ⟨hrec', henclosing⟩
  case ex a ex' hact _ =>
    exact ⟨h.recorded.step (Executor.taskStep_of_act h.recorded.placed hact), h.enclosing⟩

/-- **The histories of the tasks, with overlapping `run` futures.** -/
theorem recorded_of_run {as : List (Act V)} {t : Logged (Overlapping V) ℕ (TaskEvent V)}
    (hrun : (recording V).run ⟨init, fun _ ↦ []⟩ as = some t) :
    Recorded t.state.ex.roster t.state.pc t.log := by
  have hinv : RecordInv t.state t.log := by
    refine Machine.run_preserves (I := fun t ↦ RecordInv t.state t.log) ?_
      ⟨Recorded.new, by simp [init]⟩ hrun
    intro s a t h hs
    obtain ⟨u, hu, rfl⟩ := Machine.step_logged_eq_some.1 hs
    exact h.step hu
  exact hinv.recorded

end Overlapping

end LocalRuntime
