import LocalRuntime.Executor.Spawned
import LocalRuntime.Reactor.BlockOn

/-!
# Blocking on an executor

`Executor::block_on`: the loop of `block_on` over a `run` future, on the thread of its reactor. The
two machines `Single` and `BlockOn` run side by side here and meet at the wakers:

* the loop polls `run` with the waker of the thread's notifier, which `run` registers as its base
  waker;
* the last step of `TaskWaker::wake` takes that waker out of its cell and invokes it, which starts a
  call of `WithFlag::notify`;
* the wakers that `wait` invokes for events and for expired timers are, among others, those of
  tasks, and the loop does not go on before the calls it has made are over.

Whatever lies between taking the base waker and the compare-exchange on the flag is counted in
`callers`. Which thread such a call belongs to is not recorded, so that a call of the loop's own
thread may linger; this only adds runs.

`blocked_on_nothing` is what the parts are for. A wake of a task sets a flag, pushes an id, takes
the base waker, claims the notifier's flag and writes to its descriptor, and each of these hands
over to the next; so a thread that is blocked with nothing to read and none of these steps under way
has **nothing to do**.
-/

namespace LocalRuntime

variable {P N V : Type}

/-- The waker of the thread's notifier, which `block_on` polls its future with. -/
def NOTIFIER : ℕ := 0

/-- What the thread of an executor does when it invokes a waker. -/
def WakerRef.act : WakerRef → Executor.Act
  | task w => .wake w true
  | other b => .hear b

/-- A step of `wait`. -/
def BlockOn.Act.isWait {W : Type} [EventPoller P] : BlockOn.Act P W → Bool
  | .nextTimeout _ | .isNotified | .enterPoll | .leavePoll _ | .setToNotified | .deliver
  | .clearExpired _ | .clearInner _ | .storeFalse => true
  | _ => false

/-- The calls of the notifier's `wake` that a step has started. The history of the base waker
records them, whether it was taken out of its cell or cloned. -/
def Executor.calls (ex ex' : Executor V) : ℕ :=
  ex'.queue.baseWaker.woken.count NOTIFIER - ex.queue.baseWaker.woken.count NOTIFIER

/-- A thread that calls `block_on` on `run` futures of an executor, one after the other. -/
structure Thread (P N V : Type) where
  exec : Single V
  loop : BlockOn.State P N WakerRef
  /-- The wakers that `wait` has taken and not invoked yet. -/
  toWake : List WakerRef
  /-- Calls of the notifier's `wake` that have not reached the compare-exchange. -/
  callers : ℕ

namespace Thread

/-- One step of the thread, or of a thread that wakes its tasks. -/
inductive Act (P V : Type) [EventPoller P] where
  | newRun
  /-- The loop polls the `run` future. -/
  | poll
  | run (a : RunAct V)
  /-- The poll of the `run` future returns. -/
  | ret
  /-- A future uses the reactor. -/
  | use (poller : P) (sources : EventSources WakerRef) (timers : TimerQueue WakerRef)
  | ex (a : Executor.Act)
  /-- A step of `wait`. -/
  | wait (a : BlockOn.Act P WakerRef)
  /-- `wait` invokes the next waker. -/
  | invoke
  /-- A call of the notifier's `wake` makes its compare-exchange. -/
  | notify
  | write

/-- A thread about to call `block_on` for the first time. -/
def init (reactor : Reactor P N WakerRef) : Thread P N V where
  exec := .init
  loop :=
    { reactor
      pc := .top
      writers := 0
      woken := false
      outer := []
      invoked := [] }
  toWake := []
  callers := 0

/-- Code that is not the executor's can run: there is no `run` future, or it has not been polled
yet, or it has called such code. -/
def canAct (s : Thread P N V) : Bool := s.exec.run.all fun r ↦ r.pc == .created || r.pc.isUser

/-- A step of the executor. -/
def moved (s : Thread P N V) (exec : Single V) : Thread P N V :=
  { s with exec, callers := s.callers + s.exec.ex.calls exec.ex }

variable [EventPoller P] [EventNotifier N]

/-- The step of an action. -/
def step (s : Thread P N V) : Act P V → Option (Thread P N V)
  | .newRun => (s.exec.step .newRun).map fun exec ↦ { s with exec }
  | .poll =>
    (s.loop.step .beginPoll).bind fun loop ↦
      (s.exec.step (.poll NOTIFIER)).map fun exec ↦ { s with loop, exec }
  | .run a => if s.loop.pc = .polling then (s.exec.step (.run a)).map s.moved else none
  | .ret =>
    match s.exec.run with
    | some ⟨.pending, _, _⟩ => (s.loop.step .pending).map fun loop ↦ { s with loop }
    | some ⟨.done, _, _⟩ =>
      (s.loop.step .ready).bind fun loop ↦
        (s.exec.step .dropRun).map fun exec ↦ { s with loop, exec }
    | _ => none
  | .use poller sources timers =>
    if s.canAct ∧ s.exec.ex.LocalFree then
      (s.loop.step (.use poller sources timers)).map fun loop ↦ { s with loop }
    else none
  | .ex a => if a.isLocal → s.canAct then (s.exec.step (.ex a)).map s.moved else none
  | .wait a =>
    if a.isWait ∧ s.toWake.isEmpty ∧ s.exec.ex.LocalFree then
      (s.loop.step a).map fun loop ↦
        { s with loop, toWake := loop.invoked.drop s.loop.invoked.length }
    else none
  | .invoke =>
    match s.toWake with
    | [] => none
    | waker :: rest =>
      (s.exec.step (.ex waker.act)).map fun exec ↦ { s.moved exec with toWake := rest }
  | .notify =>
    if 0 < s.callers then
      (s.loop.step .notify).map fun loop ↦ { s with loop, callers := s.callers - 1 }
    else none
  | .write => (s.loop.step .write).map fun loop ↦ { s with loop }

/-- The machine of `Executor::block_on`. -/
def machine (P N V : Type) [EventPoller P] [EventNotifier N] : Machine (Thread P N V) (Act P V) :=
  ⟨step⟩

/-- Every step of the machine, as steps of its two parts. -/
inductive Step (s : Thread P N V) : Act P V → Thread P N V → Prop where
  | newRun {exec : Single V} (hexec : s.exec.step .newRun = some exec) :
      Step s .newRun { s with exec }
  | poll {exec : Single V} {loop : BlockOn.State P N WakerRef}
      (hloop : s.loop.step .beginPoll = some loop)
      (hexec : s.exec.step (.poll NOTIFIER) = some exec) : Step s .poll { s with loop, exec }
  | run {a : RunAct V} {exec : Single V} (hpc : s.loop.pc = .polling)
      (hexec : s.exec.step (.run a) = some exec) : Step s (.run a) (s.moved exec)
  | pending {r : Run} {loop : BlockOn.State P N WakerRef} (hrun : s.exec.run = some r)
      (hpc : r.pc = .pending) (hloop : s.loop.step .pending = some loop) :
      Step s .ret { s with loop }
  | ready {r : Run} {loop : BlockOn.State P N WakerRef} {exec : Single V}
      (hrun : s.exec.run = some r) (hpc : r.pc = .done) (hloop : s.loop.step .ready = some loop)
      (hexec : s.exec.step .dropRun = some exec) : Step s .ret { s with loop, exec }
  | use {poller : P} {sources : EventSources WakerRef} {timers : TimerQueue WakerRef}
      {loop : BlockOn.State P N WakerRef}
      (hloop : s.loop.step (.use poller sources timers) = some loop) :
      Step s (.use poller sources timers) { s with loop }
  | ex {a : Executor.Act} {exec : Single V} (hact : a.isLocal = true → s.canAct = true)
      (hexec : s.exec.step (.ex a) = some exec) : Step s (.ex a) (s.moved exec)
  | wait {a : BlockOn.Act P WakerRef} {loop : BlockOn.State P N WakerRef} (ha : a.isWait = true)
      (hloop : s.loop.step a = some loop) : Step s (.wait a)
        { s with loop, toWake := loop.invoked.drop s.loop.invoked.length }
  | invoke {waker : WakerRef} {rest : List WakerRef} {exec : Single V}
      (hwake : s.toWake = waker :: rest) (hexec : s.exec.step (.ex waker.act) = some exec) :
      Step s .invoke { s.moved exec with toWake := rest }
  | notify {loop : BlockOn.State P N WakerRef} (hloop : s.loop.step .notify = some loop) :
      Step s .notify { s with loop, callers := s.callers - 1 }
  | write {loop : BlockOn.State P N WakerRef} (hloop : s.loop.step .write = some loop) :
      Step s .write { s with loop }

theorem step_cases {s t : Thread P N V} {a : Act P V} (h : s.step a = some t) : Step s a t := by
  rcases a with - | - | a | - | ⟨poller, sources, timers⟩ | a | a | - | - | -
  · obtain ⟨exec, hexec, rfl⟩ := Option.map_eq_some_iff.1 h
    exact .newRun hexec
  · obtain ⟨loop, hloop, h⟩ := Option.bind_eq_some_iff.1 h
    obtain ⟨exec, hexec, rfl⟩ := Option.map_eq_some_iff.1 h
    exact .poll hloop hexec
  · simp only [step, Option.ite_none_right_eq_some, Option.map_eq_some_iff] at h
    obtain ⟨hpc, exec, hexec, rfl⟩ := h
    exact .run hpc hexec
  · simp only [step] at h
    split at h
    next hrun =>
      obtain ⟨loop, hloop, rfl⟩ := Option.map_eq_some_iff.1 h
      exact .pending hrun rfl hloop
    next hrun =>
      obtain ⟨loop, hloop, h⟩ := Option.bind_eq_some_iff.1 h
      obtain ⟨exec, hexec, rfl⟩ := Option.map_eq_some_iff.1 h
      exact .ready hrun rfl hloop hexec
    next => exact absurd h (by simp)
  · simp only [step, Option.ite_none_right_eq_some, Option.map_eq_some_iff] at h
    obtain ⟨-, loop, hloop, rfl⟩ := h
    exact .use hloop
  · simp only [step, Option.ite_none_right_eq_some, Option.map_eq_some_iff] at h
    obtain ⟨hact, exec, hexec, rfl⟩ := h
    exact .ex hact hexec
  · simp only [step, Option.ite_none_right_eq_some, Option.map_eq_some_iff] at h
    obtain ⟨⟨ha, -⟩, loop, hloop, rfl⟩ := h
    exact .wait ha hloop
  · simp only [step] at h
    split at h
    next => exact absurd h (by simp)
    next hwake =>
      obtain ⟨exec, hexec, rfl⟩ := Option.map_eq_some_iff.1 h
      exact .invoke hwake hexec
  · simp only [step, Option.ite_none_right_eq_some, Option.map_eq_some_iff] at h
    obtain ⟨-, loop, hloop, rfl⟩ := h
    exact .notify hloop
  · obtain ⟨loop, hloop, rfl⟩ := Option.map_eq_some_iff.1 h
    exact .write hloop

/-! ### The two parts -/

variable {s t : Thread P N V}

/-- What a step does to the loop. It nests no call. -/
theorem Step.loop_cases {a : Act P V} (hs : Step s a t) :
    t.loop = s.loop ∨ ∃ a', s.loop.step a' = some t.loop ∧ a' ≠ .nest := by
  cases hs
  case newRun | run | ex | invoke => exact Or.inl rfl
  case wait a loop ha hloop =>
    refine Or.inr ⟨a, hloop, ?_⟩
    rintro rfl
    exact absurd ha (by simp [BlockOn.Act.isWait])
  all_goals exact Or.inr ⟨_, ‹s.loop.step _ = some _›, by simp⟩

end Thread

/-! ### What the executor promises to the loop -/

/-- There are no tasks: the reset is not over, or everything has been dropped. -/
def Pc.hasNoTasks : Pc → Bool
  | .created | .resetting | .clearTasks _ | .cleared | .clearSpawned _ | .dropMain | .done => true
  | _ => false

namespace Executor

variable {ex ex' : Executor V} {r r' : Run}

/-- **The history of the base waker starts anew when it is registered.** -/
theorem Trans.woken_eq_nil (ht : ex.Trans r ex' r') (hpc : r.pc.isRegistered = false)
    (hpc' : r'.pc.isRegistered = true) : ex'.queue.baseWaker.woken = [] := by
  cases ht
  case register => rfl
  case resetDone => exact absurd hpc' (by simp [Pc.isRegistered])
  case resetPop | borrowTasks | borrowSpawned | unwrap | mainTaskId =>
    exact absurd hpc' (by simp [hpc])
  all_goals exact absurd hpc (by simp [‹r.pc = _›, Pc.isRegistered])

theorem Trans.cx_eq (ht : ex.Trans r ex' r') : r'.cx = r.cx := by
  cases ht <;> rfl

/-- Where there are no tasks there were none before, or they have just been dropped. -/
theorem Trans.get_eq_none (ht : ex.Trans r ex' r')
    (hempty : r.pc.hasNoTasks = true → ∀ k, ex.tasks.get k = none)
    (hnone : r'.pc.hasNoTasks = true) (k : ℕ) : ex'.tasks.get k = none := by
  cases ht
  case clear => exact Slab.get_empty k
  case resetPop | borrowTasks | borrowSpawned | unwrap | mainTaskId => exact hempty hnone k
  case clearedTasks | clearSpawned | clearedSpawned | droppedClearTasks | droppedClearSpawned |
      droppedMain => exact hempty (by simp [‹r.pc = _›, Pc.hasNoTasks]) k
  all_goals exact absurd hnone (by simp [Pc.hasNoTasks])

end Executor

namespace Single

open Executor

variable {s t : Single V}

/-- What `block_on` does not do to a `run` future: drop it before it is done, poll it with another
waker, or spawn a task between two polls. -/
def OnlyBlocks (s : Single V) : Act V → Prop
  | .dropRun => ∀ r, s.run = some r → r.pc = .done
  | .poll cx => cx = NOTIFIER
  | .ex .spawn => ∀ r, s.run = some r → r.pc ≠ .pending
  | _ => True

/-- The executor of a thread that only blocks on its `run` futures. -/
structure BlockInv (s : Single V) : Prop where
  run : ∀ r, s.run = some r → RunInv s r
  no_tasks : (∀ r, s.run = some r → r.pc.hasNoTasks = true) → ∀ k, s.ex.tasks.get k = none
  cx : ∀ r, s.run = some r → r.pc ≠ .created → r.cx = NOTIFIER
  /-- A poll that has returned pending has left no task behind. -/
  spawned : ∀ r, s.run = some r → r.pc = .pending → s.ex.spawned = []

theorem blockInv_init : BlockInv (init : Single V) where
  run r hr := absurd hr (by simp [init])
  no_tasks _ := Slab.get_empty
  cx r hr := absurd hr (by simp [init])
  spawned r hr := absurd hr (by simp [init])

/-- The `run` future of the next state keeps what it was promised at its start. -/
theorem BlockInv.run_step {a : Act V} (h : BlockInv s) (hs : Step s a t) :
    ∀ r, t.run = some r → RunInv t r := by
  intro r' hr'
  by_cases ha : a = .dropRun
  · subst ha
    cases hs
    exact absurd hr' (by simp)
  rcases hrun : s.run with - | r
  · -- without a `run` future there is only a new one to be made
    cases hs
    case newRun =>
      obtain rfl := Option.some.inj hr'
      exact .start rfl rfl (h.no_tasks fun r hr ↦ absurd hr (by simp [hrun]))
    case dropRun => exact absurd rfl ha
    case ex => exact absurd hr' (by simp [hrun])
    all_goals exact absurd ‹s.run = some _› (by simp [hrun])
  · obtain ⟨r₁, h₁, -⟩ := (h.run r hrun).step ha hs
    obtain rfl := Option.some.inj (h₁.run_eq ▸ hr')
    exact h₁

/-- **One step of the executor under `block_on`.** -/
theorem BlockInv.step {a : Act V} (h : BlockInv s) (hs : Step s a t) (ha : OnlyBlocks s a) :
    BlockInv t := by
  refine ⟨h.run_step hs, ?_, ?_, ?_⟩
  · -- no tasks
    cases hs
    case newRun hnone =>
      intro _
      exact h.no_tasks fun r hr ↦ absurd hr (by simp [hnone])
    case dropRun r hrun _ =>
      intro _
      refine h.no_tasks fun r' hr' ↦ ?_
      rw [ha r' hr']
      rfl
    case firstPoll r cx hrun hpc =>
      intro _
      refine h.no_tasks fun r' hr' ↦ ?_
      obtain rfl := Option.some.inj (hrun ▸ hr')
      rw [hpc]
      rfl
    case poll r cx hrun hpc =>
      intro hno
      exact absurd (hno _ rfl) (by simp [Pc.hasNoTasks])
    case run r r' ex' hrun ht =>
      intro hno
      refine ht.get_eq_none (fun hpc ↦ h.no_tasks fun r₁ hr₁ ↦ ?_) (hno r' rfl)
      obtain rfl := Option.some.inj (hrun ▸ hr₁)
      exact hpc
    case ex ex' hact _ =>
      intro hno
      rw [(touch_of_act hact).tasks_eq]
      exact h.no_tasks hno
  · -- the waker
    cases hs
    case newRun =>
      intro r hr hpc
      obtain rfl := Option.some.inj hr
      exact absurd rfl hpc
    case dropRun => exact fun r hr ↦ absurd hr (by simp)
    case firstPoll | poll =>
      intro r hr _
      obtain rfl := Option.some.inj hr
      exact ha
    case run r r' ex' hrun ht =>
      intro r₁ hr₁ _
      obtain rfl := Option.some.inj hr₁
      rw [ht.cx_eq]
      exact h.cx r hrun ht.ne_created
    case ex => exact h.cx
  · -- the spawned tasks
    cases hs
    case newRun | firstPoll | poll =>
      intro r hr hpc
      obtain rfl := Option.some.inj hr
      exact absurd hpc (by simp [Run.new])
    case dropRun => exact fun r hr ↦ absurd hr (by simp)
    case run r r' ex' hrun ht =>
      intro r₁ hr₁ hpc
      obtain rfl := Option.some.inj hr₁
      exact ht.spawned_eq_nil hpc
    case ex a ex' hact _ =>
      intro r hr hpc
      have hspawn : a ≠ .spawn := by
        rintro rfl
        exact ha r hr hpc
      show ex'.spawned = []
      rw [(spawned_of_act hact hspawn).1]
      exact h.spawned r hr hpc

/-- A step of the executor that neither polls its `run` future nor drops it. -/
theorem place_of_step {a : Act V} (hs : Step s a t)
    (hpoll : ∀ cx, a ≠ .poll cx) (hdrop : a ≠ .dropRun) :
    ((∀ r, t.run = some r → r.pc = .created) → ∀ r, s.run = some r → r.pc = .created) ∧
      ∀ r', t.run = some r' → r'.pc ≠ .created → r'.pc ≠ .pending →
        ∃ r, s.run = some r ∧ r.pc ≠ .created ∧ r.pc ≠ .pending := by
  cases hs
  case dropRun => exact absurd rfl hdrop
  case firstPoll | poll => exact absurd rfl (hpoll _)
  case newRun hnone =>
    refine ⟨fun _ r hr ↦ absurd hr (by simp [hnone]), fun r' hr' hne ↦ ?_⟩
    obtain rfl := Option.some.inj hr'
    exact absurd rfl hne
  case run r r' ex' hrun ht =>
    have hpending : r.pc ≠ .pending := by
      intro hpc
      exact absurd ht.not_isIdle (by simp [hpc, Pc.isIdle])
    refine ⟨fun hall ↦ ?_, fun _ _ _ _ ↦ ⟨r, hrun, ht.ne_created, hpending⟩⟩
    have hcreated := hall r' rfl
    obtain ⟨hpc, -⟩ := tasks_eq_of_resetting ht (Or.inl hcreated)
    exact absurd (hpc ▸ hcreated) ht.ne_created
  case ex => exact ⟨id, fun r hr hne hne' ↦ ⟨r, hr, hne, hne'⟩⟩

end Single

/-! ### What the loop promises to the executor -/

namespace BlockOn

variable {W : Type}

/-- The timeout that the loop has computed. -/
def Pc.deadline : Pc → Option (Option Duration)
  | .check d | .enter d | .blocked d => some d
  | _ => none

/-- The loop goes to sleep with what is left until the first timer, and not with nothing. -/
structure Deadline (s : State P N W) : Prop where
  next : ∀ d, s.pc.deadline = some d → ∃ now, s.reactor.timerQueue.nextTimeout now = d
  ne_zero : ∀ d, s.pc.asleep = true → s.pc.deadline = some d → d ≠ some 0

variable {s t : State P N W}

/-- Where no timeout has been computed there is nothing to show. -/
theorem Deadline.of_deadline_eq_none (hpc : s.pc.deadline = none) : Deadline s :=
  ⟨fun d hd ↦ absurd hd (by simp [hpc]), fun d _ hd ↦ absurd hd (by simp [hpc])⟩

/-- A step that changes neither the place nor the timers. -/
theorem Deadline.of_eq (h : Deadline s) (hpc : t.pc = s.pc)
    (htimers : t.reactor.timerQueue = s.reactor.timerQueue) : Deadline t := by
  refine ⟨fun d hd ↦ ?_, fun d ha hd ↦ ?_⟩
  · rw [htimers]
    exact h.next d (hpc ▸ hd)
  · exact h.ne_zero d (hpc ▸ ha) (hpc ▸ hd)

variable [EventPoller P] [EventNotifier N]

/-- **Nobody touches the timers between the computation of the timeout and the kernel.** -/
theorem Deadline.step {a : Act P W} (h : Deadline s) (hs : s.step a = some t) : Deadline t := by
  rcases a with - | ⟨p, srcs, tq⟩ | - | - | - | now | - | - | env | - | - | now | err | - | - | -
  all_goals simp only [State.step, Option.ite_none_right_eq_some, Option.some.injEq] at hs
  case beginPoll | nest | pending | clearExpired | clearInner | storeFalse =>
    obtain ⟨-, rfl⟩ := hs
    exact .of_deadline_eq_none rfl
  case use =>
    obtain ⟨hpc, rfl⟩ := hs
    refine .of_deadline_eq_none ?_
    rcases hpc with hpc | hpc
    · simp [hpc, Pc.deadline]
    · simp [hpc, Pc.deadline]
  case ready =>
    obtain ⟨hpc, hs⟩ := hs
    split at hs
    · obtain rfl := Option.some.inj hs
      exact .of_deadline_eq_none rfl
    · obtain rfl := Option.some.inj hs
      exact h.of_eq rfl rfl
  case nextTimeout =>
    obtain ⟨-, rfl⟩ := hs
    refine ⟨fun d hd ↦ ⟨now, Option.some.inj hd⟩, fun d ha ↦ ?_⟩
    exact absurd ha (by simp [Pc.asleep])
  case isNotified =>
    split at hs
    next timeout hpc =>
      split at hs
      · obtain rfl := Option.some.inj hs
        exact .of_deadline_eq_none rfl
      next hskip =>
        obtain rfl := Option.some.inj hs
        simp only [Bool.or_eq_true, not_or, Bool.not_eq_true] at hskip
        refine ⟨fun d hd ↦ h.next d (hpc ▸ hd), fun d _ hd hzero ↦ ?_⟩
        obtain rfl := Option.some.inj hd
        exact absurd hskip.1 (by simp [hzero])
    · exact absurd hs (by simp)
  case enterPoll =>
    split at hs
    next timeout hpc =>
      obtain rfl := Option.some.inj hs
      exact ⟨fun d hd ↦ h.next d (hpc ▸ hd), fun d _ hd ↦ h.ne_zero d (hpc ▸ rfl) (hpc ▸ hd)⟩
    · exact absurd hs (by simp)
  case leavePoll | setToNotified =>
    split at hs
    · try split at hs
      all_goals
        obtain rfl := Option.some.inj hs
        exact .of_deadline_eq_none rfl
    · exact absurd hs (by simp)
  case deliver =>
    split at hs
    · obtain rfl := Option.some.inj hs
      exact .of_deadline_eq_none rfl
    · split at hs
      all_goals
        obtain rfl := Option.some.inj hs
        exact .of_deadline_eq_none rfl
    · exact absurd hs (by simp)
  case notify =>
    subst hs
    exact h.of_eq rfl rfl
  case write =>
    obtain ⟨-, rfl⟩ := hs
    exact h.of_eq rfl rfl

/-- A step of `wait` is made inside `wait`. -/
theorem ne_of_isWait {a : Act P W} (ha : a.isWait = true) (hs : s.step a = some t) :
    s.pc ≠ .top ∧ s.pc ≠ .polling := by
  rcases a with - | ⟨p, srcs, tq⟩ | - | - | - | now | - | - | env | - | - | now | err | - | - | -
  all_goals simp only [State.step, Option.ite_none_right_eq_some, Option.some.injEq] at hs
  case beginPoll | use | nest | ready | pending | notify | write =>
    exact absurd ha (by simp [Act.isWait])
  case nextTimeout | clearExpired | clearInner | storeFalse =>
    obtain ⟨hpc, -⟩ := hs
    simp [hpc]
  all_goals
    split at hs
    all_goals first | simp [‹s.pc = _›] | exact absurd hs (by simp)

/-- Only the start of a poll forgets that the future has been woken. -/
theorem woken_of_step {a : Act P W} (hs : s.step a = some t) (hbegin : a ≠ .beginPoll)
    (houter : s.outer = []) (hwoken : s.woken = true) : t.woken = true := by
  rcases notifyStep_of_step hs with ⟨-, -, -, -, heq, -⟩ | - | - | ⟨-, hcons⟩ | - | - |
    - | - | - | -
  case same => exact heq.trans hwoken
  case beginPoll => exact absurd rfl hbegin
  case ready => exact absurd (houter.symm.trans hcons) (by simp)
  case notify => rfl
  all_goals exact hwoken

end BlockOn

/-! ### The thread -/

namespace Thread

/-- The two parts keep their promises, and meet where they should: the loop is in the poll of the
`run` future exactly while that future is being polled, and what the base waker has heard has been
passed on. -/
structure Inv [NotifierFd N] (s : Thread P N V) : Prop where
  exec : Single.BlockInv s.exec
  notify : BlockOn.NotifyInv s.loop
  deadline : BlockOn.Deadline s.loop
  top : (∀ r, s.exec.run = some r → r.pc = .created) → s.loop.pc = .top
  polling : ∀ r, s.exec.run = some r → r.pc ≠ .created → r.pc ≠ .pending → s.loop.pc = .polling
  /-- A call that the base waker has heard has set the notifier's flag, or is about to. -/
  called : ∀ r, s.exec.run = some r → r.pc.isRegistered = true →
    0 < s.exec.ex.queue.baseWaker.woken.count NOTIFIER → s.loop.woken = true ∨ 0 < s.callers

theorem inv_init [NotifierFd N] (reactor : Reactor P N WakerRef) :
    Inv (init reactor : Thread P N V) where
  exec := Single.blockInv_init
  notify := .of_top rfl rfl
  deadline := .of_deadline_eq_none rfl
  top _ := rfl
  polling r hr := absurd hr (by simp [init, Single.init])
  called r hr := absurd hr (by simp [init, Single.init])

variable [EventPoller P] [NotifierFd N] {s t : Thread P N V}

/-- The steps of the thread are among those that `BlockInv` allows. -/
theorem Inv.exec_step {a : Act P V} (h : Inv s) (hs : Step s a t) : Single.BlockInv t.exec := by
  cases hs
  case pending | use | wait | notify | write => exact h.exec
  case newRun hexec => exact h.exec.step (Single.step_cases hexec) trivial
  case poll hexec => exact h.exec.step (Single.step_cases hexec) rfl
  case run hexec => exact h.exec.step (Single.step_cases hexec) trivial
  case ready r _ _ hrun hpc _ hexec =>
    refine h.exec.step (Single.step_cases hexec) fun r' hr' ↦ ?_
    obtain rfl := Option.some.inj (hrun ▸ hr')
    exact hpc
  case ex a _ hact hexec =>
    refine h.exec.step (Single.step_cases hexec) ?_
    by_cases ha : a = .spawn
    · subst ha
      intro r hr hpc
      exact absurd (hact rfl) (by simp [canAct, hr, hpc, Pc.isUser])
    · cases a
      case spawn => exact absurd rfl ha
      all_goals trivial
  case invoke waker _ _ _ hexec =>
    refine h.exec.step (Single.step_cases hexec) ?_
    cases waker <;> trivial

/-- The loop keeps the protocol of its flag, and its timeout. -/
theorem Inv.loop_step {a : Act P V} (h : Inv s) (hs : Step s a t) :
    BlockOn.NotifyInv t.loop ∧ BlockOn.Deadline t.loop := by
  rcases hs.loop_cases with heq | ⟨a', hloop, hne⟩
  · rw [heq]
    exact ⟨h.notify, h.deadline⟩
  · exact ⟨h.notify.step hne hloop, h.deadline.step hloop⟩

omit [EventPoller P] in
/-- A loop that is in `wait` has a `run` future, and its last poll has returned pending. -/
theorem Inv.exists_pending (h : Inv s) (htop : s.loop.pc ≠ .top) (hpoll : s.loop.pc ≠ .polling) :
    ∃ r, s.exec.run = some r ∧ r.pc = .pending := by
  by_contra hno
  refine htop (h.top fun r hr ↦ ?_)
  by_contra hne
  exact hpoll (h.polling r hr hne fun hpc ↦ hno ⟨r, hr, hpc⟩)

/-- **The two parts stay together.** -/
theorem Inv.place_step {a : Act P V} (h : Inv s) (hs : Step s a t) :
    ((∀ r, t.exec.run = some r → r.pc = .created) → t.loop.pc = .top) ∧
      ∀ r, t.exec.run = some r → r.pc ≠ .created → r.pc ≠ .pending → t.loop.pc = .polling := by
  -- a step of the executor alone, and a step of the loop that does not move it
  have of_exec {exec : Single V} {a' : Single.Act V} (hexec : s.exec.step a' = some exec)
      (hpoll : ∀ cx, a' ≠ .poll cx) (hdrop : a' ≠ .dropRun) :
      ((∀ r, exec.run = some r → r.pc = .created) → s.loop.pc = .top) ∧
        ∀ r, exec.run = some r → r.pc ≠ .created → r.pc ≠ .pending → s.loop.pc = .polling := by
    obtain ⟨htop, hpolling⟩ := Single.place_of_step (Single.step_cases hexec) hpoll hdrop
    refine ⟨fun hall ↦ h.top (htop hall), fun r hr hne hne' ↦ ?_⟩
    obtain ⟨r₀, hr₀, hne₀, hne₀'⟩ := hpolling r hr hne hne'
    exact h.polling r₀ hr₀ hne₀ hne₀'
  have of_pc {loop : BlockOn.State P N WakerRef} (hpc : loop.pc = s.loop.pc) :
      ((∀ r, s.exec.run = some r → r.pc = .created) → loop.pc = .top) ∧
        ∀ r, s.exec.run = some r → r.pc ≠ .created → r.pc ≠ .pending → loop.pc = .polling :=
    ⟨fun hall ↦ hpc.trans (h.top hall), fun r hr hne hne' ↦ hpc.trans (h.polling r hr hne hne')⟩
  -- a pending `run` future leaves the loop alone
  have of_pending {loop : BlockOn.State P N WakerRef} {r : Run} (hrun : s.exec.run = some r)
      (hpc : r.pc = .pending) :
      ((∀ r, s.exec.run = some r → r.pc = .created) → loop.pc = .top) ∧
        ∀ r, s.exec.run = some r → r.pc ≠ .created → r.pc ≠ .pending → loop.pc = .polling := by
    refine ⟨fun hall ↦ ?_, fun r' hr' _ hne ↦ ?_⟩
    · exact absurd (hall r hrun) (by simp [hpc])
    · obtain rfl := Option.some.inj (hrun ▸ hr')
      exact absurd hpc hne
  cases hs
  case newRun hexec => exact of_exec hexec (by simp) (by simp)
  case run hexec => exact of_exec hexec (by simp) (by simp)
  case ex hexec => exact of_exec hexec (by simp) (by simp)
  case invoke hexec => exact of_exec hexec (by simp) (by simp)
  case pending hrun hpc _ => exact of_pending hrun hpc
  case wait ha hloop =>
    obtain ⟨htop, hpoll⟩ := BlockOn.ne_of_isWait ha hloop
    obtain ⟨r, hrun, hpc⟩ := h.exists_pending htop hpoll
    exact of_pending hrun hpc
  case poll exec loop hloop hexec =>
    simp only [BlockOn.State.step, Option.ite_none_right_eq_some, Option.some.injEq] at hloop
    obtain ⟨-, rfl⟩ := hloop
    refine ⟨fun hall ↦ ?_, fun _ _ _ _ ↦ rfl⟩
    cases Single.step_cases hexec
    case firstPoll => exact absurd (hall _ rfl) (by simp)
    case poll => exact absurd (hall _ rfl) (by simp)
  case ready loop exec hrun hpc hloop hexec =>
    cases Single.step_cases hexec
    refine ⟨fun _ ↦ ?_, fun r hr ↦ absurd hr (by simp)⟩
    simp only [BlockOn.State.step, h.notify.outer_eq_nil, Option.ite_none_right_eq_some,
      Option.some.injEq] at hloop
    obtain ⟨-, rfl⟩ := hloop
    rfl
  case use hloop =>
    simp only [BlockOn.State.step, Option.ite_none_right_eq_some, Option.some.injEq] at hloop
    obtain ⟨-, rfl⟩ := hloop
    exact of_pc rfl
  case notify hloop =>
    obtain rfl := Option.some.inj hloop
    exact of_pc rfl
  case write hloop =>
    simp only [BlockOn.State.step, Option.ite_none_right_eq_some, Option.some.injEq] at hloop
    obtain ⟨-, rfl⟩ := hloop
    exact of_pc rfl

/-- **What the base waker hears is passed on.** Its history only starts anew after the loop has
begun a poll, and whatever is added to it is a call. -/
theorem Inv.called_step {a : Act P V} (h : Inv s) (hs : Step s a t) :
    ∀ r, t.exec.run = some r → r.pc.isRegistered = true →
      0 < t.exec.ex.queue.baseWaker.woken.count NOTIFIER → t.loop.woken = true ∨ 0 < t.callers := by
  have of_moved {exec : Single V} {r₀ : Run} (hrun : s.exec.run = some r₀)
      (hreg : r₀.pc.isRegistered = true)
      (hcount : 0 < exec.ex.queue.baseWaker.woken.count NOTIFIER) :
      s.loop.woken = true ∨ 0 < s.callers + s.exec.ex.calls exec.ex := by
    rcases Nat.eq_zero_or_pos (s.exec.ex.queue.baseWaker.woken.count NOTIFIER) with hzero | hpos
    · refine Or.inr (Nat.add_pos_right _ ?_)
      rw [Executor.calls, hzero]
      exact hcount
    · exact (h.called r₀ hrun hreg hpos).imp_right fun hc ↦ Nat.add_pos_left hc _
  have of_loop {loop : BlockOn.State P N WakerRef} {a' : BlockOn.Act P WakerRef}
      (hloop : s.loop.step a' = some loop) (hne : a' ≠ .beginPoll) {r : Run}
      (hrun : s.exec.run = some r) (hreg : r.pc.isRegistered = true)
      (hcount : 0 < s.exec.ex.queue.baseWaker.woken.count NOTIFIER) :
      loop.woken = true ∨ 0 < s.callers :=
    (h.called r hrun hreg hcount).imp_left
      (BlockOn.woken_of_step hloop hne h.notify.outer_eq_nil)
  intro r hr hreg hcount
  cases hs
  case newRun hexec =>
    cases Single.step_cases hexec
    obtain rfl := Option.some.inj hr
    exact absurd hreg (by simp [Run.new, Pc.isRegistered])
  case poll hexec =>
    cases Single.step_cases hexec
    all_goals
      obtain rfl := Option.some.inj hr
      exact absurd hreg (by simp [Pc.isRegistered])
  case run exec hpc hexec =>
    cases Single.step_cases hexec
    case run r₀ r' ex' hrun ht =>
      obtain rfl := Option.some.inj hr
      rcases hreg₀ : r₀.pc.isRegistered with - | -
      · have hnil := ht.woken_eq_nil hreg₀ hreg
        exact absurd hcount (by simp [moved, hnil])
      · exact of_moved hrun hreg₀ hcount
  case ex exec hact hexec =>
    cases Single.step_cases hexec
    exact of_moved hr hreg hcount
  case invoke exec hwake hexec =>
    cases Single.step_cases hexec
    exact of_moved hr hreg hcount
  case ready hexec =>
    cases Single.step_cases hexec
    exact absurd hr (by simp)
  case pending hloop => exact of_loop hloop (by simp) hr hreg hcount
  case use hloop => exact of_loop hloop (by simp) hr hreg hcount
  case write hloop => exact of_loop hloop (by simp) hr hreg hcount
  case wait ha hloop =>
    refine of_loop hloop ?_ hr hreg hcount
    rintro rfl
    exact absurd ha (by simp [BlockOn.Act.isWait])
  case notify hloop =>
    obtain rfl := Option.some.inj hloop
    exact Or.inl rfl

/-- **One step of the thread.** -/
theorem Inv.step {a : Act P V} (h : Inv s) (hs : Step s a t) : Inv t where
  exec := h.exec_step hs
  notify := (h.loop_step hs).1
  deadline := (h.loop_step hs).2
  top := (h.place_step hs).1
  polling := (h.place_step hs).2
  called := h.called_step hs

/-- The executor has nothing to do: no id is queued, and neither a task nor the main future is
awoken. -/
structure Idle (ex : Executor V) (r : Run) : Prop where
  queue : ∀ id, ¬ ex.queue.Has id
  tasks : ∀ k task, ex.tasks.get k = some task → ∃ tw, ex.wakers[task.waker]? = some tw ∧
    tw.awoken = false
  main : ∃ tw, ex.wakers[r.mainWaker]? = some tw ∧ tw.awoken = false

/-- A waker without a trace is not awoken. -/
theorem awoken_eq_false {ex : Executor V} {r : Run} {w id : ℕ} (hkept : ex.Kept (some r) w id)
    (hqueue : ¬ ex.queue.Has id) (hflights : ex.flights = []) (hpc : r.pc = .pending) :
    ∃ tw, ex.wakers[w]? = some tw ∧ tw.awoken = false := by
  obtain ⟨tw, hw, -, htraced⟩ := hkept
  refine ⟨tw, hw, Bool.eq_false_iff.2 fun hawoken ↦ ?_⟩
  rcases htraced hawoken with hhas | ⟨f, hf, -⟩ | ⟨r', hr', hpopped⟩
  · exact hqueue hhas
  · exact absurd hf (by simp [hflights])
  · obtain rfl := Option.some.inj hr'
    exact absurd hpopped (by simp [hpc, Pc.Popped])

/-- **A thread that is blocked has nothing to do.** In every state that `block_on` on the `run`
futures of an executor can reach, one after the other, with any tasks, any use of the reactor and
wakes from any thread: if the loop is blocked in the kernel, it is blocked for what was left until
the first timer, the last poll of `run` has returned pending and no task waits for its first poll;
and unless the notifier's descriptor is readable or some wake is under way — between two steps of
`TaskWaker::wake`, before its compare-exchange on the notifier's flag, or before its write — no task
and no main future is awoken. -/
theorem blocked_on_nothing (reactor : Reactor P N WakerRef) (as : List (Act P V)) (t : Thread P N V)
    (hrun : (machine P N V).run (init reactor) as = some t) (d : Option Duration)
    (hpc : t.loop.pc = .blocked d) :
    (∃ now, t.loop.reactor.timerQueue.nextTimeout now = d) ∧ d ≠ some 0 ∧
    ∃ r, t.exec.run = some r ∧ r.pc = .pending ∧ t.exec.ex.spawned = [] ∧
      (NotifierFd.readable t.loop.reactor.notifier.inner = true ∨ 0 < t.loop.writers ∨
        0 < t.callers ∨ t.exec.ex.flights ≠ [] ∨ Idle t.exec.ex r) := by
  have hinv : Inv t :=
    Machine.run_preserves (M := machine P N V) (fun _ _ _ h hs ↦ h.step (step_cases hs))
      (inv_init reactor) hrun
  refine ⟨hinv.deadline.next d (by rw [hpc]; rfl), ?_, ?_⟩
  · exact hinv.deadline.ne_zero d (by rw [hpc]; rfl) (by rw [hpc]; rfl)
  obtain ⟨r, hr, hpending⟩ := hinv.exists_pending (by simp [hpc]) (by simp [hpc])
  refine ⟨r, hr, hpending, hinv.exec.spawned r hr hpending, ?_⟩
  by_contra hno
  simp only [not_or, not_not, Bool.not_eq_true, Nat.not_lt, Nat.le_zero] at hno
  obtain ⟨hread, hwriters, hcallers, hflights, hidle⟩ := hno
  have hrunInv := hinv.exec.run r hr
  -- nobody has called the notifier since the poll began
  have hwoken : t.loop.woken = false := by
    by_contra hwoken
    have hflag := hinv.notify.flag_of_woken (by rw [hpc]; rfl) (Bool.eq_true_of_not_eq_false hwoken)
    rcases hinv.notify.fd_of_flag (by rw [hpc]; rfl) hflag with hr | hw
    · exact absurd hr (by simp [hread])
    · exact absurd hw (by simp [hwriters])
  -- so nobody has woken the base waker, and the queue is empty
  have hqueue (id : ℕ) : ¬ t.exec.ex.queue.Has id := by
    intro hid
    have hregistered : r.pc.isRegistered = true := by rw [hpending]; rfl
    have hheard := hrunInv.queue.heard 0 0 (by simp [hpending, Pc.left])
      (hid.imp List.length_pos_of_mem List.length_pos_of_mem)
    rcases hheard with ⟨w, hw, hmem⟩ | ⟨f, hf, -⟩
    · have hcx := hrunInv.queue.registered hregistered
      obtain rfl : w = NOTIFIER := by
        rw [hw, hinv.exec.cx r hr (by simp [hpending])] at hcx
        exact Option.some.inj hcx
      rcases hinv.called r hr hregistered (List.count_pos_iff.2 hmem) with hc | hc
      · exact absurd hc (by simp [hwoken])
      · exact absurd hc (by simp [hcallers])
    · exact absurd hf (by simp [hflights])
  refine hidle ⟨hqueue, fun k task hk ↦ ?_, ?_⟩
  · have hkept := (hrunInv.wakes.tasks k task hk).2
    rw [hr] at hkept
    exact awoken_eq_false hkept (hqueue k) hflights hpending
  · have hkept := hrunInv.wakes.main r hr (by simp [hpending])
    rw [hr] at hkept
    exact awoken_eq_false hkept (hqueue MAIN_TASK_ID) hflights hpending

/-- A reactor over an eventfd and a timerfd. -/
def linuxReactor : Reactor (PollPoller TimerFd) EventFd WakerRef :=
  ⟨⟨[], 3, ⟨4, TimerFd.itimerspec none⟩⟩, ∅, .new, .new ⟨3, 0⟩⟩

/-- The main future spawns a task, both are pending, and the loop goes to sleep. -/
def sleepWithTask : List (Act (PollPoller TimerFd) Unit) :=
  List.flatten [[.newRun, .poll], List.replicate 7 (.run .tick),
    [.ex .spawn, .run (.ret none), .run .tick, .run .tick, .run (.firstPoll 0), .run (.ret none),
      .run .tick, .ret],
    [.wait (.nextTimeout 0), .wait .isNotified, .wait .enterPoll]]

theorem blocked_on_nothing_sleepWithTask :
    ∃ t, (machine (PollPoller TimerFd) EventFd Unit).run (init linuxReactor) sleepWithTask =
      some t ∧ t.loop.pc = .blocked none ∧ (t.exec.ex.tasks.get 0).isSome = true ∧
      ∃ r, t.exec.run = some r ∧ r.pc = .pending ∧ Idle t.exec.ex r := by
  obtain ⟨t, hrun, hpc, htask, hread, hwriters, hcallers, hflights⟩ :
      ∃ t, (machine (PollPoller TimerFd) EventFd Unit).run (init linuxReactor) sleepWithTask =
        some t ∧ t.loop.pc = .blocked none ∧ (t.exec.ex.tasks.get 0).isSome = true ∧
        NotifierFd.readable t.loop.reactor.notifier.inner = false ∧ t.loop.writers = 0 ∧
        t.callers = 0 ∧ t.exec.ex.flights = [] := ⟨_, rfl, rfl, rfl, rfl, rfl, rfl, rfl⟩
  obtain ⟨-, -, r, hr, hpending, -, hquiet⟩ :=
    blocked_on_nothing linuxReactor sleepWithTask t hrun none hpc
  refine ⟨t, hrun, hpc, htask, r, hr, hpending, ?_⟩
  simpa [hread, hwriters, hcallers, hflights] using hquiet

end Thread

end LocalRuntime
