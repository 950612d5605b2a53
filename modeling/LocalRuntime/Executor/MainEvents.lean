import LocalRuntime.Executor.Cancel

/-!
# The histories of the main futures

Overlapping `run` futures of one executor share everything but their main futures, and each main
future has a waker of its own. What happens to a main future is therefore kept under the number of
its waker: its wakes and its polls, the polls of the `run` future around it, and beside them the
wakes of the wakers that `run` futures are polled with, which may come from anywhere.

Three questions are asked of such a history: whether the main future has been woken since it was
last polled (`Called`), whether a poll of `run` that has begun must poll it (`Owed`), and whether a
waker has been woken since the latest poll of `run` began (`Roused`).
-/

namespace LocalRuntime

variable {V : Type}

/-- What happens to a main future, and to the wakers of the code around `run`. -/
inductive MainEvent where
  /-- `TaskWaker::wake` is called for the main future. -/
  | woken
  /-- `run` is polled with a waker. A call of `TaskWaker::wake` for the main future may be between
  its compare-exchange and its push then. -/
  | began (cx : ℕ) (pushing : Bool)
  /-- The main future is polled. -/
  | polled
  /-- The poll of `run` returns pending. -/
  | pended
  /-- A waker that is not of this executor is woken, through the base waker or directly. -/
  | heard (cx : ℕ)
  deriving DecidableEq

namespace MainEvent

variable {h : List MainEvent} {e : MainEvent} {c : ℕ}

/-- The main future has been woken since it was last polled. -/
def Called : List MainEvent → Prop := Since (fun _ e ↦ e = .woken) (· = .polled)

/-- A poll of `run` has begun when the main future had been woken, and its id had been pushed, and
the main future has not been polled since. -/
def Owed : List MainEvent → Prop :=
  Since (fun before e ↦ (∃ cx, e = .began cx false) ∧ Called before) (· = .polled)

/-- The waker has been woken since the latest poll of `run` began. -/
def Roused (c : ℕ) : List MainEvent → Prop :=
  Since (fun _ e ↦ e = .heard c) fun e ↦ ∃ cx pushing, e = .began cx pushing

theorem called_concat : Called (h ++ [e]) ↔ e = .woken ∨ e ≠ .polled ∧ Called h := since_concat

theorem owed_concat :
    Owed (h ++ [e]) ↔ (∃ cx, e = .began cx false) ∧ Called h ∨ e ≠ .polled ∧ Owed h := since_concat

theorem roused_concat :
    Roused c (h ++ [e]) ↔ e = .heard c ∨ (¬ ∃ cx pushing, e = .began cx pushing) ∧ Roused c h :=
  since_concat

/-- A wake of the main future, a wake of somebody else, or nothing. -/
def IsSignal (es : List MainEvent) : Prop := es = [] ∨ es = [.woken] ∨ ∃ c, es = [.heard c]

variable {es : List MainEvent}

theorem called_append (hes : IsSignal es) : Called (h ++ es) ↔ Called h ∨ .woken ∈ es := by
  rcases hes with rfl | rfl | ⟨c, rfl⟩
  · simp
  · simp [called_concat]
  · simp [called_concat]

/-- A signal is no poll. -/
theorem owed_append (hes : IsSignal es) : Owed (h ++ es) ↔ Owed h := by
  rcases hes with rfl | rfl | ⟨c, rfl⟩
  · simp
  · simp [owed_concat]
  · simp [owed_concat]

theorem Roused.append (hr : Roused c h) (hes : IsSignal es) : Roused c (h ++ es) := by
  rcases hes with rfl | rfl | ⟨c', rfl⟩
  · simpa using hr
  · exact roused_concat.2 (Or.inr ⟨by simp, hr⟩)
  · exact roused_concat.2 (Or.inr ⟨by simp, hr⟩)

/-- A history of nothing but wakers of other code. -/
def IsFresh (h : List MainEvent) : Prop := ∀ e ∈ h, ∃ c, e = .heard c

theorem IsFresh.not_called (hf : IsFresh h) : ¬ Called h := by
  rintro ⟨before, e, after, rfl, rfl, -⟩
  obtain ⟨c, hc⟩ := hf .woken (by simp)
  exact absurd hc (by simp)

theorem IsFresh.not_owed (hf : IsFresh h) : ¬ Owed h := by
  rintro ⟨before, e, after, rfl, ⟨⟨cx, rfl⟩, -⟩, -⟩
  obtain ⟨c, hc⟩ := hf (.began cx false) (by simp)
  exact absurd hc (by simp)

end MainEvent

/-! ### What a poll of `run` still does for the main future -/

/-- Where a `run` future is with respect to its main future. -/
inductive Outlook where
  /-- Not polled yet, or the main future has returned ready. -/
  | outside
  /-- A poll has begun and has not read the lengths of the two queues yet. -/
  | start (registered : Bool)
  /-- The tasks are being polled, or have been: `mainTaskAwoken` is what is known of the main
  future. -/
  | draining (d : Drain)
  /-- The main future has had its turn in the latest poll. -/
  | resting
  deriving DecidableEq

/-- Where a `run` future is with respect to its main future. -/
def Pc.outlook : Pc → Outlook
  | .resetting | .register => .start false
  | .snapshot => .start true
  | .drain d | .pollTask _ d | .readyTask _ d | .dropTask d => .draining d
  | .popped id d => .draining { d with mainTaskAwoken := d.mainTaskAwoken || id == MAIN_TASK_ID }
  | .mainCheck awoken => .draining ⟨0, 0, awoken⟩
  | .pending | .pollMain | .pollSpawned | .nextSpawned | .poppedSpawned _ | .pollFirst _ _ _
  | .dropSpawned => .resting
  | .created | .done | .completed | .clearTasks _ | .cleared | .clearSpawned _ | .dropMain =>
    .outside

/-- The poll that is under way will poll the main future. -/
def Outlook.Ahead (q : WakeQueue) : Outlook → Prop
  | .start _ => q.Has MAIN_TASK_ID
  | .draining d => d.mainTaskAwoken = true ∨ d.Holds q MAIN_TASK_ID
  | .outside | .resting => False

/-- The base waker is the one of this poll, and no other `run` future can have been polled since. -/
def Outlook.isFirm : Outlook → Bool
  | .start registered => registered
  | .draining _ => true
  | .outside | .resting => false

/-- The base waker of the latest poll has been registered. -/
def Outlook.isRegistered : Outlook → Bool
  | .start registered => registered
  | .draining _ | .resting => true
  | .outside => false

theorem Outlook.Ahead.push {o : Outlook} {q : WakeQueue} (h : o.Ahead q) (val : ℕ)
    (onLocal : Bool) : o.Ahead (q.push val onLocal) := by
  cases o
  case start => exact WakeQueue.Has.push h val onLocal
  case draining => exact h.imp_right fun hd ↦ hd.push val onLocal
  all_goals exact h

/-- The id of a task says nothing about the main future. -/
theorem Pc.outlook_popped {id : ℕ} {d : Drain} (hid : id ≠ MAIN_TASK_ID) :
    (Pc.popped id d).outlook = .draining d := by
  simp only [outlook, beq_false_of_ne hid, Bool.or_false]

/-- The main future has been popped in the current drain. -/
theorem Pc.popped_main_iff {pc : Pc} :
    pc.Popped MAIN_TASK_ID ↔ ∃ d, pc.outlook = .draining d ∧ d.mainTaskAwoken = true := by
  cases pc
  case popped id d =>
    simp only [Pc.Popped, Pc.outlook, true_and, Outlook.draining.injEq, exists_eq_left',
      Bool.or_eq_true, beq_iff_eq]
    exact ⟨fun h ↦ h.symm.imp_right Eq.symm, fun h ↦ h.symm.imp_left Eq.symm⟩
  all_goals simp [Pc.Popped, Pc.outlook]

theorem Pc.not_popped_of_resting {pc : Pc} (h : pc.outlook = .resting) :
    ¬ pc.Popped MAIN_TASK_ID := by
  rw [popped_main_iff, h]
  rintro ⟨d, hd, -⟩
  exact absurd hd (by simp)

/-! ### The events of an action -/

namespace Executor

open MainEvent

variable {ex ex' : Executor V} {w : ℕ}

/-- A call of `TaskWaker::wake` is between its compare-exchange and its push. -/
def isPushing (ex : Executor V) (w : ℕ) : Bool :=
  ex.flights.any fun f ↦ f.waker == w && f.phase == .push

theorem isPushing_iff : ex.isPushing w = true ↔ ex.Pushing w := by
  simp [isPushing, Pushing]

/-- A call of `TaskWaker::wake` is in progress. -/
def InFlight (ex : Executor V) (w : ℕ) : Prop := ∃ f ∈ ex.flights, f.waker = w

theorem Pushing.inFlight (h : ex.Pushing w) : ex.InFlight w := by
  obtain ⟨f, hf, hw, -⟩ := h
  exact ⟨f, hf, hw⟩

/-- Whoever sets a flag is in flight. -/
theorem inFlight_of_awoken (ht : Touch ex ex') (hnew : ex'.Awoken w) (hold : ¬ ex.Awoken w) :
    ex'.InFlight w := by
  obtain ⟨tw, hw, hset⟩ := hnew
  cases ht
  case claim v _ onLocal hv _ hwakers hflights _ =>
    by_cases heq : v = w
    · exact ⟨⟨v, .push, onLocal⟩, by simp [hflights], heq⟩
    · rw [hwakers, getElem?_setAwoken] at hw
      simp only [heq, if_false, Option.map_id'] at hw
      exact absurd ⟨tw, hw, hset⟩ hold
  all_goals
    rw [‹ex'.wakers = _›] at hw
    exact absurd ⟨tw, hw, hset⟩ hold

theorem InFlight.wake (h : ex.InFlight w) (v : ℕ) (onLocal : Bool) :
    (ex.wake v onLocal).InFlight w := by
  obtain ⟨f, hf, hfw⟩ := h
  rw [Executor.wake]
  split
  · exact ⟨f, List.mem_append_left _ hf, hfw⟩
  · exact ⟨f, hf, hfw⟩

/-- A call that pushes goes on. -/
theorem InFlight.push {i v : ℕ} {onLocal : Bool} (h : ex.InFlight w)
    (hi : ex.flights[i]? = some ⟨v, .push, onLocal⟩)
    (hflights : ex'.flights = ex.flights.set i ⟨v, .base, onLocal⟩) : ex'.InFlight w := by
  obtain ⟨f, hf, hfw⟩ := h
  rw [InFlight, hflights]
  obtain ⟨j, hj⟩ := List.mem_iff_getElem?.1 hf
  by_cases hij : i = j
  · obtain rfl := hij
    rw [hi] at hj
    obtain rfl := Option.some.inj hj
    exact ⟨⟨v, .base, onLocal⟩, List.mem_set (List.getElem?_eq_some_iff.1 hi).1 _, hfw⟩
  · exact ⟨f, List.mem_iff_getElem?.2 ⟨j, by rw [List.getElem?_set_ne hij, hj]⟩, hfw⟩

/-- A call that is over has woken the base waker. -/
theorem baseWaker_of_not_inFlight (ht : Touch ex ex') (hold : ex.InFlight w)
    (hnew : ¬ ex'.InFlight w) :
    ex'.queue.baseWaker = ex.queue.baseWaker.wake := by
  cases ht
  case push hi _ _ _ hflights _ => exact absurd (hold.push hi hflights) hnew
  case fire hqueue => rw [hqueue]
  case claim hflights _ =>
    obtain ⟨f, hf, hfw⟩ := hold
    exact absurd ⟨f, hflights ▸ List.mem_append_left _ hf, hfw⟩ hnew
  case same hflights _ | hear hflights _ =>
    obtain ⟨f, hf, hfw⟩ := hold
    exact absurd ⟨f, hflights ▸ hf, hfw⟩ hnew

/-- The action that ends the last call for a waker. -/
theorem exists_fire_of_act {a : Act} (ha : ex.act a = some ex') (hold : ex.InFlight w)
    (hnew : ¬ ex'.InFlight w) :
    ∃ i onLocal, a = .fire i ∧ ex.flights[i]? = some ⟨w, .base, onLocal⟩ ∧
      ∀ f ∈ ex.flights.eraseIdx i, f.waker ≠ w := by
  rcases a with - | hd | ⟨hd, waker⟩ | ⟨v, onLocal⟩ | i | i | b
  · obtain rfl := Option.some.inj ha
    rw [spawn] at hnew
    split at hnew
    · exact absurd hold hnew
    · exact absurd hold hnew
  · obtain rfl := Option.some.inj ha
    simp only [cancel] at hnew
    split at hnew
    next v _ =>
      refine absurd (InFlight.wake ?_ v true) hnew
      exact hold
    next => exact absurd hold hnew
  · obtain rfl := Option.some.inj ha
    obtain ⟨_, heq⟩ := exists_pollHandle_eq ex hd waker
    rw [heq] at hnew
    exact absurd hold hnew
  · obtain rfl := Option.some.inj ha
    exact absurd (hold.wake v onLocal) hnew
  · obtain ⟨_, _, _, hi, -, rfl⟩ := push_eq_some ha
    exact absurd (hold.push hi rfl) hnew
  · obtain ⟨v, onLocal, hi, rfl⟩ := fire_eq_some ha
    have hleft : ∀ f ∈ ex.flights.eraseIdx i, f.waker ≠ w := fun f hf hfw ↦ hnew ⟨f, hf, hfw⟩
    obtain ⟨f, hf, hfw⟩ := hold
    obtain ⟨j, hj⟩ := List.mem_iff_getElem?.1 hf
    by_cases hij : j = i
    · rw [hij, hi] at hj
      obtain rfl := Option.some.inj hj
      exact ⟨i, onLocal, rfl, hfw ▸ hi, hleft⟩
    · exact absurd hfw (hleft f (List.mem_eraseIdx_iff_getElem?.2 ⟨j, hij, hj⟩))
  · obtain rfl := Option.some.inj ha
    exact absurd hold hnew

/-- What the main future with the waker `w` notices of a wake. -/
def wakeEvents (ex : Executor V) (w : ℕ) : WakerRef → List MainEvent
  | .task v => if v = w ∧ v < ex.wakers.length then [.woken] else []
  | .other b => [.heard b]

/-- What it notices of the end of a task. -/
def completeEvents (ex : Executor V) (w id : ℕ) : List MainEvent :=
  ((ex.rets[id]?.bind RetData.waker).map (ex.wakeEvents w)).getD []

/-- What it notices of code that is not the executor's. -/
def actMainEvents (ex : Executor V) (w : ℕ) : Act → List MainEvent
  | .wake v _ => ex.wakeEvents w (.task v)
  | .cancel h =>
    ((ex.handles[h]?.bind HandleData.waker).map fun v ↦ ex.wakeEvents w (.task v)).getD []
  | .fire _ => ex.queue.baseWaker.slot.toList.map .heard
  | .hear b => [.heard b]
  | .spawn | .pollHandle _ _ | .push _ => []

/-- What it notices of a step of `run`. -/
def transEvents (ex : Executor V) (w : ℕ) (r r' : Run) : List MainEvent :=
  match r.pc, r'.pc with
  | .mainCheck _, .pollMain => if w = r.mainWaker then [.polled] else []
  | .nextSpawned, .pending => if w = r.mainWaker then [.pended] else []
  | .pollTask key _, .readyTask _ _ =>
    ((ex.tasks.get key).map fun task ↦ ex.completeEvents w task.id).getD []
  | .pollFirst task _ _, .dropSpawned => ex.completeEvents w task.id
  | _, _ => []

/-! ### Signals -/

/-- What happens between two steps of `run`, with what the main futures notice of it. -/
structure Signal (ex ex' : Executor V) (events : ℕ → List MainEvent) : Prop where
  touch : Touch ex ex'
  isSignal : ∀ w, IsSignal (events w)
  awoken : ∀ w, ex'.Awoken w ↔ ex.Awoken w ∨ .woken ∈ events w
  heard : ∀ c ∈ ex'.queue.baseWaker.woken, c ∈ ex.queue.baseWaker.woken ∨ ∀ w, events w = [.heard c]
  lt : ∀ w, ex.wakers.length ≤ w → .woken ∉ events w

theorem awoken_congr (hwakers : ex'.wakers[w]? = ex.wakers[w]?) : ex'.Awoken w ↔ ex.Awoken w := by
  rw [Awoken, Awoken, hwakers]

/-- A wake sets one flag, if there is such a waker. -/
theorem awoken_wake_iff {v : ℕ} {onLocal : Bool} :
    (ex.wake v onLocal).Awoken w ↔ ex.Awoken w ∨ v = w ∧ v < ex.wakers.length := by
  by_cases hlt : v < ex.wakers.length
  · by_cases hv : v = w
    · obtain rfl := hv
      have hset := awoken_wake onLocal (List.getElem?_eq_getElem hlt)
      exact ⟨fun _ ↦ Or.inr ⟨rfl, hlt⟩, fun _ ↦ hset⟩
    · have hsame : (ex.wake v onLocal).wakers[w]? = ex.wakers[w]? := by
        rw [wake]
        split
        · show (ex.setAwoken v true).wakers[w]? = _
          rw [getElem?_setAwoken]
          simp [hv]
        · rfl
      rw [awoken_congr hsame]
      simp [hv]
  · have hnone : ex.wakers[v]? = none := List.getElem?_eq_none (Nat.le_of_not_lt hlt)
    rw [show ex.wake v onLocal = ex by rw [wake, hnone]]
    simp [hlt]

theorem mem_wakeEvents_task {v : ℕ} :
    .woken ∈ ex.wakeEvents w (.task v) ↔ v = w ∧ v < ex.wakers.length := by
  rw [wakeEvents]
  split
  next h => exact ⟨fun _ ↦ h, fun _ ↦ List.mem_singleton_self _⟩
  next h => exact ⟨fun hmem ↦ absurd hmem List.not_mem_nil, fun hv ↦ absurd hv h⟩

theorem isSignal_wakeEvents (ex : Executor V) (w : ℕ) (waker : WakerRef) :
    IsSignal (ex.wakeEvents w waker) := by
  rcases waker with v | b
  · rw [wakeEvents]
    split
    · exact Or.inr (Or.inl rfl)
    · exact Or.inl rfl
  · exact Or.inr (Or.inr ⟨b, rfl⟩)

/-- Nothing that a main future could notice. -/
theorem Signal.quiet (htouch : Touch ex ex') (hawoken : ∀ w, ex'.Awoken w ↔ ex.Awoken w)
    (hqueue : ex'.queue.baseWaker = ex.queue.baseWaker) : Signal ex ex' fun _ ↦ [] where
  touch := htouch
  isSignal _ := Or.inl rfl
  awoken w := by simp [hawoken w]
  heard c hc := Or.inl (hqueue ▸ hc)
  lt _ _ := List.not_mem_nil

/-- A wake of a task of this executor. -/
theorem Signal.wake {v : ℕ} (htouch : Touch ex ex')
    (hawoken : ∀ w, ex'.Awoken w ↔ ex.Awoken w ∨ v = w ∧ v < ex.wakers.length)
    (hqueue : ex'.queue.baseWaker = ex.queue.baseWaker) :
    Signal ex ex' fun w ↦ ex.wakeEvents w (.task v) where
  touch := htouch
  isSignal w := isSignal_wakeEvents ex w _
  awoken w := by rw [mem_wakeEvents_task, hawoken w]
  heard c hc := Or.inl (hqueue ▸ hc)
  lt w hw hmem := by
    obtain ⟨rfl, hlt⟩ := mem_wakeEvents_task.1 hmem
    exact absurd hlt (Nat.not_lt.2 hw)

/-- A wake of somebody else. -/
theorem Signal.hear {b : ℕ} (htouch : Touch ex ex') (hwakers : ex'.wakers = ex.wakers)
    (hqueue : ex'.queue.baseWaker = ex.queue.baseWaker.hear b) :
    Signal ex ex' fun _ ↦ [.heard b] where
  touch := htouch
  isSignal _ := Or.inr (Or.inr ⟨b, rfl⟩)
  awoken w := by
    rw [awoken_congr (show ex'.wakers[w]? = ex.wakers[w]? by rw [hwakers])]
    simp
  heard c hc := by
    rw [hqueue] at hc
    rcases List.mem_cons.1 hc with rfl | hc
    · exact Or.inr fun _ ↦ rfl
    · exact Or.inl hc
  lt _ _ := by simp

theorem queue_wake (ex : Executor V) (v : ℕ) (onLocal : Bool) :
    (ex.wake v onLocal).queue = ex.queue := by
  obtain ⟨_, _, heq⟩ := exists_wake_eq ex v onLocal
  rw [heq]

/-- **The end of a task is a signal.** -/
theorem signal_complete (ex : Executor V) (id : ℕ) (v : V) :
    Signal ex (ex.complete id v) fun w ↦ ex.completeEvents w id := by
  have htouch := touch_complete ex id v
  simp only [complete, completeEvents] at htouch ⊢
  split at htouch
  next waker hwaker =>
    rw [hwaker]
    rcases waker with u | b
    · refine Signal.wake htouch (fun w ↦ ?_) ?_
      · exact awoken_wake_iff
      · rw [wakeRef, queue_wake]
    · exact Signal.hear htouch rfl rfl
  next hwaker =>
    rw [hwaker]
    exact Signal.quiet htouch (fun _ ↦ Iff.rfl) rfl

/-- **So is what code does that is not the executor's.** -/
theorem signal_of_act {a : Act} (ha : ex.act a = some ex') :
    Signal ex ex' fun w ↦ ex.actMainEvents w a := by
  have htouch := touch_of_act ha
  rcases a with - | hd | ⟨hd, waker⟩ | ⟨v, onLocal⟩ | i | i | b
  · obtain rfl := Option.some.inj ha
    rcases hb : ex.spawnedBorrowed with - | -
    · rw [spawn_of_not_borrowed hb] at htouch ⊢
      exact Signal.quiet htouch (fun _ ↦ Iff.rfl) rfl
    · rw [spawn_of_borrowed hb] at htouch ⊢
      exact Signal.quiet htouch (fun _ ↦ Iff.rfl) rfl
  · obtain rfl := Option.some.inj ha
    simp only [cancel, actMainEvents] at htouch ⊢
    split at htouch
    next v hv =>
      rw [hv]
      exact Signal.wake htouch (fun w ↦ awoken_wake_iff) (by rw [queue_wake])
    next hv =>
      rw [hv]
      exact Signal.quiet htouch (fun _ ↦ Iff.rfl) rfl
  · obtain rfl := Option.some.inj ha
    obtain ⟨_, heq⟩ := exists_pollHandle_eq ex hd waker
    rw [heq] at htouch ⊢
    exact Signal.quiet htouch (fun _ ↦ Iff.rfl) rfl
  · obtain rfl := Option.some.inj ha
    exact Signal.wake htouch (fun w ↦ awoken_wake_iff) (by rw [queue_wake])
  · obtain ⟨_, _, _, -, -, rfl⟩ := push_eq_some ha
    exact Signal.quiet htouch (fun _ ↦ Iff.rfl) (by simp)
  · obtain ⟨_, _, -, rfl⟩ := fire_eq_some ha
    refine ⟨htouch, fun w ↦ ?_, fun w ↦ ?_, fun c hc ↦ ?_, fun w _ ↦ ?_⟩
    · rcases hslot : ex.queue.baseWaker.slot with - | c
      · exact Or.inl (by simp [actMainEvents, hslot])
      · exact Or.inr (Or.inr ⟨c, by simp [actMainEvents, hslot]⟩)
    · simp [actMainEvents, Awoken]
    · have hc : c ∈ ex.queue.baseWaker.wake.woken := hc
      unfold AtomicWaker.wake at hc
      split at hc
      next => exact Or.inl hc
      next c' hslot =>
        rcases List.mem_cons.1 hc with rfl | hc
        · exact Or.inr fun _ ↦ by simp [actMainEvents, hslot]
        · exact Or.inl hc
    · simp [actMainEvents]
  · obtain rfl := Option.some.inj ha
    exact Signal.hear htouch rfl rfl

end Executor

/-! ### The machine that keeps the histories -/

namespace Overlapping

/-- The events of an action, for the main future with the waker `w`. -/
def mainEvents (s : Overlapping V) (a : Act V) (w : ℕ) : List MainEvent :=
  match a with
  | .newRun | .dropRun _ => []
  | .poll i cx =>
    match s.idle[i]?.bind fun r ↦ s.ex.beginPoll r cx with
    | some (_, r) => if w = r.mainWaker then [.began cx (s.ex.isPushing w)] else []
    | none => []
  | .run a =>
    match s.stack with
    | r :: _ => ((s.ex.runStep r a).map fun res ↦ s.ex.transEvents w r res.2).getD []
    | [] => []
  | .ex a => s.ex.actMainEvents w a

/-- The machine that keeps the histories of the main futures. -/
def chronicle (V : Type) : Machine (Logged (Overlapping V) ℕ MainEvent) (Act V) :=
  (machine V).logged mainEvents

end Overlapping

end LocalRuntime
