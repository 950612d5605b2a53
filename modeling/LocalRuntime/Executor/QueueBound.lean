import LocalRuntime.Executor.Borrow
import LocalRuntime.Executor.Ledger

/-!
# How long the wake queue can get

From the balance of the wake queue (`Executor.Ledger`) and what a step can do to it
(`Executor.Traffic`) follow a bound on the queue, a bound on what a waker can still push once its
task is gone (`Executor.credit`), and a bound on what one call of `poll_tasks` polls
(`Executor.due`).

The credit is more than one for a waker whose flag was cleared while a call of `wake` was about to
push: `staleWake` leads to such a waker, and in `twoPushes` it pushes twice after its task is gone.
-/

namespace LocalRuntime

variable {V : Type}

/-! ### Wakers of tasks that are gone -/

namespace Executor

variable {ex ex' : Executor V} {h h' : Hand} {k w : ℕ}

/-- The waker was made for a task with the index `k`, which is neither in the slab nor in its first
poll. -/
structure Gone (ex : Executor V) (h : Hand) (w k : ℕ) : Prop where
  made : ex.taskIds[w]? = some k
  not_main : k ≠ MAIN_TASK_ID
  slab : ∀ key task, ex.tasks.get key = some task → task.waker ≠ w
  first : ∀ key, h ≠ .first w key

/-- The flag of a waker is clear. -/
def asleep (ex : Executor V) (w : ℕ) : Bool := ex.wakers[w]?.any fun tw ↦ !tw.awoken

/-- What a waker can still push if its flag is not cleared again: its calls of `wake` that are about
to push, and one more if its flag is clear. -/
def credit (ex : Executor V) (w : ℕ) : ℕ :=
  ex.flights.countP (fun f ↦ f.phase = .push ∧ f.waker = w) + (if ex.asleep w then 1 else 0)

theorem credit_congr (hwakers : ex'.wakers[w]? = ex.wakers[w]?)
    (hflights : ex'.flights = ex.flights) : ex'.credit w = ex.credit w := by
  rw [credit, asleep, hwakers, hflights, credit, asleep]

/-- A call of `wake` that pushes spends from the credit of its waker. -/
theorem credit_push {i : ℕ} {onLocal : Bool} (hi : ex.flights[i]? = some ⟨w, .push, onLocal⟩)
    (hwakers : ex'.wakers = ex.wakers)
    (hflights : ex'.flights = ex.flights.set i ⟨w, .base, onLocal⟩) (v : ℕ) :
    ex'.credit v + (if w = v then 1 else 0) = ex.credit v := by
  have hset := List.countP_set_add (p := fun f ↦ decide (f.phase = .push ∧ f.waker = v)) hi
    ⟨w, .base, onLocal⟩
  simp only [decide_eq_true_eq, true_and, reduceCtorEq, false_and, if_false] at hset
  rw [credit, credit, asleep, hwakers, hflights, asleep]
  omega

/-- Nothing from outside adds to the credit of a waker. -/
theorem credit_touch_le (ht : Touch ex ex') (v : ℕ) : ex'.credit v ≤ ex.credit v := by
  cases ht
  case same hwakers hflights _ => exact (credit_congr (by rw [hwakers]) hflights).le
  case claim w id onLocal hw _ hwakers hflights _ =>
    have hclear : ex.asleep w = true := by rw [asleep, hw]; rfl
    have hset : ∀ v, ex'.wakers[v]? =
        ex.wakers[v]?.map fun tw ↦ if w = v then { tw with awoken := true } else tw := by
      intro v
      rw [hwakers, getElem?_setAwoken]
    rw [credit, hflights, List.countP_append, List.countP_singleton, credit]
    by_cases hv : w = v
    · -- the flag is traded for a call that is about to push
      subst hv
      have hset : ex'.asleep w = false := by rw [asleep, hset, hw]; simp
      simp only [hset, hclear, decide_true, and_self, if_true, Bool.false_eq_true, if_false]
      omega
    · have hsame : ex'.asleep v = ex.asleep v := by
        rw [asleep, hset, asleep]
        simp [hv]
      simp [hv, hsame]
  case push hi _ _ hwakers hflights _ =>
    have := credit_push hi hwakers hflights v
    omega
  case fire hi _ hwakers hflights _ =>
    have herase := List.countP_eraseIdx_add (p := fun f ↦ decide (f.phase = .push ∧ f.waker = v)) hi
    simp only [decide_eq_true_eq, reduceCtorEq, false_and, if_false, Nat.add_zero] at herase
    rw [credit, credit, asleep, hwakers, hflights, asleep, herase]
  case hear hwakers hflights _ => exact (credit_congr (by rw [hwakers]) hflights).le

/-- **The waker of a task that is gone stays so, and nothing adds to its credit.** -/
theorem Gone.traffic (hg : Gone ex h w k) (ht : Traffic ex h ex' h') :
    Gone ex' h' w k ∧ ex'.credit w ≤ ex.credit w := by
  have hmade := ht.taskIds hg.made
  have hkeep : (∀ key task, ex'.tasks.get key = some task → ex.tasks.get key = some task) →
      (∀ key, h' ≠ .first w key) → Gone ex' h' w k :=
    fun htasks hfirst ↦
      ⟨hmade, hg.not_main, fun key task hget ↦ hg.slab key task (htasks key task hget), hfirst⟩
  cases ht
  case quiet hwakers hflights _ htasks hhand =>
    exact ⟨hkeep htasks (by simp [hhand]), (credit_congr (by rw [hwakers]) hflights).le⟩
  case touch ht hhand =>
    refine ⟨hkeep (fun key task hget ↦ ht.tasks_eq ▸ hget) ?_, credit_touch_le ht w⟩
    rcases hhand with rfl | rfl
    · exact hg.first
    · simp
  case pop hwakers hflights _ htasks hhand =>
    exact ⟨hkeep (fun _ _ hget ↦ htasks ▸ hget) (by simp [hhand]),
      (credit_congr (by rw [hwakers]) hflights).le⟩
  case sleep id task _ hget hwakers hflights _ htasks hhand =>
    refine ⟨hkeep (fun _ _ hget ↦ htasks ▸ hget) (by simp [hhand]), (credit_congr ?_ hflights).le⟩
    rw [hwakers, getElem?_toSleep_of_ne (hg.slab id task hget)]
  case sleepMain v hv hwakers hflights _ htasks hhand =>
    have hne : v ≠ w := by
      rintro rfl
      exact hg.not_main (Option.some.inj (hg.made.symm.trans hv))
    refine ⟨hkeep (fun _ _ hget ↦ htasks ▸ hget) (by simp [hhand]), (credit_congr ?_ hflights).le⟩
    rw [hwakers, getElem?_toSleep_of_ne hne]
  case make key hwakers hflights _ htasks hhand =>
    have hlt : w < ex.wakers.length := by
      rw [← length_taskIds]
      exact (List.getElem?_eq_some_iff.1 hg.made).1
    refine ⟨hkeep (fun _ _ hget ↦ htasks ▸ hget) fun k' hfirst ↦ ?_, (credit_congr ?_ hflights).le⟩
    · rcases hhand with ⟨rfl, -⟩ | rfl
      · cases hfirst
        exact absurd hlt (Nat.lt_irrefl _)
      · cases hfirst
    · rw [hwakers, List.getElem?_append_left hlt]
  case insert v key id hfirst hwakers hflights _ htasks hhand =>
    have hne : v ≠ w := by
      rintro rfl
      exact hg.first key hfirst
    refine ⟨⟨hmade, hg.not_main, fun j task hget ↦ ?_, by simp [hhand]⟩,
      (credit_congr (by rw [hwakers]) hflights).le⟩
    rw [htasks] at hget
    rcases Slab.eq_or_get_of_get_insert hget with rfl | hget
    · exact hne
    · exact hg.slab j task hget

end Executor

/-! ### What a call of `poll_tasks` polls -/

/-- The task that is being polled, by its key. -/
def Pc.polledKey : Pc → Option ℕ
  | .pollTask key _ => some key
  | _ => none

namespace Executor

variable {ex ex' : Executor V} {k : ℕ}

/-- How often an id is still due in a call that drains the queue, the one in hand included. -/
def due (ex : Executor V) (pc : Pc) (k : ℕ) : ℕ :=
  (match pc.draining with
    | .loop n m | .callback n m =>
      (ex.queue.localIds.take n).count k + (ex.queue.concurrent.take m).count k
    | _ => 0) + pc.hand.count k

/-- **A step of `poll_tasks` polls a task only for an id that was due.** -/
theorem Trans.due_le {r r' : Run} (ht : ex.Trans r ex' r') (hpc : r.pc.draining ≠ .idle) (k : ℕ) :
    ex'.due r'.pc k + (if r'.pc.polledKey = some k then 1 else 0) ≤ ex.due r.pc k := by
  cases ht
  case popLocal n m awoken id rest hpc' hq =>
    show (rest.take n).count k + (ex.queue.concurrent.take m).count k +
      (if id = k then 1 else 0) + 0 ≤ _
    rw [hpc', due, hq]
    show _ ≤ ((id :: rest).take (n + 1)).count k + (ex.queue.concurrent.take m).count k + 0
    rw [List.take_succ_cons, List.count_cons]
    simp only [beq_iff_eq]
    omega
  case popConcurrent m awoken id rest hpc' hq =>
    show (ex.queue.localIds.take 0).count k + (rest.take m).count k +
      (if id = k then 1 else 0) + 0 ≤ _
    rw [hpc', due, hq]
    show _ ≤ (ex.queue.localIds.take 0).count k + ((id :: rest).take (m + 1)).count k + 0
    rw [List.take_succ_cons, List.count_cons]
    simp only [beq_iff_eq]
    omega
  case drained => exact Nat.zero_le _
  case sleepTask id d task hpc' _ _ _ =>
    rw [hpc']
    show _ + 0 + (if some id = some k then 1 else 0) ≤ _ + (if id = k then 1 else 0)
    simp only [Option.some.injEq]
    exact Nat.le_refl _
  case poppedMain hpc' | poppedGone hpc' _ _ | removeCancelled hpc' _ _ _ =>
    rw [hpc']
    exact Nat.le_add_right _ _
  case pendingTask hpc' | droppedTask hpc' | removeReady hpc' | unwrap hpc' _ =>
    rw [hpc']
    exact Nat.le_refl _
  case readyTask key d task v hpc' _ =>
    obtain ⟨_, _, _, _, heq⟩ := exists_complete_eq ex task.id v
    rw [heq, hpc']
    exact Nat.le_refl _
  case borrowTasks hpc' _ =>
    obtain hpc' | hpc' | hpc' := hpc' <;> exact absurd (by rw [hpc']; rfl) hpc
  case borrowSpawned hpc' _ =>
    obtain hpc' | hpc' := hpc' <;> exact absurd (by rw [hpc']; rfl) hpc
  all_goals exact absurd (by rw [‹r.pc = _›]; rfl) hpc

/-- What is pushed meanwhile is not due. -/
theorem Touch.due_eq {pc : Pc} (ht : Touch ex ex')
    (hb : Draining.Bounded ⟨ex.queue.ids, pc.draining⟩) (k : ℕ) : ex'.due pc k = ex.due pc k := by
  have htake : ∀ n m, n ≤ ex.queue.localIds.length → m ≤ ex.queue.concurrent.length →
      ex'.queue.localIds.take n = ex.queue.localIds.take n ∧
        ex'.queue.concurrent.take m = ex.queue.concurrent.take m := by
    intro n m hn hm
    rcases ht.ids_eq with hids | ⟨val, b, hids⟩
    · obtain ⟨-, hlocal, hcon⟩ := WakeQueue.mk.inj hids
      rw [hlocal, hcon]
      exact ⟨rfl, rfl⟩
    · have hlocal : ex'.queue.ids.localIds = (ex.queue.ids.push val b).localIds := by rw [hids]
      have hcon : ex'.queue.ids.concurrent = (ex.queue.ids.push val b).concurrent := by rw [hids]
      rw [Draining.localIds_push] at hlocal
      rw [Draining.concurrent_push] at hcon
      show ex'.queue.ids.localIds.take n = _ ∧ ex'.queue.ids.concurrent.take m = _
      rw [hlocal, hcon]
      exact ⟨List.take_append_of_le_length hn, List.take_append_of_le_length hm⟩
  rw [due, due]
  cases hpc : pc.draining with
  | loop n m | callback n m =>
    rw [hpc] at hb
    obtain ⟨hlocal, hcon⟩ := htake n m hb.1 hb.2
    simp only [hlocal, hcon]
  | idle | lens | panicked => rfl

end Executor

/-! ### The events of the queue -/

/-- What is seen of the queue: a waker pushes its id, or the task with a key is polled by
`poll_tasks`. -/
inductive QueueEvent where
  | pushed (w : ℕ)
  | polled (key : ℕ)
  deriving DecidableEq

namespace Overlapping

variable {s t : Overlapping V} {a : Act V} {w k : ℕ}

/-- The events of an action. -/
def queueEvents (s : Overlapping V) : Act V → List QueueEvent
  | .ex (.push i) => (s.ex.flights[i]?.map fun f ↦ .pushed f.waker).toList
  | .run a =>
    match s.stack with
    | [] => []
    | r :: _ => ((s.ex.runStep r a).bind fun res ↦ res.2.pc.polledKey.map .polled).toList
  | _ => []

/-- The machine that keeps these events. -/
def accounts (V : Type) : Machine (Logged (Overlapping V) Unit QueueEvent) (Act V) :=
  (machine V).logged fun s a _ ↦ s.queueEvents a

/-- The waker is of a task with the index `k` that is gone. -/
def Gone (s : Overlapping V) (w k : ℕ) : Prop := s.ex.Gone s.pc.hand w k

/-- A step that pushes spends from the credit. -/
theorem Gone.step (hg : s.Gone w k) (h : QueueInv s) (hs : s.step a = some t) :
    t.Gone w k ∧ t.ex.credit w + (s.queueEvents a).count (.pushed w) ≤ s.ex.credit w := by
  obtain ⟨hgone, hle⟩ := Executor.Gone.traffic hg (h.traffic hs)
  refine ⟨hgone, ?_⟩
  cases step_cases hs
  case newRun | dropRun | poll => exact hle
  case run b r r' rest ex' hstack hstep =>
    -- a step of `run` pushes nothing
    have hnone : (s.queueEvents (.run b)).count (.pushed w) = 0 := by
      simp only [queueEvents, hstack, hstep, Option.bind_some]
      cases r'.pc.polledKey with
      | none => rfl
      | some key => rfl
    rw [hnone]
    exact hle
  case ex b ex' hact _ =>
    cases b with
    | push i =>
      obtain ⟨v, onLocal, tw, hi, hv, hex⟩ := Executor.push_eq_some hact
      have hspend : ex'.credit w + (if v = w then 1 else 0) = s.ex.credit w :=
        Executor.credit_push hi (by rw [hex]) (by rw [hex]) w
      have hcount : (s.queueEvents (.ex (.push i))).count (.pushed w) = if v = w then 1 else 0 := by
        rw [queueEvents, hi]
        show [QueueEvent.pushed v].count (.pushed w) = _
        rw [List.count_singleton]
        simp
      rw [hcount]
      exact hspend.le
    | _ => exact hle

/-- **What a waker pushes after its task is gone.** -/
theorem count_pushed_le {bs : List (Act V)} {t : Logged (Overlapping V) Unit QueueEvent}
    (h : QueueInv s) (hg : s.Gone w k) (hrun : (accounts V).run ⟨s, fun _ ↦ []⟩ bs = some t) :
    (t.log ()).count (.pushed w) ≤ s.ex.credit w := by
  have hinv : QueueInv t.state ∧ t.state.Gone w k ∧
      t.state.ex.credit w + (t.log ()).count (.pushed w) ≤ s.ex.credit w := by
    refine Machine.run_preserves (M := accounts V)
      (I := fun t ↦ QueueInv t.state ∧ t.state.Gone w k ∧
        t.state.ex.credit w + (t.log ()).count (.pushed w) ≤ s.ex.credit w)
      (fun u a v hu hs ↦ ?_) ⟨h, hg, Nat.le_refl _⟩ hrun
    obtain ⟨hu, hgone, hle⟩ := hu
    obtain ⟨v, hv, rfl⟩ := Machine.step_logged_eq_some.1 hs
    obtain ⟨hgone', hle'⟩ := hgone.step hu hv
    refine ⟨hu.step hv, hgone', ?_⟩
    show v.ex.credit w + (u.log () ++ u.state.queueEvents a).count (.pushed w) ≤ _
    rw [List.count_append]
    omega
  exact (Nat.le_add_left _ _).trans hinv.2.2

/-- A step inside `poll_tasks` polls a task only for an id that was due. -/
theorem due_step (h : DrainBound s) (hs : s.step a = some t) (hpc : s.pc.draining ≠ .idle) (k : ℕ) :
    t.ex.due t.pc k + (s.queueEvents a).count (.polled k) ≤ s.ex.due s.pc k := by
  cases step_cases hs
  case newRun | dropRun => exact Nat.le_refl _
  case poll hcan _ => exact absurd (draining_of_canPoll hcan) hpc
  case run b r r' rest ex' hstack hstep =>
    have hr : s.pc = r.pc := pc_of_stack hstack
    have henclosing := h.enclosing
    rw [hstack, List.tail_cons] at henclosing
    have hdue : (settle ex' s.idle rest r').ex.due (settle ex' s.idle rest r').pc k =
        ex'.due r'.pc k := by
      rw [Executor.due, hand_settle ex' s.idle r' henclosing,
        (draining_settle ex' s.idle r' henclosing).1, ex_settle, Executor.due]
    have hcount : (s.queueEvents (.run b)).count (.polled k) =
        if r'.pc.polledKey = some k then 1 else 0 := by
      simp only [queueEvents, hstack, hstep, Option.bind_some]
      cases r'.pc.polledKey with
      | none => rfl
      | some key =>
        show [QueueEvent.polled key].count (.polled k) = _
        rw [List.count_singleton]
        simp
    rw [hdue, hcount, hr]
    rw [hr] at hpc
    exact (Executor.trans_of_runStep hstep).due_le hpc k
  case ex b ex' hact _ =>
    have hnone : (s.queueEvents (.ex b)).count (.polled k) = 0 := by
      cases b with
      | push i =>
        rw [queueEvents]
        cases s.ex.flights[i]? with
        | none => rfl
        | some f => rfl
      | _ => rfl
    rw [hnone]
    exact ((Executor.touch_of_act hact).due_eq h.bounded k).le

/-- **What a call of `poll_tasks` polls.** -/
theorem count_polled_le {bs : List (Act V)} {s t : Logged (Overlapping V) Unit QueueEvent}
    (h : DrainBound s.state)
    (hin : (machine V).AllSteps (fun v _ ↦ v.pc.draining ≠ .idle) s.state bs)
    (hrun : (accounts V).run s bs = some t) (k : ℕ) :
    (t.log ()).count (.polled k) ≤ (s.log ()).count (.polled k) + s.state.ex.due s.state.pc k := by
  induction bs generalizing s with
  | nil =>
    obtain rfl := Option.some.inj hrun
    exact Nat.le_add_right _ _
  | cons a bs ih =>
    obtain ⟨u, hu, hrun⟩ := Machine.run_cons_eq_some _ |>.1 hrun
    obtain ⟨v, hv, rfl⟩ := Machine.step_logged_eq_some.1 hu
    have hv : s.state.step a = some v := hv
    have hnext : DrainBound v := h.step hv
    have hrest : (t.log ()).count (.polled k) ≤
        (s.log () ++ s.state.queueEvents a).count (.polled k) + v.ex.due v.pc k :=
      ih hnext (hin.2 v hv) hrun
    have hstep := due_step h hv hin.1 k
    rw [List.count_append] at hrest
    omega

/-- If no waker of a task that is gone has its flag set, at most one waker for the index has. -/
theorem QueueInv.flagged_le_one (h : QueueInv s) (hfirst : ∀ w key, s.pc.hand ≠ .first w key)
    (hk : k ≠ MAIN_TASK_ID) (hgone : ∀ w, s.Gone w k → s.ex.asleep w = true) :
    s.ex.flagged k ≤ 1 := by
  -- a waker whose flag is set is that of the task in the slab at the index
  have hlive : ∀ w tw, s.ex.wakers[w]? = some tw → tw.taskId = k ∧ tw.awoken = true →
      ∃ task, s.ex.tasks.get k = some task ∧ task.waker = w := by
    intro w tw hw hflag
    have hmade : s.ex.taskIds[w]? = some k := by
      rw [Executor.taskIds, List.getElem?_map, hw, Option.map_some, hflag.1]
    by_contra hno
    have hasleep : s.ex.asleep w = true := by
      refine hgone w ⟨hmade, hk, fun key task hget heq ↦ hno ⟨task, ?_, heq⟩,
        fun key ↦ hfirst w key⟩
      have hkey := h.ledger.slab key task hget
      rw [heq, hmade] at hkey
      rw [Option.some.inj hkey, hget]
    rw [Executor.asleep, hw] at hasleep
    simp [hflag.2] at hasleep
  refine List.countP_le_one fun i j x y hi hj hx hy ↦ ?_
  obtain ⟨task, hget, rfl⟩ := hlive i x hi (of_decide_eq_true hx)
  obtain ⟨task', hget', rfl⟩ := hlive j y hj (of_decide_eq_true hy)
  rw [hget] at hget'
  rw [Option.some.inj hget']

/-- The call that reads the lengths has exactly the queue due. -/
theorem due_of_snapshot (h : DrainBound s) (hpc : s.pc = .snapshot)
    (hs : s.step (.run .tick) = some t) (hcall : t.pc.draining ≠ .idle) (k : ℕ) :
    t.ex.due t.pc k = s.ex.queued k := by
  cases step_cases hs
  case run r r' rest ex' hstack hstep =>
    have hr : s.pc = r.pc := pc_of_stack hstack
    have henclosing := h.enclosing
    rw [hstack, List.tail_cons] at henclosing
    obtain ⟨hsettle, -⟩ := draining_settle ex' s.idle r' henclosing
    have hidle : r.pc.draining = .idle := by rw [← hr, hpc]; rfl
    rcases ((Executor.trans_of_runStep hstep).draining_of_idle hidle).1 with hno |
      ⟨-, hqueue, hdrain⟩
    · exact absurd (hsettle.trans hno) hcall
    · rw [Executor.due, hand_settle ex' s.idle r' henclosing, hsettle, hdrain, ex_settle, hqueue]
      show (s.ex.queue.localIds.take s.ex.queue.localIds.length).count k +
        (s.ex.queue.concurrent.take s.ex.queue.concurrent.length).count k + 0 = s.ex.queued k
      rw [List.take_length, List.take_length]
      rfl

end Overlapping

/-- **The wake queue is bounded by the wakes that are outstanding.** In every state that an executor
can reach, an index is in the queue at most as often as there are wakers for it, of tasks past and
present, whose flag is set. A waker whose task is gone pushes at most as often from then on as it
has calls of `wake` about to push, and once more if its flag is clear. And if no waker of a task
that is gone has its flag set for an index when `poll_tasks` starts, then the index is in the queue
at most once and the call polls its task at most once. -/
theorem wake_queue_bounded {as : List (Overlapping.Act V)} {s : Overlapping V}
    (hrun : (Overlapping.machine V).run .init as = some s) :
    (∀ k, k ≠ MAIN_TASK_ID →
      s.ex.queue.localIds.count k + s.ex.queue.concurrent.count k ≤
        s.ex.wakers.countP fun tw ↦ tw.taskId = k ∧ tw.awoken = true) ∧
    (∀ w k bs t, s.Gone w k → (Overlapping.accounts V).run ⟨s, fun _ ↦ []⟩ bs = some t →
      (t.log ()).count (.pushed w) ≤
        s.ex.flights.countP (fun f ↦ f.phase = .push ∧ f.waker = w) +
          (if s.ex.asleep w then 1 else 0)) ∧
    ∀ k, k ≠ MAIN_TASK_ID → s.pc = .snapshot → (∀ w, s.Gone w k → s.ex.asleep w = true) →
      s.ex.queue.localIds.count k + s.ex.queue.concurrent.count k ≤ 1 ∧
      ∀ u bs t, s.step (.run .tick) = some u → u.pc.draining ≠ .idle →
        (Overlapping.machine V).AllSteps (fun v _ ↦ v.pc.draining ≠ .idle) u bs →
        (Overlapping.accounts V).run ⟨u, fun _ ↦ []⟩ bs = some t →
        (t.log ()).count (.polled k) ≤ 1 := by
  have hinv := Overlapping.queueInv_of_run hrun
  have hdrain := Overlapping.drainBound_of_run hrun
  have hbound : ∀ k, k ≠ MAIN_TASK_ID → s.ex.queued k ≤ s.ex.flagged k := by
    intro k hk
    have hcounted := hinv.ledger.counted k hk
    omega
  refine ⟨hbound, fun w k bs t hg hbs ↦ Overlapping.count_pushed_le hinv hg hbs,
    fun k hk hpc hgone ↦ ?_⟩
  have hone : s.ex.queued k ≤ 1 :=
    (hbound k hk).trans (hinv.flagged_le_one (by simp [hpc, Pc.hand]) hk hgone)
  refine ⟨hone, fun u bs t hu hcall hin hbs ↦ ?_⟩
  have hpolled : (t.log ()).count (.polled k) ≤ 0 + u.ex.due u.pc k :=
    Overlapping.count_polled_le (s := ⟨u, fun _ ↦ []⟩) (hdrain.step hu) hin hbs k
  have hdue : u.ex.due u.pc k = s.ex.queued k := Overlapping.due_of_snapshot hdrain hpc hu hcall k
  omega

/-- A task is woken twice before `poll_tasks` starts. -/
def Overlapping.wokenTwice : List (Overlapping.Act Unit) :=
  List.flatten [Overlapping.toMain,
    [.ex .spawn, .run (.ret none), .run .tick, .run .tick, .run (.firstPoll 0), .run (.ret none),
      .run .tick],
    [.ex (.wake 1 false), .ex (.push 0), .ex (.wake 1 true), .poll 0 7, .run .tick]]

theorem wake_queue_bounded_wokenTwice :
    ∃ s u t, (Overlapping.machine Unit).run .init Overlapping.wokenTwice = some s ∧
      s.pc = .snapshot ∧ s.ex.queue.localIds.count 0 + s.ex.queue.concurrent.count 0 = 1 ∧
      s.step (.run .tick) = some u ∧
      (Overlapping.accounts Unit).run ⟨u, fun _ ↦ []⟩ [.run .tick, .run .tick] = some t ∧
      t.log () = [.polled 0] ∧ (t.log ()).count (.polled 0) ≤ 1 := by
  obtain ⟨s, hrun, hpc, hqueue, hids, htask, u, hu, hdrain, t, ht, hlog, hin⟩ : ∃ s,
      (Overlapping.machine Unit).run .init Overlapping.wokenTwice = some s ∧ s.pc = .snapshot ∧
      s.ex.queue.localIds.count 0 + s.ex.queue.concurrent.count 0 = 1 ∧
      s.ex.taskIds = [MAIN_TASK_ID, 0] ∧ s.ex.tasks.get 0 = some ⟨0, 1⟩ ∧
      ∃ u, s.step (.run .tick) = some u ∧ u.pc.draining = .loop 0 1 ∧
      ∃ t, (Overlapping.accounts Unit).run ⟨u, fun _ ↦ []⟩ [.run .tick, .run .tick] = some t ∧
        t.log () = [.polled 0] ∧
        (Overlapping.machine Unit).AllSteps (fun v _ ↦ v.pc.draining ≠ .idle) u
          [.run .tick, .run .tick] := by
    refine ⟨_, rfl, rfl, rfl, rfl, rfl, _, rfl, rfl, _, rfl, rfl, by decide, fun v hv ↦ ?_⟩
    obtain rfl := Option.some.inj hv
    exact ⟨by decide, fun _ _ ↦ trivial⟩
  refine ⟨s, u, t, hrun, hpc, hqueue, hu, ht, hlog, ?_⟩
  refine ((wake_queue_bounded hrun).2.2 0 (by decide) hpc fun w hgone ↦ ?_).2 u _ t hu
    (by simp [hdrain]) hin ht
  -- the only waker for the index is that of the task in the slab
  have hmade := hgone.made
  rw [hids] at hmade
  have hw : w = 1 := by
    rcases w with - | - | w
    · exact absurd hmade (by decide)
    · rfl
    · exact absurd hmade (by simp)
  exact absurd hw.symm (hgone.slab 0 _ htask)

/-- Two tasks are spawned for the same index. The first wakes itself and completes in its first
poll; the id it leaves makes `poll_tasks` poll the second, whose own call of `wake` has not pushed
yet, and which completes. -/
def Overlapping.staleWake : List (Overlapping.Act Unit) :=
  List.flatten [Overlapping.toMain,
    [.ex .spawn, .ex .spawn, .run (.ret none), .run .tick, .run .tick, .run (.firstPoll 0),
      .ex (.wake 1 false), .ex (.push 0), .ex (.fire 0), .run (.ret (some ())), .run (.ret none)],
    [.run .tick, .run (.firstPoll 0), .run (.ret none), .run .tick, .ex (.wake 2 false)],
    [.poll 0 7, .run .tick, .run .tick, .run .tick, .run .tick, .run (.ret (some ())), .run .tick,
      .run (.ret none)]]

/-- Afterwards the call pushes, and the waker is woken again. -/
def Overlapping.twoPushes : List (Overlapping.Act Unit) :=
  [.ex (.push 0), .ex (.wake 2 false), .ex (.push 1)]

/-- **A waker pushes twice after its task is gone.** -/
theorem gone_waker_pushes_twice :
    ∃ s t, (Overlapping.machine Unit).run .init Overlapping.staleWake = some s ∧ s.Gone 2 0 ∧
      (Overlapping.accounts Unit).run ⟨s, fun _ ↦ []⟩ Overlapping.twoPushes = some t ∧
      (t.log ()).count (.pushed 2) = 2 := by
  obtain ⟨s, hrun, hids, hpc, hvalues, t, ht, hcount⟩ : ∃ s,
      (Overlapping.machine Unit).run .init Overlapping.staleWake = some s ∧
      s.ex.taskIds[2]? = some 0 ∧ s.pc.hand = .empty ∧ s.ex.tasks.values = [] ∧
      ∃ t, (Overlapping.accounts Unit).run ⟨s, fun _ ↦ []⟩ Overlapping.twoPushes = some t ∧
        (t.log ()).count (.pushed 2) = 2 := ⟨_, rfl, rfl, rfl, rfl, _, rfl, by decide⟩
  refine ⟨s, t, hrun, ⟨hids, by decide, fun key task hget ↦ ?_, fun key ↦ by simp [hpc]⟩,
    ht, hcount⟩
  have hmem : task ∈ s.ex.tasks.values := Slab.mem_values.2 ⟨key, hget⟩
  rw [hvalues] at hmem
  exact absurd hmem List.not_mem_nil

end LocalRuntime
