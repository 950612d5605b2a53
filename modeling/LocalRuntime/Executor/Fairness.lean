import LocalRuntime.Executor.MainWakeups
import LocalRuntime.Executor.QueueBound

/-!
# No task starves

A call of `poll_tasks` pops what was in the wake queue at its start, so tasks that wake themselves
again and again cannot keep another task from its turn. `no_task_starves` says how long the turn of
a task in the wake queue can take: the call that is under way may come to its end without it, and
the next one polls it. Until then nobody else is polled more than twice.

The id of the task is followed through the queue: it is in the queue or in hand (`waiting`), and
once a call starts it is due in that call (`Executor.due`). It is lost only if a new `run` future
resets the queue.
-/

namespace LocalRuntime

variable {V : Type}

namespace Executor

variable {ex ex' : Executor V} {r r' : Run} {k key : ℕ} {task : Task}

/-- How often an id is in the wake queue or in hand. -/
def waiting (ex : Executor V) (pc : Pc) (k : ℕ) : ℕ := ex.queued k + pc.hand.count k

theorem queued_pos_iff : 0 < ex.queued k ↔ ex.queue.Has k := by
  rw [queued, Nat.add_pos_iff_pos_or_pos, List.count_pos_iff, List.count_pos_iff]
  rfl

/-- An id in hand has been popped. -/
theorem hand_count_eq_zero {pc : Pc} (h : ¬ ∃ d, pc = .popped k d) : pc.hand.count k = 0 := by
  cases pc
  case popped id d =>
    refine if_neg ?_
    rintro rfl
    exact h ⟨d, rfl⟩
  all_goals rfl

theorem due_le_waiting (ex : Executor V) (pc : Pc) (k : ℕ) : ex.due pc k ≤ ex.waiting pc k := by
  rw [due, waiting, queued]
  refine Nat.add_le_add_right ?_ _
  cases pc.draining with
  | loop n m | callback n m =>
    exact Nat.add_le_add ((List.take_sublist _ _).count_le _) ((List.take_sublist _ _).count_le _)
  | idle | lens | panicked => exact Nat.zero_le _

/-- Nothing is due outside `poll_tasks`. -/
theorem due_of_idle {pc : Pc} (h : pc.draining = .idle) : ex.due pc k = 0 := by
  rw [due, h, Nat.zero_add]
  refine hand_count_eq_zero ?_
  rintro ⟨d, rfl⟩
  cases h

/-- **An id that waits has been popped, or waits on**, as long as the queue is not reset. -/
theorem Trans.waiting_pos (ht : ex.Trans r ex' r') (hreset : r.pc ≠ .resetting)
    (hwaiting : 0 < ex.waiting r.pc k) : (∃ d, r.pc = .popped k d) ∨ 0 < ex'.waiting r'.pc k := by
  by_cases hpopped : ∃ d, r.pc = .popped k d
  · exact Or.inl hpopped
  refine Or.inr ?_
  rw [waiting, hand_count_eq_zero hpopped, Nat.add_zero] at hwaiting
  refine hwaiting.trans_le ?_
  cases ht
  case resetPop hpc _ => exact absurd hpc hreset
  case popLocal n m awoken id rest hpc hq =>
    show _ ≤ rest.count k + ex.queue.concurrent.count k + (if id = k then 1 else 0)
    rw [queued, hq, List.count_cons]
    simp only [beq_iff_eq]
    omega
  case popConcurrent m awoken id rest hpc hq =>
    show _ ≤ ex.queue.localIds.count k + rest.count k + (if id = k then 1 else 0)
    rw [queued, hq, List.count_cons]
    simp only [beq_iff_eq]
    omega
  case readyTask task v _ _ =>
    obtain ⟨_, _, _, _, heq⟩ := exists_complete_eq ex task.id v
    rw [heq]
    exact Nat.le_add_right _ _
  case readyFirst task _ _ v _ =>
    obtain ⟨_, _, _, _, heq⟩ := exists_complete_eq ex task.id v
    rw [heq]
    exact Nat.le_add_right _ _
  all_goals exact Nat.le_add_right _ _

/-- **An id that is due has been popped, or is due still.** -/
theorem Trans.due_pos (ht : ex.Trans r ex' r') (hdue : 0 < ex.due r.pc k) :
    (∃ d, r.pc = .popped k d) ∨ 0 < ex'.due r'.pc k := by
  have hpc : r.pc.draining ≠ .idle := fun hidle ↦ hdue.ne' (due_of_idle hidle)
  by_cases hpopped : ∃ d, r.pc = .popped k d
  · exact Or.inl hpopped
  refine Or.inr ?_
  rw [due, hand_count_eq_zero hpopped, Nat.add_zero] at hdue
  refine hdue.trans_le ?_
  cases ht
  case popLocal n m awoken id rest hpc' hq =>
    rw [hpc']
    show ((ex.queue.localIds.take (n + 1)).count k + (ex.queue.concurrent.take m).count k) ≤
      (rest.take n).count k + (ex.queue.concurrent.take m).count k + (if id = k then 1 else 0)
    rw [hq, List.take_succ_cons, List.count_cons]
    simp only [beq_iff_eq]
    omega
  case popConcurrent m awoken id rest hpc' hq =>
    rw [hpc']
    show ((ex.queue.localIds.take 0).count k + (ex.queue.concurrent.take (m + 1)).count k) ≤
      (ex.queue.localIds.take 0).count k + (rest.take m).count k + (if id = k then 1 else 0)
    rw [hq, List.take_succ_cons, List.count_cons]
    simp only [beq_iff_eq]
    omega
  case drained m awoken hpc' hq =>
    -- at the end of the call nothing is left of what was due
    rw [hpc']
    show (ex.queue.localIds.take 0).count k + (ex.queue.concurrent.take m).count k ≤ 0
    rcases hq with rfl | hq
    · exact Nat.le_refl _
    · rw [hq, List.take_nil]
      exact Nat.le_refl _
  case readyTask key d task v hpc' _ =>
    obtain ⟨_, _, _, _, heq⟩ := exists_complete_eq ex task.id v
    rw [heq, hpc']
    exact Nat.le_add_right _ _
  case borrowTasks hpc' _ =>
    obtain hpc' | hpc' | hpc' := hpc' <;> exact absurd (by rw [hpc']; rfl) hpc
  case borrowSpawned hpc' _ =>
    obtain hpc' | hpc' := hpc' <;> exact absurd (by rw [hpc']; rfl) hpc
  case poppedMain hpc' | poppedGone hpc' _ _ | removeCancelled hpc' _ _ _ | sleepTask hpc' _ _ _ |
      pendingTask hpc' | droppedTask hpc' | removeReady hpc' | unwrap hpc' _ =>
    rw [hpc']
    exact Nat.le_add_right _ _
  all_goals exact absurd (by rw [‹r.pc = _›]; rfl) hpc

/-- From outside ids are only added. -/
theorem Touch.queued_le (ht : Touch ex ex') (k : ℕ) : ex.queued k ≤ ex'.queued k := by
  rcases ht.ids_eq with hids | ⟨val, b, hids⟩
  · obtain ⟨-, hlocal, hcon⟩ := WakeQueue.mk.inj hids
    rw [queued, queued, hlocal, hcon]
  · have hpush := queued_push ex.queue.ids val b k
    rw [← hids] at hpush
    exact (Nat.le_add_right _ _).trans hpush.ge

/-- A task that has been popped is polled, or leaves its slot. -/
theorem Trans.of_popped {d : Drain} (ht : ex.Trans r ex' r') (hpc : r.pc = .popped key d)
    (hget : ex.tasks.get key = some task) (hkey : key ≠ MAIN_TASK_ID) :
    r'.pc.polledKey = some key ∨ ex'.tasks.get key = none := by
  cases ht
  case poppedMain hpc' =>
    rw [hpc] at hpc'
    exact absurd (Pc.popped.inj hpc').1 hkey
  case poppedGone hpc' _ hnone =>
    rw [hpc] at hpc'
    obtain ⟨rfl, -⟩ := Pc.popped.inj hpc'
    exact absurd (hget.symm.trans hnone) (by simp)
  case removeCancelled hpc' _ _ _ =>
    rw [hpc] at hpc'
    obtain ⟨rfl, -⟩ := Pc.popped.inj hpc'
    exact Or.inr (by rw [Slab.get_remove, if_pos rfl])
  case sleepTask hpc' _ _ _ =>
    rw [hpc] at hpc'
    obtain ⟨rfl, -⟩ := Pc.popped.inj hpc'
    exact Or.inl rfl
  case borrowTasks hpc' _ =>
    obtain hpc' | hpc' | hpc' := hpc' <;> exact absurd (hpc.symm.trans hpc') (by simp)
  case borrowSpawned hpc' _ =>
    obtain hpc' | hpc' := hpc' <;> exact absurd (hpc.symm.trans hpc') (by simp)
  all_goals exact absurd (hpc.symm.trans ‹r.pc = _›) (by simp)

/-- A slot that is taken keeps its task, or is left empty. -/
theorem Trans.get_or_none (ht : ex.Trans r ex' r')
    (hvacant : ∀ w k, r.pc.hand = .first w k → ex.tasks.IsVacant k)
    (hget : ex.tasks.get key = some task) :
    ex'.tasks.get key = some task ∨ ex'.tasks.get key = none ∧ r'.pc.hand = .empty := by
  cases ht
  case removeCancelled id d task' _ _ _ _ | removeReady id d _ =>
    by_cases hk : key = id
    · exact Or.inr ⟨by rw [Slab.get_remove, if_pos hk], rfl⟩
    · exact Or.inl (by rw [Slab.get_remove, if_neg hk, hget])
  case clear => exact Or.inr ⟨rfl, rfl⟩
  case pendingFirst task' w k hpc =>
    have hk : ex.tasks.IsVacant k := hvacant w k (by rw [hpc]; rfl)
    refine Or.inl ((Slab.get_insert hk _ key).trans ?_)
    rw [if_neg, hget]
    rintro rfl
    exact absurd (hget.symm.trans hk.2) (by simp)
  case readyTask task' v _ _ => exact Or.inl (by rw [(touch_complete ex task'.id v).tasks_eq, hget])
  case readyFirst task' _ _ v _ =>
    exact Or.inl (by rw [(touch_complete ex task'.id v).tasks_eq, hget])
  all_goals exact Or.inl hget

/-- A poll of a task begins inside `poll_tasks`. -/
theorem Trans.polledKey_of_idle (ht : ex.Trans r ex' r') (hpc : r.pc.draining = .idle) :
    r'.pc.polledKey = none := by
  cases ht
  case sleepTask hpc' _ _ _ =>
    rw [hpc'] at hpc
    cases hpc
  case resetPop hpc' _ | unwrap hpc' _ | mainTaskId hpc' => rw [hpc']; rfl
  case borrowTasks hpc' _ => obtain hpc' | hpc' | hpc' := hpc' <;> rw [hpc'] <;> rfl
  case borrowSpawned hpc' _ => obtain hpc' | hpc' := hpc' <;> rw [hpc'] <;> rfl
  all_goals rfl

/-- **What is due at the start of a call is what is in the queue.** If the tasks are borrowed there
is no call. -/
theorem Trans.of_snapshot (ht : ex.Trans r ex' r') (hpc : r.pc = .snapshot) :
    ex.tasksBorrowed = false ∧ (∀ k, ex'.due r'.pc k = ex.queued k) ∨
      ex.tasksBorrowed = true ∧ r'.pc.draining = .idle := by
  cases ht
  case snapshot hb =>
    refine Or.inl ⟨hb, fun k ↦ ?_⟩
    show (ex.queue.localIds.take ex.queue.localIds.length).count k +
      (ex.queue.concurrent.take ex.queue.concurrent.length).count k + 0 = ex.queued k
    rw [List.take_length, List.take_length]
    rfl
  case borrowTasks hb => exact Or.inr ⟨hb, by rw [hpc]; rfl⟩
  case borrowSpawned hpc' _ =>
    obtain hpc' | hpc' := hpc' <;> exact absurd (hpc.symm.trans hpc') (by simp)
  all_goals exact absurd (hpc.symm.trans ‹r.pc = _›) (by simp)

end Executor

/-! ### The turns of the tasks -/

/-- What is seen of the turns of the tasks: a call of `poll_tasks` starts, or polls the task with a
key. -/
inductive TurnEvent where
  | called
  | polled (key : ℕ)
  deriving DecidableEq

namespace Overlapping

variable {s t : Overlapping V} {a : Act V} {k key : ℕ} {task : Task}

/-- The step starts a call of `poll_tasks`. -/
def starts (s : Overlapping V) : Act V → Bool
  | .run _ => s.pc == .snapshot && !s.ex.tasksBorrowed
  | _ => false

/-- The events of an action. -/
def turnEvents (s : Overlapping V) (a : Act V) : List TurnEvent :=
  (if s.starts a then [.called] else []) ++
    (s.queueEvents a).filterMap fun
      | .polled key => some (.polled key)
      | .pushed _ => none

/-- The machine that keeps these events. -/
def turns (V : Type) : Machine (Logged (Overlapping V) Unit TurnEvent) (Act V) :=
  (machine V).logged fun s a _ ↦ s.turnEvents a

theorem count_polled_turnEvents (s : Overlapping V) (a : Act V) (k : ℕ) :
    (s.turnEvents a).count (.polled k) = (s.queueEvents a).count (.polled k) := by
  have hcalled : (if s.starts a then [TurnEvent.called] else []).count (.polled k) = 0 := by
    split <;> rfl
  rw [turnEvents, List.count_append, hcalled, Nat.zero_add, List.count_filterMap,
    List.count_eq_countP]
  refine List.countP_congr fun e _ ↦ ?_
  cases e with
  | pushed w => simp
  | polled key => simp

theorem count_called_turnEvents (s : Overlapping V) (a : Act V) :
    (s.turnEvents a).count .called = if s.starts a then 1 else 0 := by
  have hnone : ((s.queueEvents a).filterMap fun
      | .polled key => some (TurnEvent.polled key)
      | .pushed _ => none).count .called = 0 := by
    rw [List.count_eq_zero, List.mem_filterMap]
    rintro ⟨e, -, he⟩
    cases e with
    | pushed w => cases he
    | polled key => cases he
  rw [turnEvents, List.count_append, hnone, Nat.add_zero]
  split <;> rfl

/-! ### What a step does -/

/-- The balance of the wake queue, the bounds of the calls, and the wakers of the tasks. -/
structure TurnInv (s : Overlapping V) : Prop where
  queue : QueueInv s
  drain : DrainBound s
  wakers : s.ex.TaskWakers s.pc

theorem TurnInv.init : TurnInv (init : Overlapping V) where
  queue := .init
  drain := .init
  wakers := ⟨fun _ _ hget ↦ absurd hget (by simp [Overlapping.init, Executor.new]),
    fun _ _ _ hpc ↦ absurd hpc (by simp [Overlapping.init, pc])⟩

theorem TurnInv.step (h : TurnInv s) (hs : s.step a = some t) : TurnInv t := by
  refine ⟨h.queue.step hs, h.drain.step hs, ?_⟩
  cases step_cases hs
  case newRun | dropRun => exact h.wakers
  case poll i cx r r' ex' hr hcan hbegin =>
    obtain ⟨-, rfl, rfl⟩ | ⟨-, rfl, rfl⟩ := Executor.beginPoll_cases hbegin
    · exact h.wakers.move (fun w hw ↦ hw.append rfl) (fun _ _ hget ↦ hget) (by simp [pc])
    · exact h.wakers.move (fun w hw ↦ hw) (fun _ _ hget ↦ hget) (by simp [pc])
  case run b r r' rest ex' hstack hstep =>
    have hwakers := h.wakers
    have henclosing := h.drain.enclosing
    rw [hstack, List.tail_cons] at henclosing
    rw [pc_of_stack hstack] at hwakers
    have hwakers' := hwakers.trans (Executor.trans_of_runStep hstep)
    rw [ex_settle]
    obtain hpc | ⟨-, hpc⟩ := pc_settle ex' s.idle r' henclosing
    · rwa [hpc]
    · refine hwakers'.move (fun _ hw ↦ hw) (fun _ _ hget ↦ hget) ?_
      obtain hpc | hpc | hpc := hpc <;> simp [hpc]
  case ex hact _ => exact h.wakers.touch (Executor.touch_of_act hact)

theorem turnInv_of_run {as : List (Act V)} (hrun : (machine V).run .init as = some s) : TurnInv s :=
  Machine.run_preserves (M := machine V) (fun _ _ _ h hs ↦ h.step hs) TurnInv.init hrun

/-- The id of the main future is no key. -/
theorem TurnInv.key_ne (h : TurnInv s) (hget : s.ex.tasks.get key = some task) :
    key ≠ MAIN_TASK_ID := by
  obtain ⟨tw, hw, hid⟩ := h.wakers.tasks key task hget
  have hslab := h.queue.ledger.slab key task hget
  rw [Executor.taskIds, List.getElem?_map, hw, Option.map_some] at hslab
  exact Option.some.inj hslab ▸ hid

/-- **A task keeps its slot, or is gone.** -/
theorem TurnInv.slot_or_gone (h : TurnInv s) (hs : s.step a = some t)
    (hget : s.ex.tasks.get key = some task) :
    t.ex.tasks.get key = some task ∨ t.Gone task.waker key := by
  cases step_cases hs
  case newRun | dropRun => exact Or.inl hget
  case poll hbegin =>
    obtain ⟨-, rfl, rfl⟩ | ⟨-, rfl, rfl⟩ := Executor.beginPoll_cases hbegin
    · exact Or.inl hget
    · exact Or.inl hget
  case run b r r' rest ex' hstack hstep =>
    have hr : s.pc = r.pc := pc_of_stack hstack
    have henclosing := h.drain.enclosing
    rw [hstack, List.tail_cons] at henclosing
    rw [ex_settle]
    have hvacant : ∀ w k, r.pc.hand = .first w k → s.ex.tasks.IsVacant k :=
      fun w k hhand ↦ (h.queue.ledger.first w k (hr ▸ hhand)).2
    refine ((Executor.trans_of_runStep hstep).get_or_none hvacant hget).imp_right ?_
    rintro ⟨hnone, hhand⟩
    have hledger := (h.queue.step hs).ledger
    rw [ex_settle, hand_settle ex' s.idle r' henclosing] at hledger
    have hmade := (h.queue.traffic hs).taskIds (h.queue.ledger.slab key task hget)
    rw [ex_settle] at hmade
    rw [Gone, ex_settle, hand_settle ex' s.idle r' henclosing]
    refine ⟨hmade, h.key_ne hget, fun key' task' hget' heq ↦ ?_, fun key' ↦ by simp [hhand]⟩
    -- its waker is of no other slot
    have hslab := hledger.slab key' task' hget'
    rw [heq, hmade] at hslab
    obtain rfl := Option.some.inj hslab
    exact absurd (hnone.symm.trans hget') (by simp)
  case ex hact _ => exact Or.inl (by rw [(Executor.touch_of_act hact).tasks_eq, hget])

theorem due_settle (ex' : Executor V) (idle : List Run) {rest : List Run} (r' : Run)
    (henclosing : ∀ r ∈ rest, r.pc = .pollMain ∨ r.pc = .dropMain) (k : ℕ) :
    (settle ex' idle rest r').ex.due (settle ex' idle rest r').pc k = ex'.due r'.pc k := by
  rw [Executor.due, hand_settle ex' idle r' henclosing, (draining_settle ex' idle r' henclosing).1,
    ex_settle, Executor.due]

theorem count_polled_run {b : RunAct V} {r r' : Run} {rest : List Run} {ex' : Executor V}
    (hstack : s.stack = r :: rest) (hstep : s.ex.runStep r b = some (ex', r')) (k : ℕ) :
    (s.turnEvents (.run b)).count (.polled k) = if r'.pc.polledKey = some k then 1 else 0 := by
  rw [count_polled_turnEvents]
  simp only [queueEvents, hstack, hstep, Option.bind_some]
  cases r'.pc.polledKey with
  | none => rfl
  | some key =>
    show [QueueEvent.polled key].count (.polled k) = _
    rw [List.count_singleton]
    simp

/-- **A step polls a task only for an id that was due**, and makes something due only by the start
of a call. -/
theorem TurnInv.due_add_le (h : TurnInv s) (hs : s.step a = some t) (k : ℕ) :
    t.ex.due t.pc k + (s.turnEvents a).count (.polled k) ≤
      s.ex.due s.pc k + if s.starts a then s.ex.queued k else 0 := by
  by_cases hpc : s.pc.draining = .idle
  · have hnone : ∀ b, (s.turnEvents (.ex b)).count (.polled k) = 0 := by
      intro b
      rw [count_polled_turnEvents]
      cases b with
      | push i =>
        rw [queueEvents]
        cases s.ex.flights[i]? with
        | none => rfl
        | some f => rfl
      | _ => rfl
    cases step_cases hs
    case newRun | dropRun =>
      rw [count_polled_turnEvents]
      exact Nat.le_add_right _ _
    case poll i cx r r' ex' hr hcan hbegin =>
      rw [count_polled_turnEvents]
      obtain ⟨-, rfl, rfl⟩ | ⟨-, rfl, rfl⟩ := Executor.beginPoll_cases hbegin
      · exact Nat.zero_le _
      · exact Nat.zero_le _
    case run b r r' rest ex' hstack hstep =>
      have hr : s.pc = r.pc := pc_of_stack hstack
      have henclosing := h.drain.enclosing
      rw [hstack, List.tail_cons] at henclosing
      have ht := Executor.trans_of_runStep hstep
      rw [hr] at hpc
      rw [due_settle ex' s.idle r' henclosing, count_polled_run hstack hstep,
        ht.polledKey_of_idle hpc, if_neg (by simp), Nat.add_zero]
      rcases (ht.draining_of_idle hpc).1 with hidle | ⟨hsnapshot, -, -⟩
      · rw [Executor.due_of_idle hidle]
        exact Nat.zero_le _
      · rcases ht.of_snapshot hsnapshot with ⟨hb, hdue⟩ | ⟨-, hidle⟩
        · have hstarts : s.starts (.run b) = true := by simp [starts, hr, hsnapshot, hb]
          rw [hdue, if_pos hstarts]
          exact Nat.le_add_left _ _
        · rw [Executor.due_of_idle hidle]
          exact Nat.zero_le _
    case ex b ex' hact _ =>
      have hzero : ex'.due s.pc k = 0 := Executor.due_of_idle hpc
      show ex'.due s.pc k + _ ≤ _
      rw [hzero, hnone]
      exact Nat.zero_le _
  · rw [count_polled_turnEvents]
    exact (due_step h.drain hs hpc k).trans (Nat.le_add_right _ _)

/-- **A task that is due is polled, is gone, or is due still.** -/
theorem TurnInv.due_pos_step (h : TurnInv s) (hs : s.step a = some t)
    (hget : s.ex.tasks.get key = some task) (hdue : 0 < s.ex.due s.pc key) :
    .polled key ∈ s.turnEvents a ∨ t.Gone task.waker key ∨
      t.ex.tasks.get key = some task ∧ 0 < t.ex.due t.pc key := by
  rcases h.slot_or_gone hs hget with hslot | hgone
  swap
  · exact Or.inr (Or.inl hgone)
  cases step_cases hs
  case newRun | dropRun => exact Or.inr (Or.inr ⟨hslot, hdue⟩)
  case poll hcan _ => exact absurd (Executor.due_of_idle (draining_of_canPoll hcan)) hdue.ne'
  case run b r r' rest ex' hstack hstep =>
    have henclosing := h.drain.enclosing
    rw [hstack, List.tail_cons] at henclosing
    have ht := Executor.trans_of_runStep hstep
    rw [pc_of_stack hstack] at hdue
    rw [ex_settle] at hslot
    rcases ht.due_pos hdue with ⟨d, hpc⟩ | hdue'
    · rcases ht.of_popped hpc hget (h.key_ne hget) with hpolled | hnone
      · refine Or.inl (List.count_pos_iff.1 ?_)
        rw [count_polled_run hstack hstep, if_pos hpolled]
        exact Nat.one_pos
      · exact absurd (hslot.symm.trans hnone) (by simp)
    · refine Or.inr (Or.inr ⟨by rw [ex_settle, hslot], ?_⟩)
      rwa [due_settle ex' s.idle r' henclosing]
  case ex b ex' hact _ =>
    refine Or.inr (Or.inr ⟨hslot, ?_⟩)
    show 0 < ex'.due s.pc key
    rwa [(Executor.touch_of_act hact).due_eq h.drain.bounded key]

/-- The step does not throw ids away: it is neither the first poll of a `run` future nor part of its
reset. -/
def KeepsQueue (s : Overlapping V) : Act V → Prop
  | .poll i _ => ∀ r, s.idle[i]? = some r → r.pc ≠ .created
  | .run _ => s.pc ≠ .resetting
  | _ => True

instance decidableKeepsQueue (s : Overlapping V) : ∀ a, Decidable (KeepsQueue s a)
  | .poll i _ =>
    decidable_of_iff ((s.idle[i]?).all (fun r ↦ r.pc ≠ .created) = true)
      (by simp [KeepsQueue, Option.all_eq_true])
  | .run _ => inferInstanceAs (Decidable (s.pc ≠ .resetting))
  | .newRun | .dropRun _ | .ex _ => isTrue trivial

/-- **A task that waits is polled, is gone, or waits on**; and a call that starts has it due. -/
theorem TurnInv.waiting_pos_step (h : TurnInv s) (hkeeps : KeepsQueue s a) (hs : s.step a = some t)
    (hget : s.ex.tasks.get key = some task) (hwaiting : 0 < s.ex.waiting s.pc key) :
    .polled key ∈ s.turnEvents a ∨ t.Gone task.waker key ∨
      t.ex.tasks.get key = some task ∧ 0 < t.ex.waiting t.pc key ∧
        (s.starts a = true → 0 < t.ex.due t.pc key) := by
  rcases h.slot_or_gone hs hget with hslot | hgone
  swap
  · exact Or.inr (Or.inl hgone)
  cases step_cases hs
  case newRun | dropRun => exact Or.inr (Or.inr ⟨hslot, hwaiting, by simp [starts]⟩)
  case poll i cx r r' ex' hr hcan hbegin =>
    refine Or.inr (Or.inr ⟨hslot, ?_, by simp [starts]⟩)
    obtain ⟨hpc, -, -⟩ | ⟨-, rfl, rfl⟩ := Executor.beginPoll_cases hbegin
    · exact absurd hpc (hkeeps r hr)
    · rw [Executor.waiting, Pc.hand_of_main (pc_of_canPoll hcan)] at hwaiting
      exact hwaiting
  case run b r r' rest ex' hstack hstep =>
    have hr : s.pc = r.pc := pc_of_stack hstack
    have henclosing := h.drain.enclosing
    rw [hstack, List.tail_cons] at henclosing
    have ht := Executor.trans_of_runStep hstep
    have hkeeps : s.pc ≠ .resetting := hkeeps
    rw [hr] at hwaiting hkeeps
    rw [ex_settle] at hslot
    rcases ht.waiting_pos hkeeps hwaiting with ⟨d, hpc⟩ | hwaiting'
    · rcases ht.of_popped hpc hget (h.key_ne hget) with hpolled | hnone
      · refine Or.inl (List.count_pos_iff.1 ?_)
        rw [count_polled_run hstack hstep, if_pos hpolled]
        exact Nat.one_pos
      · exact absurd (hslot.symm.trans hnone) (by simp)
    · refine Or.inr (Or.inr ⟨by rw [ex_settle, hslot], ?_, fun hstarts ↦ ?_⟩)
      · rwa [Executor.waiting, ex_settle, hand_settle ex' s.idle r' henclosing]
      · simp only [starts, hr, Bool.and_eq_true, beq_iff_eq, Bool.not_eq_true'] at hstarts
        rcases ht.of_snapshot hstarts.1 with ⟨-, hdue⟩ | ⟨hb, -⟩
        · rw [hstarts.1] at hwaiting
          rw [due_settle ex' s.idle r' henclosing, hdue]
          exact hwaiting
        · exact absurd (hstarts.2.symm.trans hb) (by simp)
  case ex b ex' hact _ =>
    refine Or.inr (Or.inr ⟨hslot, hwaiting.trans_le ?_, by simp [starts]⟩)
    exact Nat.add_le_add_right ((Executor.touch_of_act hact).queued_le key) _

/-! ### Until its turn -/

variable {x u : Logged (Overlapping V) Unit TurnEvent} {bs : List (Act V)}

/-- A task that waits in the end has waited all the time. -/
theorem TurnInv.not_served (h : TurnInv x.state) (hrun : (turns V).run x bs = some u)
    (hslot : u.state.ex.tasks.get key = some task) (hpolled : .polled key ∉ u.log ()) :
    .polled key ∉ x.log () ∧ ¬ x.state.Gone task.waker key := by
  refine ⟨fun hmem ↦ hpolled ((Machine.log_prefix_of_run hrun ()).subset hmem), fun hgone ↦ ?_⟩
  have hinv : QueueInv u.state ∧ u.state.Gone task.waker key := by
    refine Machine.run_preserves (M := turns V)
      (I := fun u ↦ QueueInv u.state ∧ u.state.Gone task.waker key) (fun y a z hy hs ↦ ?_)
      ⟨h.queue, hgone⟩ hrun
    obtain ⟨v, hv, rfl⟩ := Machine.step_logged_eq_some.1 hs
    exact ⟨hy.1.step hv, (hy.2.step hy.1 hv).1⟩
  exact hinv.2.slab key task hslot rfl

/-- **While a task is due, no call starts and the one under way goes on**, and the others are polled
for what is due. -/
theorem TurnInv.of_due (h : TurnInv x.state) (hget : x.state.ex.tasks.get key = some task)
    (hdue : 0 < x.state.ex.due x.state.pc key) (hrun : (turns V).run x bs = some u)
    (hslot : u.state.ex.tasks.get key = some task) (hpolled : .polled key ∉ u.log ()) :
    (u.log ()).count .called = (x.log ()).count .called ∧ u.state.pc.draining ≠ .idle ∧
      ∀ k, (u.log ()).count (.polled k) ≤
        (x.log ()).count (.polled k) + x.state.ex.due x.state.pc k := by
  have hpc : x.state.pc.draining ≠ .idle := fun hidle ↦ hdue.ne' (Executor.due_of_idle hidle)
  induction bs generalizing x with
  | nil =>
    obtain rfl := Option.some.inj hrun
    exact ⟨rfl, hpc, fun k ↦ Nat.le_add_right _ _⟩
  | cons a bs ih =>
    obtain ⟨y, hy, hrun⟩ := Machine.run_cons_eq_some _ |>.1 hrun
    obtain ⟨v, hv, rfl⟩ := Machine.step_logged_eq_some.1 hy
    have hv : x.state.step a = some v := hv
    have hnext : TurnInv v := h.step hv
    obtain ⟨hnot, hgone⟩ := TurnInv.not_served (x := ⟨v, _⟩) hnext hrun hslot hpolled
    rcases h.due_pos_step hv hget hdue with hmem | hgone' | ⟨hget', hdue'⟩
    · exact absurd (List.mem_append_right _ hmem) hnot
    · exact absurd hgone' hgone
    have hstarts : x.state.starts a = false := by
      rw [Bool.eq_false_iff]
      intro hstarts
      cases a with
      | run b =>
        simp only [starts, Bool.and_eq_true, beq_iff_eq] at hstarts
        exact hpc (by rw [hstarts.1]; rfl)
      | _ => cases hstarts
    obtain ⟨hcalled, hdraining, hle⟩ := ih hnext hget' hdue' hrun
      fun hidle ↦ hdue'.ne' (Executor.due_of_idle hidle)
    refine ⟨?_, hdraining, fun k ↦ ?_⟩
    · rw [hcalled, List.count_append, count_called_turnEvents, hstarts]
      rfl
    · have hstep := h.due_add_le hv k
      rw [hstarts, if_neg Bool.false_ne_true] at hstep
      refine (hle k).trans ?_
      show (x.log () ++ x.state.turnEvents a).count (.polled k) + v.ex.due v.pc k ≤ _
      rw [List.count_append]
      omega

/-- **While a task waits**, no call starts, or one starts and is not over. The others are polled for
what is due, and then for what is in the queue when the call starts. -/
theorem TurnInv.of_waiting (h : TurnInv x.state) (hget : x.state.ex.tasks.get key = some task)
    (hwaiting : 0 < x.state.ex.waiting x.state.pc key)
    (hkeeps : (machine V).AllSteps KeepsQueue x.state bs) (hrun : (turns V).run x bs = some u)
    (hslot : u.state.ex.tasks.get key = some task) (hpolled : .polled key ∉ u.log ()) :
    ((u.log ()).count .called = (x.log ()).count .called ∧
      ∀ k, (u.log ()).count (.polled k) ≤
        (x.log ()).count (.polled k) + x.state.ex.due x.state.pc k) ∨
    (u.log ()).count .called = (x.log ()).count .called + 1 ∧ u.state.pc.draining ≠ .idle ∧
      ∃ v, TurnInv v ∧ v.pc = .snapshot ∧
        (∀ C : Overlapping V → Act V → Prop, (machine V).AllSteps C x.state bs → ∃ a, C v a) ∧
        ∀ k, (u.log ()).count (.polled k) ≤
          (x.log ()).count (.polled k) + x.state.ex.due x.state.pc k + v.ex.queued k := by
  induction bs generalizing x with
  | nil =>
    obtain rfl := Option.some.inj hrun
    exact Or.inl ⟨rfl, fun k ↦ Nat.le_add_right _ _⟩
  | cons a bs ih =>
    obtain ⟨y, hy, hrun⟩ := Machine.run_cons_eq_some _ |>.1 hrun
    obtain ⟨v, hv, rfl⟩ := Machine.step_logged_eq_some.1 hy
    have hv : x.state.step a = some v := hv
    have hnext : TurnInv v := h.step hv
    obtain ⟨hnot, hgone⟩ := TurnInv.not_served (x := ⟨v, _⟩) hnext hrun hslot hpolled
    rcases h.waiting_pos_step hkeeps.1 hv hget hwaiting with hmem | hgone' |
      ⟨hget', hwaiting', hcall⟩
    · exact absurd (List.mem_append_right _ hmem) hnot
    · exact absurd hgone' hgone
    have hstep := h.due_add_le hv
    by_cases hstarts : x.state.starts a = true
    · -- the call that starts has the task due
      obtain ⟨hcalled, hdraining, hle⟩ :=
        TurnInv.of_due (x := ⟨v, _⟩) hnext hget' (hcall hstarts) hrun hslot hpolled
      refine Or.inr ⟨?_, hdraining, x.state, h, ?_, fun C hC ↦ ⟨a, hC.1⟩, fun k ↦ ?_⟩
      · rw [hcalled, List.count_append, count_called_turnEvents, if_pos hstarts]
      · cases a with
        | run b =>
          simp only [starts, Bool.and_eq_true, beq_iff_eq] at hstarts
          exact hstarts.1
        | _ => cases hstarts
      · have hstep := hstep k
        rw [if_pos hstarts] at hstep
        refine (hle k).trans ?_
        show (x.log () ++ x.state.turnEvents a).count (.polled k) + v.ex.due v.pc k ≤ _
        rw [List.count_append]
        omega
    · have hlog : ∀ k, (x.log () ++ x.state.turnEvents a).count (.polled k) + v.ex.due v.pc k ≤
          (x.log ()).count (.polled k) + x.state.ex.due x.state.pc k := by
        intro k
        have hstep := hstep k
        rw [if_neg hstarts] at hstep
        rw [List.count_append]
        omega
      have hcount : (x.log () ++ x.state.turnEvents a).count .called =
          (x.log ()).count .called := by
        rw [List.count_append, count_called_turnEvents, if_neg hstarts]
        rfl
      rcases ih hnext hget' hwaiting' (hkeeps.2 v hv) hrun with
        ⟨hcalled, hle⟩ | ⟨hcalled, hdraining, w, hw, hpc, hC, hle⟩
      · exact Or.inl ⟨hcalled.trans hcount, fun k ↦ (hle k).trans (hlog k)⟩
      · refine Or.inr ⟨hcalled.trans (congrArg (· + 1) hcount), hdraining, w, hw, hpc,
          fun C hall ↦ hC C (hall.2 v hv), fun k ↦ (hle k).trans ?_⟩
        exact Nat.add_le_add_right (hlog k) _

/-- No waker of a task that is gone has its flag set for the index. -/
def NoneStale (k : ℕ) (s : Overlapping V) : Prop := ∀ w, s.Gone w k → s.ex.asleep w = true

/-- Without stale wakers an index waits at most once. -/
theorem TurnInv.waiting_le_one (h : TurnInv s) (hfirst : ∀ w key, s.pc.hand ≠ .first w key)
    (hk : k ≠ MAIN_TASK_ID) (hstale : NoneStale k s) : s.ex.waiting s.pc k ≤ 1 := by
  have hcounted := h.queue.ledger.counted k hk
  have hflagged := h.queue.flagged_le_one hfirst hk hstale
  rw [Executor.waiting]
  omega

theorem TurnInv.due_le_one (h : TurnInv s) (hk : k ≠ MAIN_TASK_ID) (hstale : NoneStale k s) :
    s.ex.due s.pc k ≤ 1 := by
  by_cases hfirst : ∀ w key, s.pc.hand ≠ .first w key
  · exact (Executor.due_le_waiting _ _ _).trans (h.waiting_le_one hfirst hk hstale)
  · -- the first poll of a task is outside `poll_tasks`
    have hidle : s.pc.draining = .idle := by
      cases hpc : s.pc
      case popped | drain | pollTask | readyTask | dropTask =>
        exact absurd (by simp [hpc, Pc.hand]) hfirst
      all_goals rfl
    rw [Executor.due_of_idle hidle]
    exact Nat.zero_le 1

/-- **No task starves.** In every run of the executor, with any tasks and any number of `run`
futures, take a task of the slab whose id is in the wake queue, and go on for as long as no new
`run` future resets the queue and the task is neither polled nor gone from its slot. Until then at
most one call of `poll_tasks` starts, and it is not over: the call that starts next polls the task.
And until then every index is polled at most twice, whatever its task wakes, as long as no waker of
a task that is gone has its flag set for it. -/
theorem no_task_starves {as : List (Act V)} (hreach : (machine V).run init as = some s)
    (hget : s.ex.tasks.get key = some task) (hqueued : s.ex.queue.Has key)
    (hkeeps : (machine V).AllSteps KeepsQueue s bs)
    (hrun : (turns V).run ⟨s, fun _ ↦ []⟩ bs = some u)
    (hslot : u.state.ex.tasks.get key = some task) (hpolled : .polled key ∉ u.log ()) :
    (u.log ()).count .called ≤ 1 ∧
    ((u.log ()).count .called = 1 → u.state.pc.draining ≠ .idle) ∧
    ∀ k, k ≠ MAIN_TASK_ID → (machine V).AllSteps (fun v _ ↦ NoneStale k v) s bs →
      (u.log ()).count (.polled k) ≤ 2 := by
  have hinv := turnInv_of_run hreach
  have hwaiting : 0 < s.ex.waiting s.pc key :=
    (Executor.queued_pos_iff.2 hqueued).trans_le (Nat.le_add_right _ _)
  have htwice : ∀ k, k ≠ MAIN_TASK_ID → (machine V).AllSteps (fun v _ ↦ NoneStale k v) s bs →
      (u.log ()).count (.polled k) ≤ s.ex.due s.pc k + 1 → (u.log ()).count (.polled k) ≤ 2 := by
    intro k hk hstale hle
    cases bs with
    | nil =>
      obtain rfl := Option.some.inj hrun
      exact Nat.zero_le 2
    | cons a bs => exact hle.trans (Nat.add_le_add_right (hinv.due_le_one hk hstale.1) 1)
  rcases TurnInv.of_waiting (x := ⟨s, fun _ ↦ []⟩) hinv hget hwaiting hkeeps hrun hslot hpolled with
    ⟨hcalled, hle⟩ | ⟨hcalled, hdraining, v, hv, hpc, hsteps, hle⟩
  · have hcalled : (u.log ()).count .called = 0 := hcalled
    refine ⟨hcalled ▸ Nat.zero_le 1, fun hone ↦ absurd (hcalled.symm.trans hone) (by simp), ?_⟩
    intro k hk hstale
    have hle : (u.log ()).count (.polled k) ≤ 0 + s.ex.due s.pc k := hle k
    exact htwice k hk hstale (by omega)
  · have hcalled : (u.log ()).count .called = 0 + 1 := hcalled
    refine ⟨hcalled.le, fun _ ↦ hdraining, fun k hk hstale ↦ htwice k hk hstale ?_⟩
    have hle : (u.log ()).count (.polled k) ≤ 0 + s.ex.due s.pc k + v.ex.queued k := hle k
    -- what the call finds in the queue
    obtain ⟨-, hstale⟩ := hsteps _ hstale
    have hone := hv.waiting_le_one (by simp [hpc, Pc.hand]) hk hstale
    rw [Executor.waiting] at hone
    omega

/-- Two tasks are pending in their slots. The first is woken, and a call of `poll_tasks` starts;
then the second is woken. -/
def lateWake : List (Act Unit) :=
  List.flatten [toMain,
    [.ex .spawn, .ex .spawn, .run (.ret none), .run .tick, .run .tick, .run (.firstPoll 0),
      .run (.ret none), .run .tick, .run (.firstPoll 1), .run (.ret none), .run .tick],
    [.ex (.wake 1 false), .ex (.push 0), .ex (.fire 0), .poll 0 7, .run .tick, .run .tick],
    [.ex (.wake 2 false), .ex (.push 0), .ex (.fire 0)]]

/-- The first task wakes itself whenever it is polled, so it is polled in the call that is under way
and in the next one. -/
def wakesItself : List (Act Unit) :=
  [.run .tick, .run .tick, .ex (.wake 1 true), .ex (.push 0), .ex (.fire 0), .run (.ret none),
    .run .tick, .run .tick, .run .tick, .run .tick, .poll 0 7, .run .tick, .run .tick, .run .tick,
    .run .tick, .ex (.wake 1 true), .ex (.push 0), .ex (.fire 0), .run (.ret none), .run .tick]

theorem no_task_starves_wakesItself :
    ∃ s u, (machine Unit).run init lateWake = some s ∧
      (turns Unit).run ⟨s, fun _ ↦ []⟩ wakesItself = some u ∧
      u.log () = [.polled 0, .called, .polled 0] ∧ s.ex.queue.Has 1 ∧
      (u.log ()).count .called ≤ 1 ∧ u.state.pc.draining ≠ .idle ∧
      (u.log ()).count (.polled 0) ≤ 2 := by
  obtain ⟨s, hrun, hget, hhas, u, hu, hlog, hslot, hkeeps, hslots⟩ : ∃ s,
      (machine Unit).run init lateWake = some s ∧ s.ex.tasks.get 1 = some ⟨0, 2⟩ ∧
      s.ex.queue.Has 1 ∧ ∃ u, (turns Unit).run ⟨s, fun _ ↦ []⟩ wakesItself = some u ∧
        u.log () = [.polled 0, .called, .polled 0] ∧ u.state.ex.tasks.get 1 = some ⟨0, 2⟩ ∧
        (machine Unit).AllSteps KeepsQueue s wakesItself ∧
        (machine Unit).AllSteps (fun v _ ↦ v.ex.taskIds = [MAIN_TASK_ID, 0, 1] ∧
          (v.ex.tasks.get 0).map Task.waker = some 1) s wakesItself := by
    refine ⟨_, rfl, rfl, Or.inr ?_, _, rfl, rfl, rfl, ?_, ?_⟩
    · decide
    · decide
    · decide
  have hstale : (machine Unit).AllSteps (fun v _ ↦ NoneStale 0 v) s wakesItself := by
    refine Machine.AllSteps.imp (I := fun _ ↦ True) (fun _ _ _ _ _ _ ↦ trivial) ?_ trivial hslots
    rintro v - - ⟨hids, hget⟩ w hgone
    obtain ⟨task, hget, hw⟩ := Option.map_eq_some_iff.1 hget
    -- the only waker for the index is that of the task in the slab
    have hmade := hgone.made
    rw [hids] at hmade
    rcases w with - | - | - | w
    · exact absurd hmade (by decide)
    · exact absurd hw (hgone.slab 0 task hget)
    · exact absurd hmade (by decide)
    · exact absurd hmade (by simp)
  obtain ⟨hcalled, hdraining, hcount⟩ :=
    no_task_starves hrun hget hhas hkeeps hu hslot (by rw [hlog]; decide)
  exact ⟨s, u, hrun, hu, hlog, hhas, hcalled, hdraining (by rw [hlog]; decide),
    hcount 0 (by decide) hstale⟩

end Overlapping

end LocalRuntime
