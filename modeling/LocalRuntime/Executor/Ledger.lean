import LocalRuntime.Executor.PollTasks
import LocalRuntime.Executor.Wakeups
import LocalRuntime.Lib.Count

/-!
# The balance of the wake queue

The flag that keeps a `TaskWaker` from pushing twice belongs to the waker, while the queue and the
slab go by the index, which is used again when a task is gone. So an id in the queue may be of a
waker of a task that is gone, and popping it puts another task to sleep whose own id is still on its
way. What holds across all wakers that were ever made is a balance: the ids in the queue, those
about to be pushed and the one that has been popped are at most as many as the wakers for that index
whose flag is set (`Ledger`).

`Traffic` is what a step of any kind can do to the balance; `QueueInv` is the balance in every
reachable state.
-/

namespace LocalRuntime

variable {V : Type}

/-! ### The balance -/

/-- What the thread of the executor has in its hands: an id it has popped, or a task in its first
poll, with its waker and its key. -/
inductive Hand where
  | empty
  | popped (id : ℕ)
  | first (w key : ℕ)

/-- What is in hand at a point of `run`. -/
def Pc.hand : Pc → Hand
  | .popped id _ => .popped id
  | .pollFirst _ w key => .first w key
  | _ => .empty

/-- How often an id is in hand. -/
def Hand.count : Hand → ℕ → ℕ
  | .popped id, k => if id = k then 1 else 0
  | _, _ => 0

namespace Executor

variable {ex ex' : Executor V} {h h' : Hand} {k w : ℕ}

/-- How often an id is in the two queues. -/
def queued (ex : Executor V) (k : ℕ) : ℕ := ex.queue.localIds.count k + ex.queue.concurrent.count k

/-- The task ids of all wakers that were ever made. -/
def taskIds (ex : Executor V) : List ℕ := ex.wakers.map TaskWaker.taskId

/-- The number of wakers with a task id whose flag is set. -/
def flagged (ex : Executor V) (k : ℕ) : ℕ :=
  ex.wakers.countP fun tw ↦ tw.taskId = k ∧ tw.awoken = true

/-- The number of calls of `wake` that are about to push an id. -/
def pushing (ex : Executor V) (k : ℕ) : ℕ :=
  ex.flights.countP fun f ↦ f.phase = .push ∧ ex.taskIds[f.waker]? = some k

/-- **The balance of the wake queue.** -/
structure Ledger (ex : Executor V) (h : Hand) : Prop where
  flights : ∀ f ∈ ex.flights, f.waker < ex.wakers.length
  slab : ∀ key task, ex.tasks.get key = some task → ex.taskIds[task.waker]? = some key
  first : ∀ w key, h = .first w key → ex.taskIds[w]? = some key ∧ ex.tasks.IsVacant key
  counted : ∀ k, k ≠ MAIN_TASK_ID → ex.queued k + ex.pushing k + h.count k ≤ ex.flagged k

/-- **What a step can do to the balance.** -/
inductive Traffic (ex : Executor V) (h : Hand) (ex' : Executor V) (h' : Hand) : Prop where
  /-- Ids and tasks are thrown away. -/
  | quiet (hwakers : ex'.wakers = ex.wakers) (hflights : ex'.flights = ex.flights)
      (hqueued : ∀ k, k ≠ MAIN_TASK_ID → ex'.queued k ≤ ex.queued k)
      (htasks : ∀ key task, ex'.tasks.get key = some task → ex.tasks.get key = some task)
      (hhand : h' = .empty)
  /-- Something happens from outside. -/
  | touch (ht : Touch ex ex') (hhand : h' = h ∨ h' = .empty)
  | pop {id : ℕ} (hwakers : ex'.wakers = ex.wakers) (hflights : ex'.flights = ex.flights)
      (hqueued : ∀ k, ex'.queued k + (if id = k then 1 else 0) = ex.queued k)
      (htasks : ex'.tasks = ex.tasks) (hhand : h' = .popped id)
  /-- The task that was popped is put to sleep. -/
  | sleep {id : ℕ} {task : Task} (hid : h = .popped id) (hget : ex.tasks.get id = some task)
      (hwakers : ex'.wakers = (ex.toSleep task.waker).wakers) (hflights : ex'.flights = ex.flights)
      (hqueue : ex'.queue = ex.queue) (htasks : ex'.tasks = ex.tasks) (hhand : h' = .empty)
  /-- A main future is put to sleep. -/
  | sleepMain {w : ℕ} (hw : ex.taskIds[w]? = some MAIN_TASK_ID)
      (hwakers : ex'.wakers = (ex.toSleep w).wakers) (hflights : ex'.flights = ex.flights)
      (hqueue : ex'.queue = ex.queue) (htasks : ex'.tasks = ex.tasks) (hhand : h' = .empty)
  /-- A waker is made, for a task or for a main future. -/
  | make {key : ℕ} (hwakers : ex'.wakers = ex.wakers ++ [.new key])
      (hflights : ex'.flights = ex.flights)
      (hqueued : ∀ k, k ≠ MAIN_TASK_ID → ex'.queued k ≤ ex.queued k) (htasks : ex'.tasks = ex.tasks)
      (hhand : h' = .first ex.wakers.length key ∧ ex.tasks.IsVacant key ∨ h' = .empty)
  /-- A task is put into the slab after its first poll. -/
  | insert {w key id : ℕ} (hfirst : h = .first w key) (hwakers : ex'.wakers = ex.wakers)
      (hflights : ex'.flights = ex.flights) (hqueue : ex'.queue = ex.queue)
      (htasks : ex'.tasks = ex.tasks.insert key ⟨id, w⟩) (hhand : h' = .empty)

/-! ### What changes a count -/

theorem taskIds_setAwoken (ex : Executor V) (w : ℕ) (b : Bool) :
    (ex.setAwoken w b).taskIds = ex.taskIds := by
  refine List.ext_getElem? fun i ↦ ?_
  rw [taskIds, taskIds, List.getElem?_map, List.getElem?_map, getElem?_setAwoken, Option.map_map]
  congr 1
  funext tw
  show (if w = i then _ else tw : TaskWaker).taskId = tw.taskId
  split <;> rfl

theorem length_taskIds (ex : Executor V) : ex.taskIds.length = ex.wakers.length :=
  List.length_map _

theorem taskIds_congr (hwakers : ex'.wakers = ex.wakers) : ex'.taskIds = ex.taskIds := by
  rw [taskIds, hwakers, taskIds]

theorem taskIds_append {tw : TaskWaker} (hwakers : ex'.wakers = ex.wakers ++ [tw]) :
    ex'.taskIds = ex.taskIds ++ [tw.taskId] := by
  rw [taskIds, hwakers, List.map_append]
  rfl

/-- A flag is stored. -/
theorem flagged_setAwoken {tw : TaskWaker} (hw : ex.wakers[w]? = some tw) (b : Bool) (k : ℕ) :
    (ex.setAwoken w b).flagged k + (if tw.taskId = k ∧ tw.awoken = true then 1 else 0) =
      ex.flagged k + (if tw.taskId = k ∧ b = true then 1 else 0) := by
  have hcount := List.countP_modify_add (p := fun tw ↦ decide (tw.taskId = k ∧ tw.awoken = true)) hw
    fun tw ↦ { tw with awoken := b }
  simp only [decide_eq_true_eq] at hcount
  exact hcount

theorem pushing_congr (hids : ex'.taskIds = ex.taskIds)
    (hflights : ex'.flights = ex.flights) (k : ℕ) : ex'.pushing k = ex.pushing k := by
  rw [pushing, hids, hflights, pushing]

/-- A new waker has no call of `wake` yet. -/
theorem pushing_append {tw : TaskWaker} (hflt : ∀ f ∈ ex.flights, f.waker < ex.wakers.length)
    (hwakers : ex'.wakers = ex.wakers ++ [tw]) (hflights : ex'.flights = ex.flights) (k : ℕ) :
    ex'.pushing k = ex.pushing k := by
  rw [pushing, pushing, hflights]
  refine List.countP_congr fun f hf ↦ ?_
  have hlt : f.waker < ex.taskIds.length := by rw [length_taskIds]; exact hflt f hf
  rw [taskIds_append hwakers, List.getElem?_append_left hlt]

theorem queued_push (q : WakeQueue) (val : ℕ) (b : Bool) (k : ℕ) :
    (q.push val b).localIds.count k + (q.push val b).concurrent.count k =
      q.localIds.count k + q.concurrent.count k + (if val = k then 1 else 0) := by
  cases b with
  | true =>
    show (q.localIds ++ [val]).count k + q.concurrent.count k = _
    rw [List.count_append, List.count_singleton]
    simp only [beq_iff_eq]
    omega
  | false =>
    show q.localIds.count k + (q.concurrent ++ [val]).count k = _
    rw [List.count_append, List.count_singleton]
    simp only [beq_iff_eq]
    omega

/-! ### The balance is kept -/

/-- What is left of the balance when the hand is emptied. -/
theorem Ledger.drop (hl : Ledger ex h) : Ledger ex .empty where
  flights := hl.flights
  slab := hl.slab
  first _ _ heq := absurd heq (by simp)
  counted k hk := (Nat.le_add_right _ _).trans (hl.counted k hk)

/-- The first step of a call of `wake` sets a flag and is about to push. -/
theorem Ledger.claim {id : ℕ} {onLocal : Bool} (hl : Ledger ex h)
    (hw : ex.wakers[w]? = some ⟨id, false⟩) (htasks : ex'.tasks = ex.tasks)
    (hwakers : ex'.wakers = (ex.setAwoken w true).wakers)
    (hflights : ex'.flights = ex.flights ++ [⟨w, .push, onLocal⟩]) (hqueue : ex'.queue = ex.queue) :
    Ledger ex' h := by
  have hids : ex'.taskIds = ex.taskIds :=
    (taskIds_congr hwakers).trans (taskIds_setAwoken ex w true)
  have hid : ex.taskIds[w]? = some id := by rw [taskIds, List.getElem?_map, hw]; rfl
  have hlt : w < ex.wakers.length := (List.getElem?_eq_some_iff.1 hw).1
  have hlen : ex'.wakers.length = ex.wakers.length := by
    rw [← length_taskIds, hids, length_taskIds]
  refine ⟨fun f hf ↦ ?_, ?_, ?_, fun k hk ↦ ?_⟩
  · rw [hflights] at hf
    rcases List.mem_append.1 hf with hf | hf
    · exact (hl.flights f hf).trans_eq hlen.symm
    · rw [List.mem_singleton.1 hf]
      exact hlt.trans_eq hlen.symm
  · rw [htasks, hids]
    exact hl.slab
  · rw [htasks, hids]
    exact hl.first
  · have hpushing : ex'.pushing k = ex.pushing k + (if id = k then 1 else 0) := by
      rw [pushing, hids, hflights, List.countP_append, List.countP_singleton, hid]
      simp [pushing]
    have hflagged : ex'.flagged k = ex.flagged k + (if id = k then 1 else 0) := by
      have hset := flagged_setAwoken hw true k
      have hsame : ex'.flagged k = (ex.setAwoken w true).flagged k := by
        rw [flagged, hwakers, flagged]
      simpa [hsame] using hset
    have hqueued : ex'.queued k = ex.queued k := by rw [queued, hqueue, queued]
    have hcounted := hl.counted k hk
    omega

/-- The second step of a call of `wake` moves the id to the queue. -/
theorem Ledger.push {i : ℕ} {onLocal : Bool} {tw : TaskWaker} (hl : Ledger ex h)
    (hi : ex.flights[i]? = some ⟨w, .push, onLocal⟩) (hw : ex.wakers[w]? = some tw)
    (htasks : ex'.tasks = ex.tasks) (hwakers : ex'.wakers = ex.wakers)
    (hflights : ex'.flights = ex.flights.set i ⟨w, .base, onLocal⟩)
    (hqueue : ex'.queue = ex.queue.push tw.taskId onLocal) : Ledger ex' h := by
  have hids := taskIds_congr hwakers
  have hid : ex.taskIds[w]? = some tw.taskId := by rw [taskIds, List.getElem?_map, hw]; rfl
  refine ⟨fun f hf ↦ ?_, ?_, ?_, fun k hk ↦ ?_⟩
  · rw [hflights] at hf
    rw [hwakers]
    rcases List.mem_or_eq_of_mem_set hf with hf | rfl
    · exact hl.flights f hf
    · exact (List.getElem?_eq_some_iff.1 hw).1
  · rw [htasks, hids]
    exact hl.slab
  · rw [htasks, hids]
    exact hl.first
  · have hpushing := List.countP_set_add
      (p := fun f ↦ decide (f.phase = .push ∧ ex.taskIds[f.waker]? = some k)) hi ⟨w, .base, onLocal⟩
    have hpushing : ex'.pushing k + (if tw.taskId = k then 1 else 0) = ex.pushing k := by
      rw [pushing, pushing, hids, hflights]
      simpa [hid] using hpushing
    have hflagged : ex'.flagged k = ex.flagged k := by rw [flagged, hwakers, flagged]
    have hqueued : ex'.queued k = ex.queued k + (if tw.taskId = k then 1 else 0) := by
      rw [queued, hqueue, queued_push, queued]
    have hcounted := hl.counted k hk
    omega

/-- The last step of a call of `wake` is not counted any more. -/
theorem Ledger.fire {i : ℕ} {onLocal : Bool} (hl : Ledger ex h)
    (hi : ex.flights[i]? = some ⟨w, .base, onLocal⟩) (htasks : ex'.tasks = ex.tasks)
    (hwakers : ex'.wakers = ex.wakers) (hflights : ex'.flights = ex.flights.eraseIdx i)
    (hqueued : ∀ k, ex'.queued k = ex.queued k) : Ledger ex' h := by
  have hids := taskIds_congr hwakers
  refine ⟨fun f hf ↦ ?_, ?_, ?_, fun k hk ↦ ?_⟩
  · rw [hflights] at hf
    rw [hwakers]
    exact hl.flights f (List.mem_of_mem_eraseIdx hf)
  · rw [htasks, hids]
    exact hl.slab
  · rw [htasks, hids]
    exact hl.first
  · have hpushing := List.countP_eraseIdx_add
      (p := fun f ↦ decide (f.phase = .push ∧ ex.taskIds[f.waker]? = some k)) hi
    have hpushing : ex'.pushing k = ex.pushing k := by
      rw [pushing, pushing, hids, hflights]
      simpa using hpushing
    have hflagged : ex'.flagged k = ex.flagged k := by rw [flagged, hwakers, flagged]
    rw [hqueued, hpushing, hflagged]
    exact hl.counted k hk

/-- A step that leaves the wakers and their calls alone, and the queue no longer than before. -/
theorem Ledger.shrink (hl : Ledger ex h) (hwakers : ex'.wakers = ex.wakers)
    (hflights : ex'.flights = ex.flights)
    (hslab : ∀ key task, ex'.tasks.get key = some task → ex.taskIds[task.waker]? = some key)
    (hfirst : ∀ w key, h' = .first w key → ex.taskIds[w]? = some key ∧ ex'.tasks.IsVacant key)
    (hcount : ∀ k, k ≠ MAIN_TASK_ID → ex'.queued k + h'.count k ≤ ex.queued k + h.count k) :
    Ledger ex' h' := by
  have hids := taskIds_congr hwakers
  refine ⟨?_, by rwa [hids], by rwa [hids], fun k hk ↦ ?_⟩
  · rw [hflights, hwakers]
    exact hl.flights
  · rw [pushing_congr hids hflights,
      show ex'.flagged k = ex.flagged k by rw [flagged, hwakers, flagged]]
    have hcounted := hl.counted k hk
    have := hcount k hk
    omega

theorem Ledger.touch (hl : Ledger ex h) (ht : Touch ex ex') : Ledger ex' h := by
  cases ht
  case same htasks hwakers hflights hqueue =>
    refine hl.shrink hwakers hflights (by rw [htasks]; exact hl.slab)
      (by rw [htasks]; exact hl.first) fun k _ ↦ ?_
    rw [queued, hqueue, queued]
  case claim hw htasks hwakers hflights hqueue => exact hl.claim hw htasks hwakers hflights hqueue
  case push hi hw htasks hwakers hflights hqueue =>
    exact hl.push hi hw htasks hwakers hflights hqueue
  case fire hi htasks hwakers hflights hqueue =>
    exact hl.fire hi htasks hwakers hflights fun k ↦ by rw [queued, hqueue, queued]
  case hear htasks hwakers hflights hqueue =>
    refine hl.shrink hwakers hflights (by rw [htasks]; exact hl.slab)
      (by rw [htasks]; exact hl.first) fun k _ ↦ ?_
    rw [queued, hqueue, queued]

/-- A flag is cleared: that of the task whose id was popped, or that of a main future. -/
theorem Ledger.sleep {id : ℕ} (hl : Ledger ex h) (hw : ex.taskIds[w]? = some id)
    (hwakers : ex'.wakers = (ex.toSleep w).wakers) (hflights : ex'.flights = ex.flights)
    (hqueue : ex'.queue = ex.queue) (htasks : ex'.tasks = ex.tasks)
    (hhand : id = MAIN_TASK_ID ∨ h = .popped id) : Ledger ex' .empty := by
  have hids : ex'.taskIds = ex.taskIds :=
    (taskIds_congr hwakers).trans (taskIds_setAwoken ex w false)
  have hlen : ex'.wakers.length = ex.wakers.length := by
    rw [← length_taskIds, hids, length_taskIds]
  refine ⟨?_, by rw [htasks, hids]; exact hl.slab, fun _ _ heq ↦ absurd heq (by simp),
    fun k hk ↦ ?_⟩
  · rw [hflights, hlen]
    exact hl.flights
  · obtain ⟨tw, htw, rfl⟩ := Option.map_eq_some_iff.1 ((List.getElem?_map ..).symm.trans hw)
    have hflagged : ex.flagged k ≤ ex'.flagged k + (if tw.taskId = k then 1 else 0) := by
      have hset := flagged_setAwoken htw false k
      have hsame : ex'.flagged k = (ex.setAwoken w false).flagged k := by
        rw [flagged, hwakers, flagged]
        rfl
      have hle : (if tw.taskId = k ∧ tw.awoken = true then 1 else 0) ≤
          if tw.taskId = k then 1 else 0 := by
        split <;> split <;> simp_all
      simp only [Bool.false_eq_true, and_false, if_false] at hset
      omega
    have hcounted := hl.counted k hk
    have hqueued : ex'.queued k = ex.queued k := by rw [queued, hqueue, queued]
    rw [hqueued, pushing_congr hids hflights]
    show ex.queued k + ex.pushing k + 0 ≤ _
    rcases hhand with hmain | rfl
    · rw [if_neg (by rw [hmain]; exact hk.symm)] at hflagged
      omega
    · have hhand : (Hand.popped tw.taskId).count k = if tw.taskId = k then 1 else 0 := rfl
      omega

/-- A waker is made, with a clear flag. -/
theorem Ledger.make {key : ℕ} (hl : Ledger ex h) (hwakers : ex'.wakers = ex.wakers ++ [.new key])
    (hflights : ex'.flights = ex.flights)
    (hqueued : ∀ k, k ≠ MAIN_TASK_ID → ex'.queued k ≤ ex.queued k) (htasks : ex'.tasks = ex.tasks)
    (hhand : h' = .first ex.wakers.length key ∧ ex.tasks.IsVacant key ∨ h' = .empty) :
    Ledger ex' h' := by
  have hids : ex'.taskIds = ex.taskIds ++ [key] := taskIds_append hwakers
  have hold : ∀ {w k : ℕ}, ex.taskIds[w]? = some k → ex'.taskIds[w]? = some k := by
    intro w k hw
    rw [hids, List.getElem?_append_left (List.getElem?_eq_some_iff.1 hw).1, hw]
  refine ⟨fun f hf ↦ ?_, fun k task hget ↦ ?_, fun w k heq ↦ ?_, fun k hk ↦ ?_⟩
  · rw [hflights] at hf
    rw [hwakers, List.length_append]
    exact (hl.flights f hf).trans_le (Nat.le_add_right _ _)
  · rw [htasks] at hget
    exact hold (hl.slab k task hget)
  · rcases hhand with ⟨rfl, hvacant⟩ | rfl
    · cases heq
      rw [htasks, hids, ← length_taskIds, List.getElem?_append_right (Nat.le_refl _), Nat.sub_self]
      exact ⟨rfl, hvacant⟩
    · cases heq
  · have hflagged : ex'.flagged k = ex.flagged k := by
      rw [flagged, hwakers, List.countP_append]
      simp [flagged, TaskWaker.new]
    have hcount : h'.count k = 0 := by
      rcases hhand with ⟨rfl, -⟩ | rfl
      · rfl
      · rfl
    rw [pushing_append hl.flights hwakers hflights, hflagged, hcount]
    have := hqueued k hk
    have := hl.counted k hk
    omega

/-- **Every step keeps the balance.** -/
theorem Ledger.step (hl : Ledger ex h) (ht : Traffic ex h ex' h') : Ledger ex' h' := by
  cases ht
  case quiet hwakers hflights hqueued htasks hhand =>
    subst hhand
    refine hl.shrink hwakers hflights (fun key task hget ↦ hl.slab key task (htasks key task hget))
      (fun _ _ heq ↦ absurd heq (by simp)) fun k hk ↦ ?_
    exact (hqueued k hk).trans (Nat.le_add_right _ _)
  case touch ht hhand =>
    rcases hhand with rfl | rfl
    · exact hl.touch ht
    · exact (hl.touch ht).drop
  case pop id hwakers hflights hqueued htasks hhand =>
    subst hhand
    refine hl.shrink hwakers hflights (by rw [htasks]; exact hl.slab)
      (fun _ _ heq ↦ absurd heq (by simp)) fun k hk ↦ ?_
    rw [← hqueued k]
    exact Nat.le_add_right _ _
  case sleep id task hid hget hwakers hflights hqueue htasks hhand =>
    subst hhand
    exact hl.sleep (hl.slab id task hget) hwakers hflights hqueue htasks (Or.inr hid)
  case sleepMain w hw hwakers hflights hqueue htasks hhand =>
    subst hhand
    exact hl.sleep hw hwakers hflights hqueue htasks (Or.inl rfl)
  case make hwakers hflights hqueued htasks hhand =>
    exact hl.make hwakers hflights hqueued htasks hhand
  case insert w key id hfirst hwakers hflights hqueue htasks hhand =>
    subst hhand
    obtain ⟨hw, hvacant⟩ := hl.first w key hfirst
    refine hl.shrink hwakers hflights (fun k task hget ↦ ?_) (fun _ _ heq ↦ absurd heq (by simp))
      fun k _ ↦ ?_
    · rw [htasks, Slab.get_insert hvacant] at hget
      split at hget
      next heq =>
        obtain rfl := Option.some.inj hget
        rw [heq]
        exact hw
      next => exact hl.slab k task hget
    · rw [queued, hqueue, queued]
      exact Nat.le_add_right _ _

/-! ### The steps of `run` -/

/-- **What a step of `run` does to the balance.** -/
theorem Trans.traffic {r r' : Run} (ht : ex.Trans r ex' r')
    (hmain : ex.taskIds[r.mainWaker]? = some MAIN_TASK_ID) :
    Traffic ex r.pc.hand ex' r'.pc.hand := by
  have hsame : ∀ {ex' : Executor V} {h' : Hand}, ex'.wakers = ex.wakers → ex'.flights = ex.flights →
      ex'.queue.localIds = ex.queue.localIds → ex'.queue.concurrent = ex.queue.concurrent →
      ex'.tasks = ex.tasks → h' = .empty → Traffic ex r.pc.hand ex' h' := by
    intro ex' h' hwakers hflights hlocal hcon htasks hhand
    refine .quiet hwakers hflights (fun k _ ↦ ?_) (fun key task hget ↦ htasks ▸ hget) hhand
    rw [queued, hlocal, hcon, queued]
  cases ht
  case resetPop id rest hpc hq =>
    refine .quiet rfl rfl (fun k _ ↦ ?_) (fun _ _ hget ↦ hget) (by rw [hpc]; rfl)
    show ex.queue.localIds.count k + rest.count k ≤ ex.queued k
    rw [queued, hq, List.count_cons]
    omega
  case popLocal id rest hpc hq =>
    refine .pop rfl rfl (fun k ↦ ?_) rfl rfl
    show rest.count k + ex.queue.concurrent.count k + _ = ex.queued k
    rw [queued, hq, List.count_cons]
    simp only [beq_iff_eq]
    omega
  case popConcurrent id rest hpc hq =>
    refine .pop rfl rfl (fun k ↦ ?_) rfl rfl
    show ex.queue.localIds.count k + rest.count k + _ = ex.queued k
    rw [queued, hq, List.count_cons]
    simp only [beq_iff_eq]
    omega
  case removeCancelled | removeReady =>
    refine .quiet rfl rfl (fun _ _ ↦ Nat.le_refl _) (fun key task hget ↦ ?_) rfl
    exact (Option.ite_none_left_eq_some.1 (Slab.get_remove _ _ _ ▸ hget)).2
  case clear =>
    exact .quiet rfl rfl (fun _ _ ↦ Nat.le_refl _) (fun key task hget ↦ absurd hget (by simp)) rfl
  case sleepTask id d task hpc hid hget _ =>
    exact .sleep (by rw [hpc]; rfl) hget rfl rfl rfl rfl rfl
  case sleepMain hpc => exact .sleepMain hmain rfl rfl rfl rfl rfl
  case firstPoll task key hpc hvacant hkey =>
    exact .make rfl rfl (fun _ _ ↦ Nat.le_refl _) rfl (Or.inl ⟨rfl, hvacant⟩)
  case pendingFirst task w key hpc => exact .insert (by rw [hpc]; rfl) rfl rfl rfl rfl rfl
  case readyTask task v _ _ => exact .touch (touch_complete ex task.id v) (Or.inr rfl)
  case readyFirst task _ _ v _ => exact .touch (touch_complete ex task.id v) (Or.inr rfl)
  case borrowTasks | borrowSpawned | unwrap | mainTaskId =>
    exact .touch (.same rfl rfl rfl rfl) (Or.inl rfl)
  all_goals exact hsame rfl rfl rfl rfl rfl rfl

/-- A waker stands for the same task ever after. -/
theorem Traffic.taskIds (ht : Traffic ex h ex' h') (hw : ex.taskIds[w]? = some k) :
    ex'.taskIds[w]? = some k := by
  cases ht
  case touch ht _ =>
    cases ht
    case claim v _ _ _ _ hwakers _ _ =>
      rw [(taskIds_congr hwakers).trans (taskIds_setAwoken ex v true), hw]
    all_goals rw [taskIds_congr ‹ex'.wakers = ex.wakers›, hw]
  case sleep task _ _ hwakers _ _ _ _ =>
    rw [(taskIds_congr hwakers).trans (taskIds_setAwoken ex task.waker false), hw]
  case sleepMain v _ hwakers _ _ _ _ =>
    rw [(taskIds_congr hwakers).trans (taskIds_setAwoken ex v false), hw]
  case make hwakers _ _ _ _ =>
    have hlt := (List.getElem?_eq_some_iff.1 hw).1
    rw [taskIds_append hwakers, List.getElem?_append_left hlt, hw]
  all_goals rw [taskIds_congr ‹ex'.wakers = ex.wakers›, hw]

end Executor

/-! ### Every step of the executor -/

theorem Pc.hand_of_main {pc : Pc} (h : pc = .pollMain ∨ pc = .dropMain ∨ pc = .created) :
    pc.hand = .empty := by
  obtain rfl | rfl | rfl := h <;> rfl

theorem Pc.hand_of_isIdle {pc : Pc} (h : pc.isIdle = true) : pc.hand = .empty := by
  cases pc
  case created | pending | done => rfl
  all_goals cases h

namespace Overlapping

variable {s t : Overlapping V} {a : Act V}

/-- The balance, with the wakers of the main futures. -/
structure QueueInv (s : Overlapping V) : Prop where
  ledger : s.ex.Ledger s.pc.hand
  mains : ∀ r ∈ s.stack ++ s.idle, r.pc ≠ .created →
    s.ex.taskIds[r.mainWaker]? = some MAIN_TASK_ID
  enclosing : ∀ r ∈ s.stack.tail, r.pc = .pollMain ∨ r.pc = .dropMain

theorem hand_settle (ex' : Executor V) (idle : List Run) {rest : List Run} (r' : Run)
    (henclosing : ∀ r ∈ rest, r.pc = .pollMain ∨ r.pc = .dropMain) :
    (settle ex' idle rest r').pc.hand = r'.pc.hand := by
  obtain hpc | ⟨hidle, hpc⟩ := pc_settle ex' idle r' henclosing
  · rw [hpc]
  · rw [Pc.hand_of_main hpc, Pc.hand_of_isIdle hidle]

/-- **What any step does to the balance.** -/
theorem QueueInv.traffic (h : QueueInv s) (hs : s.step a = some t) :
    Executor.Traffic s.ex s.pc.hand t.ex t.pc.hand := by
  cases step_cases hs
  case newRun | dropRun => exact .touch (.same rfl rfl rfl rfl) (Or.inl rfl)
  case poll i cx r r' ex' hr hcan hbegin =>
    have hhand := Pc.hand_of_main (pc_of_canPoll hcan)
    rw [hhand]
    obtain ⟨-, rfl, rfl⟩ | ⟨-, rfl, rfl⟩ := Executor.beginPoll_cases hbegin
    · -- the first poll throws the local ids away
      refine .make rfl rfl (fun k hk ↦ ?_) rfl (Or.inr rfl)
      show [MAIN_TASK_ID].count k + s.ex.queue.concurrent.count k ≤ s.ex.queued k
      rw [List.count_singleton, if_neg (by simpa using hk.symm), Nat.zero_add]
      exact Nat.le_add_left _ _
    · exact .touch (.same rfl rfl rfl rfl) (Or.inl rfl)
  case run b r r' rest ex' hstack hstep =>
    have hpc : s.pc = r.pc := pc_of_stack hstack
    have henclosing := h.enclosing
    rw [hstack, List.tail_cons] at henclosing
    have htrans := Executor.trans_of_runStep hstep
    have hmain := h.mains r (by rw [hstack]; exact List.mem_cons_self) htrans.ne_created
    rw [hpc, hand_settle ex' s.idle r' henclosing, ex_settle]
    exact htrans.traffic hmain
  case ex b ex' hact _ => exact .touch (Executor.touch_of_act hact) (Or.inl rfl)

theorem QueueInv.init : QueueInv (init : Overlapping V) where
  ledger := by
    refine ⟨?_, ?_, ?_, fun k _ ↦ Nat.le_refl _⟩
    · exact fun f hf ↦ absurd hf List.not_mem_nil
    · exact fun key task hget ↦ absurd hget (by simp [Overlapping.init, Executor.new])
    · exact fun w key heq ↦ absurd heq (by simp [Overlapping.init, pc, Pc.hand])
  mains r hr := absurd hr (by simp [Overlapping.init])
  enclosing r hr := absurd hr (by simp [Overlapping.init])

theorem QueueInv.mains_step (h : QueueInv s) (hs : s.step a = some t) :
    ∀ r ∈ t.stack ++ t.idle, r.pc ≠ .created → t.ex.taskIds[r.mainWaker]? = some MAIN_TASK_ID := by
  have htraffic := h.traffic hs
  have hkeep : ∀ r ∈ s.stack ++ s.idle, r.pc ≠ .created →
      t.ex.taskIds[r.mainWaker]? = some MAIN_TASK_ID :=
    fun r hr hpc ↦ htraffic.taskIds (h.mains r hr hpc)
  cases step_cases hs
  case newRun =>
    intro r hr hpc
    rcases List.mem_append.1 hr with hr | hr
    · exact hkeep r (List.mem_append_left _ hr) hpc
    · rcases List.mem_append.1 hr with hr | hr
      · exact hkeep r (List.mem_append_right _ hr) hpc
      · rw [List.mem_singleton.1 hr] at hpc
        exact absurd rfl hpc
  case dropRun i =>
    intro r hr hpc
    rcases List.mem_append.1 hr with hr | hr
    · exact hkeep r (List.mem_append_left _ hr) hpc
    · exact hkeep r (List.mem_append_right _ (List.mem_of_mem_eraseIdx hr)) hpc
  case poll i cx r r' ex' hr hcan hbegin =>
    intro r₁ hr₁ hpc₁
    rcases List.mem_append.1 hr₁ with hr₁ | hr₁
    · rcases List.mem_cons.1 hr₁ with rfl | hr₁
      · obtain ⟨-, rfl, rfl⟩ | ⟨hpending, rfl, rfl⟩ := Executor.beginPoll_cases hbegin
        · simp [Executor.taskIds, TaskWaker.new]
        · exact hkeep r (List.mem_append_right _ (List.mem_of_getElem? hr)) (by rw [hpending]; simp)
      · exact hkeep r₁ (List.mem_append_left _ hr₁) hpc₁
    · exact hkeep r₁ (List.mem_append_right _ (List.mem_of_mem_eraseIdx hr₁)) hpc₁
  case run b r r' rest ex' hstack hstep =>
    have htrans := Executor.trans_of_runStep hstep
    have hr' : (settle ex' s.idle rest r').ex.taskIds[r'.mainWaker]? = some MAIN_TASK_ID := by
      rw [htrans.mainWaker_eq]
      exact hkeep r (by rw [hstack]; exact List.mem_cons_self) htrans.ne_created
    have hmem : ∀ r₁ ∈ (settle ex' s.idle rest r').stack ++ (settle ex' s.idle rest r').idle,
        r₁ = r' ∨ r₁ ∈ s.stack ++ s.idle := by
      intro r₁ hr₁
      rw [settle] at hr₁
      rw [hstack]
      split at hr₁
      · simp only [List.mem_append, List.mem_singleton] at hr₁
        simp only [List.cons_append, List.mem_cons, List.mem_append]
        tauto
      · simp only [List.cons_append, List.mem_cons, List.mem_append] at hr₁ ⊢
        tauto
    intro r₁ hr₁ hpc₁
    rcases hmem r₁ hr₁ with rfl | hr₁
    · exact hr'
    · exact hkeep r₁ hr₁ hpc₁
  case ex => exact hkeep

/-- **Every step keeps the balance, and the wakers of the main futures.** -/
theorem QueueInv.step (h : QueueInv s) (hs : s.step a = some t) : QueueInv t where
  ledger := h.ledger.step (h.traffic hs)
  mains := h.mains_step hs
  enclosing := enclosing_step h.enclosing hs

theorem queueInv_of_run {as : List (Act V)} (hrun : (machine V).run .init as = some s) :
    QueueInv s :=
  Machine.run_preserves (M := machine V) (fun _ _ _ h hs ↦ h.step hs) QueueInv.init hrun

end Overlapping

end LocalRuntime
