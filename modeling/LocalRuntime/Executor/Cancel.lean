import LocalRuntime.Executor.BaseWaker
import LocalRuntime.Executor.Histories

/-!
# Cancelling a task

`TaskHandle::cancel` sets a flag and wakes the task through the waker in its handle, once, so that
the next drain finds the id of the task and drops it. For this to work the handle of every task in
the slab must hold the waker of the task until it is cancelled, and the flag of the waker must stay
set from then on (`Armed`): a cancelled task is never put to sleep, and ids and wakers of tasks that
are gone do not get in the way.

What the flag is worth depends on the wake queue. If another thread is between the compare-exchange
and the push of a wake of the same task, `cancel` finds the flag set and pushes nothing, and a drain
that starts before the push does not see the task (`cancelDuringWake_survives`). With that one
exception, a drain drops every task of the slab that is cancelled when it starts (`Ahead`).
-/

namespace LocalRuntime

open Roster

variable {V : Type}

/-! ### The flag of a cancelled task -/

namespace Executor

variable {ex ex' : Executor V} {r r' : Run} {id w : ℕ}

/-- The flag of a waker is set. -/
def Awoken (ex : Executor V) (w : ℕ) : Prop := ∃ tw, ex.wakers[w]? = some tw ∧ tw.awoken = true

/-- A task with this waker can be woken through its handle, unless it is cancelled; then its flag is
set. -/
structure Armed (ex : Executor V) (id w : ℕ) : Prop where
  awoken : ex.isCancelled id = true → ex.Awoken w
  handle : ex.isCancelled id = false → ex.handles[id]?.bind HandleData.waker = some w

/-- The tasks of the slab and the one in its first poll are armed. -/
structure CancelInv (ex : Executor V) (run : Option Run) : Prop where
  tasks : ∀ key task, ex.tasks.get key = some task → ex.Armed task.id task.waker
  first : ∀ r task w key, run = some r → r.pc = .pollFirst task w key → ex.Armed task.id w

/-- What is done from outside clears no flag. -/
theorem Awoken.touch (h : ex.Awoken w) (ht : Touch ex ex') : ex'.Awoken w := by
  obtain ⟨tw, hw, hawoken⟩ := h
  cases ht
  case claim v _ _ _ _ hwakers _ _ =>
    rw [Awoken, hwakers, getElem?_setAwoken, hw]
    refine ⟨_, rfl, ?_⟩
    split
    · rfl
    · exact hawoken
  all_goals exact ⟨tw, by rw [‹ex'.wakers = _›, hw], hawoken⟩

theorem Awoken.append {tws : List TaskWaker} (h : ex.Awoken w)
    (hwakers : ex'.wakers = ex.wakers ++ tws) : ex'.Awoken w := by
  obtain ⟨tw, hw, hawoken⟩ := h
  refine ⟨tw, ?_, hawoken⟩
  rw [hwakers, List.getElem?_append_left (List.getElem?_eq_some_iff.1 hw).1, hw]

theorem Awoken.toSleep {v : ℕ} (h : ex.Awoken w) (hne : v ≠ w) : (ex.toSleep v).Awoken w := by
  obtain ⟨tw, hw, hawoken⟩ := h
  refine ⟨tw, ?_, hawoken⟩
  rw [Executor.toSleep, getElem?_setAwoken, hw, Option.map_some, if_neg hne]

/-- A wake sets the flag. -/
theorem awoken_wake {tw : TaskWaker} (onLocal : Bool) (hw : ex.wakers[w]? = some tw) :
    (ex.wake w onLocal).Awoken w := by
  rw [wake]
  split
  next hget =>
    refine ⟨{ tw with awoken := true }, ?_, rfl⟩
    show (ex.setAwoken w true).wakers[w]? = _
    rw [getElem?_setAwoken, hw, Option.map_some, if_pos rfl]
  next hne =>
    refine ⟨tw, hw, ?_⟩
    by_contra hclear
    refine hne tw.taskId ?_
    rw [hw, ← Bool.eq_false_iff.2 hclear]

/-- What changes neither the handle nor clears the flag. -/
theorem Armed.mono (h : ex.Armed id w) (hhandle : ex'.handles[id]? = ex.handles[id]?)
    (hawoken : ex.isCancelled id = true → ex.Awoken w → ex'.Awoken w) : ex'.Armed id w := by
  have hcancelled : ex'.isCancelled id = ex.isCancelled id := by
    rw [isCancelled, isCancelled, hhandle]
  refine ⟨fun hc ↦ hawoken (hcancelled ▸ hc) (h.awoken (hcancelled ▸ hc)), fun hc ↦ ?_⟩
  rw [hhandle]
  exact h.handle (hcancelled ▸ hc)

/-- **`cancel` wakes the task**: the handle holds its waker, or the flag is set already. -/
theorem Armed.cancel {tw : TaskWaker} (h : ex.Armed id w) (hw : ex.wakers[w]? = some tw) (hd : ℕ) :
    (ex.cancel hd).Armed id w := by
  obtain ⟨wakers, flights, heq⟩ := exists_cancel_eq ex hd
  have hhandles : (ex.cancel hd).handles = ex.handles.modify hd fun _ ↦ ⟨true, none⟩ := by rw [heq]
  by_cases hid : hd = id
  · obtain rfl := hid
    have hawoken : (ex.cancel hd).Awoken w := by
      rcases hc : ex.isCancelled hd with - | -
      · simp only [Executor.cancel, h.handle hc]
        exact awoken_wake true hw
      · exact (h.awoken hc).touch (touch_cancel ex hd)
    refine ⟨fun _ ↦ hawoken, fun hc ↦ ?_⟩
    have hold := isCancelled_cancel ex hd hd hc
    obtain ⟨data, hdata, -⟩ := Option.bind_eq_some_iff.1 (h.handle hold)
    rw [isCancelled, hhandles, List.getElem?_modify_eq, hdata] at hc
    exact absurd hc (by simp)
  · refine h.mono ?_ fun _ ha ↦ ha.touch (touch_cancel ex hd)
    rw [hhandles, List.getElem?_modify_ne _ _ hid]

/-- A step that leaves the handles alone and clears no flag of a cancelled task that is left. -/
theorem CancelInv.move (h : CancelInv ex (some r)) (hhandles : ex'.handles = ex.handles)
    (htasks : ∀ k task, ex'.tasks.get k = some task → ex.tasks.get k = some task)
    (hawoken : ∀ k task, ex.tasks.get k = some task → ex.isCancelled task.id = true →
      ex.Awoken task.waker → ex'.Awoken task.waker)
    (hfirst : ∀ task w key, r'.pc ≠ .pollFirst task w key) : CancelInv ex' (some r') := by
  refine ⟨fun k task hk ↦ ?_, fun r₁ task w key hr hpc ↦ ?_⟩
  · exact (h.tasks k task (htasks k task hk)).mono (by rw [hhandles])
      (hawoken k task (htasks k task hk))
  · obtain rfl := Option.some.inj hr
    exact absurd hpc (hfirst task w key)

/-- The wakers of tasks in different slots are different. -/
theorem WakeInv.waker_ne {run : Option Run} {k k' : ℕ} {task task' : Task} (h : WakeInv ex run)
    (hk : ex.tasks.get k = some task) (hk' : ex.tasks.get k' = some task') (hne : k ≠ k') :
    task.waker ≠ task'.waker := by
  obtain ⟨-, tw, hw, hid, -⟩ := h.tasks k task hk
  obtain ⟨-, tw', hw', hid', -⟩ := h.tasks k' task' hk'
  intro heq
  rw [heq, hw'] at hw
  exact hne (by rw [← hid, ← hid', Option.some.inj hw])

theorem WakeInv.mainWaker_ne {k : ℕ} {task : Task} (h : WakeInv ex (some r)) (hpc : r.pc ≠ .created)
    (hk : ex.tasks.get k = some task) : r.mainWaker ≠ task.waker := by
  obtain ⟨hmain, tw, hw, hid, -⟩ := h.tasks k task hk
  obtain ⟨tw', hw', hid', -⟩ := h.main r rfl hpc
  intro heq
  rw [heq, hw] at hw'
  exact hmain (by rw [← hid, ← hid', Option.some.inj hw'])

/-- **One step of `run` keeps the tasks armed.** -/
theorem CancelInv.trans (h : CancelInv ex (some r)) (hwake : WakeInv ex (some r))
    (hp : Placed ex.roster r.pc) (ht : ex.Trans r ex' r')
    (hfirst : ∀ task w key, r.pc = .poppedSpawned task → r'.pc = .pollFirst task w key →
      ex.isCancelled task.id = false) : CancelInv ex' (some r') := by
  cases ht
  case removeCancelled | removeReady =>
    refine h.move rfl (fun k task hk ↦ ?_) (fun _ _ _ _ ha ↦ ha) (by simp)
    exact (Option.ite_none_left_eq_some.1 (Slab.get_remove _ _ _ ▸ hk)).2
  case sleepTask id d task hpc _ hget hcancelled =>
    refine h.move rfl (fun _ _ hk ↦ hk) (fun k task' hk hc ha ↦ ?_) (by simp)
    -- only the task that is about to be polled is put to sleep, and it is not cancelled
    refine ha.toSleep (hwake.waker_ne hget hk ?_)
    rintro rfl
    rw [hget] at hk
    rw [← Option.some.inj hk, hcancelled] at hc
    exact absurd hc (by simp)
  case sleepMain hpc =>
    refine h.move rfl (fun _ _ hk ↦ hk) (fun k task hk _ ha ↦ ?_) (by simp)
    exact ha.toSleep (hwake.mainWaker_ne (by simp [hpc]) hk)
  case firstPoll task key hpc _ _ =>
    rw [hpc] at hp
    obtain ⟨hlt, -, hslab⟩ := hp.of_inHand rfl
    refine ⟨fun k task' hk ↦ ?_, fun r₁ task' w key' hr hpc' ↦ ?_⟩
    · have hne : task.id ≠ task'.id := fun heq ↦ hslab (inSlab_iff.2 ⟨k, task', hk, heq.symm⟩)
      refine (h.tasks k task' hk).mono ?_ fun _ ha ↦ ha.append rfl
      exact List.getElem?_modify_ne _ _ hne
    · obtain rfl := Option.some.inj hr
      obtain ⟨rfl, rfl, -⟩ := Pc.pollFirst.inj hpc'
      have hc : (ex.fromSpawned task key).isCancelled task.id = false := by
        refine (isCancelled_setWaker ex.roster task.id ex.wakers.length task.id).trans ?_
        exact hfirst task _ key hpc rfl
      refine ⟨fun hc' ↦ absurd hc' (by simp [hc]), fun _ ↦ ?_⟩
      have hget : ex.handles[task.id]? = some _ := List.getElem?_eq_getElem hlt
      simp only [fromSpawned, List.getElem?_modify_eq, hget]
      rfl
  case pendingFirst task w key hpc =>
    have hvacant := hp.vacant task w key hpc
    refine ⟨fun k task' hk ↦ ?_, fun r₁ task' w key' hr hpc' ↦ ?_⟩
    · rw [show Slab.get (ex.tasks.insert key ⟨task.id, w⟩) k = _
        from Slab.get_insert hvacant _ k] at hk
      split at hk
      · obtain rfl := Option.some.inj hk
        exact (h.first r task w key rfl hpc).mono rfl fun _ ha ↦ ha
      · exact (h.tasks k task' hk).mono rfl fun _ ha ↦ ha
    · obtain rfl := Option.some.inj hr
      exact absurd hpc' (by simp)
  case readyTask | readyFirst =>
    refine h.move (congrArg Roster.handles (roster_complete ex _ _)) (fun k task hk ↦ ?_)
      (fun _ _ _ _ ha ↦ ha.touch (touch_complete ex _ _)) (by simp)
    rwa [show (ex.complete _ _).tasks = ex.tasks
      from congrArg Roster.tasks (roster_complete ex _ _)] at hk
  case clear =>
    exact h.move rfl (fun k task hk ↦ absurd hk (by simp)) (fun _ _ _ _ ha ↦ ha) (by simp)
  case resetPop hpc _ | unwrap hpc _ | mainTaskId hpc =>
    exact h.move rfl (fun _ _ hk ↦ hk) (fun _ _ _ _ ha ↦ ha) (by simp [hpc])
  case borrowTasks hpc _ =>
    refine h.move rfl (fun _ _ hk ↦ hk) (fun _ _ _ _ ha ↦ ha) fun task w key ↦ ?_
    rcases hpc with hpc | hpc | hpc <;> simp [hpc]
  case borrowSpawned hpc _ =>
    refine h.move rfl (fun _ _ hk ↦ hk) (fun _ _ _ _ ha ↦ ha) fun task w key ↦ ?_
    rcases hpc with hpc | hpc <;> simp [hpc]
  all_goals exact h.move rfl (fun _ _ hk ↦ hk) (fun _ _ _ _ ha ↦ ha) (by simp)

/-- **What is done from outside keeps the tasks armed.** -/
theorem CancelInv.act {run : Option Run} {pc : Pc} {a : Act} (h : CancelInv ex run)
    (hwake : WakeInv ex run) (hp : Placed ex.roster pc) (hpc : ∀ r, run = some r → r.pc = pc)
    (ha : ex.act a = some ex') : CancelInv ex' run := by
  have htasks := (touch_of_act ha).tasks_eq
  -- each task has its handle and its waker
  have hslab : ∀ k task, ex.tasks.get k = some task →
      task.id < ex.handles.length ∧ ∃ tw, ex.wakers[task.waker]? = some tw := by
    intro k task hk
    obtain ⟨-, tw, hw, -⟩ := hwake.tasks k task hk
    exact ⟨(hp.of_slab hk).1, tw, hw⟩
  have hfirst : ∀ r task w key, run = some r → r.pc = .pollFirst task w key →
      task.id < ex.handles.length ∧ ∃ tw, ex.wakers[w]? = some tw := by
    intro r task w key hr hpc'
    obtain ⟨-, -, tw, hw, -⟩ := hwake.first r task w key hr hpc'
    have hhand : pc.inHand = some task.id := by
      rw [← hpc r hr, hpc']
      rfl
    exact ⟨(hp.of_inHand hhand).1, tw, hw⟩
  have harmed : ∀ id w, ex.Armed id w → id < ex.handles.length → (∃ tw, ex.wakers[w]? = some tw) →
      ex'.Armed id w := by
    rintro id w harmed hlt ⟨tw, hw⟩
    have hawoken : ex.isCancelled id = true → ex.Awoken w → ex'.Awoken w :=
      fun _ hset ↦ hset.touch (touch_of_act ha)
    rcases a with - | hd | ⟨hd, waker⟩ | ⟨v, onLocal⟩ | i | i | c
    · refine harmed.mono ?_ hawoken
      obtain rfl := Option.some.inj ha
      rw [spawn]
      split
      · rfl
      · exact List.getElem?_append_left hlt
    · obtain rfl := Option.some.inj ha
      exact harmed.cancel hw hd
    · refine harmed.mono ?_ hawoken
      obtain rfl := Option.some.inj ha
      obtain ⟨_, heq⟩ := exists_pollHandle_eq ex hd waker
      rw [heq]
    · refine harmed.mono ?_ hawoken
      obtain rfl := Option.some.inj ha
      rw [show (ex.wake v onLocal).handles = ex.handles
        from congrArg Roster.handles (roster_wake ex v onLocal)]
    · refine harmed.mono ?_ hawoken
      obtain ⟨_, _, _, -, -, rfl⟩ := push_eq_some ha
      rfl
    · refine harmed.mono ?_ hawoken
      obtain ⟨_, _, -, rfl⟩ := fire_eq_some ha
      rfl
    · refine harmed.mono ?_ hawoken
      obtain rfl := Option.some.inj ha
      rfl
  refine ⟨fun k task hk ↦ ?_, fun r task w key hr hpc' ↦ ?_⟩
  · rw [htasks] at hk
    exact harmed _ _ (h.tasks k task hk) (hslab k task hk).1 (hslab k task hk).2
  · obtain ⟨hlt, hw⟩ := hfirst r task w key hr hpc'
    exact harmed _ _ (h.first r task w key hr hpc') hlt hw

/-- The executor polls no task for the first time that is cancelled. -/
theorem isCancelled_of_runStep {a : RunAct V} {task : SpawnedTask} {key : ℕ}
    (hs : ex.runStep r a = some (ex', r')) (hpc : r.pc = .poppedSpawned task)
    (hpc' : r'.pc = .pollFirst task w key) : ex.isCancelled task.id = false := by
  simp only [runStep] at hs
  split at hs
  · rcases a with - | k | out
    · simp only [tick, hpc] at hs
      obtain ⟨-, hs⟩ := Option.ite_none_right_eq_some.1 hs
      obtain ⟨-, rfl⟩ := Prod.mk.inj (Option.some.inj hs)
      exact absurd hpc' (by simp)
    · simp only [firstPoll, hpc] at hs
      exact Bool.eq_false_iff.2 (Option.ite_none_left_eq_some.1 hs).1
    · rcases out with - | v <;> exact absurd hs (by simp [ret, hpc])
  · exact absurd hs (by simp)

end Executor

/-! ### Within one run -/

namespace Single

open Executor

variable {s t : Single V}

/-- One `run` future that started with an empty slab, with armed tasks and their histories. -/
structure ArmedInv (t : Logged (Single V) ℕ (TaskEvent V)) : Prop where
  recorded : Recorded t.state.ex.roster t.state.pc t.log
  running : ∃ r, RunInv t.state r
  armed : CancelInv t.state.ex t.state.run

/-- **One step within a run.** -/
theorem ArmedInv.step {t u : Logged (Single V) ℕ (TaskEvent V)} {a : Act V} (h : ArmedInv t)
    (ha : a ≠ .dropRun) (hs : (recording V).step t a = some u) : ArmedInv u := by
  obtain ⟨v, hv, rfl⟩ := Machine.step_logged_eq_some.1 hs
  replace hv : t.state.step a = some v := hv
  obtain ⟨r, hrun⟩ := h.running
  obtain ⟨r', hrun', -⟩ := hrun.step ha (step_cases hv)
  refine ⟨h.recorded.step (taskStep_of_step h.recorded.placed hv), ⟨r', hrun'⟩, ?_⟩
  have harmed := h.armed
  have hwake := hrun.wakes
  have hp := h.recorded.placed
  cases step_cases hv
  case newRun hnone => exact absurd hrun.run_eq (by simp [hnone])
  case dropRun => exact absurd rfl ha
  case firstPoll r₁ cx hr₁ _ =>
    rw [hr₁] at harmed
    exact harmed.move rfl (fun _ _ hk ↦ hk) (fun _ _ _ _ hset ↦ hset.append rfl) (by simp)
  case poll r₁ cx hr₁ _ =>
    rw [hr₁] at harmed
    exact harmed.move rfl (fun _ _ hk ↦ hk) (fun _ _ _ _ hset ↦ hset) (by simp)
  case run b r₁ r₂ ex' hr₁ htrans =>
    rw [pc_eq hr₁] at hp
    rw [hr₁] at harmed hwake
    exact harmed.trans hwake hp htrans
      fun _ _ _ hpc hpc' ↦ isCancelled_of_runStep (runStep_of_step hv hr₁) hpc hpc'
  case ex b ex' hact _ => exact harmed.act hwake hp (fun r₁ hr₁ ↦ (pc_eq hr₁).symm) hact

theorem ArmedInv.run {t u : Logged (Single V) ℕ (TaskEvent V)} {as : List (Act V)} (h : ArmedInv t)
    (has : Act.dropRun ∉ as) (hrun : (recording V).run t as = some u) : ArmedInv u := by
  refine Machine.run_preserves_of_allSteps (C := fun _ a ↦ a ≠ .dropRun) ?_ h
    (Machine.allSteps_of_forall ?_ t) hrun
  · exact fun _ _ _ hI ha hs ↦ hI.step ha hs
  · exact fun _ a ha hdrop ↦ has (hdrop ▸ ha)

end Single

/-! ### Until the end of a drain -/

/-- The drain will still pop the key. -/
def Drain.Holds (d : Drain) (q : WakeQueue) (key : ℕ) : Prop :=
  key ∈ q.localIds.take d.localLen ∨ key ∈ q.concurrent.take d.conLen

/-- The drain that is about to start or under way will still look at the slot. -/
def Pc.Ahead (q : WakeQueue) (key : ℕ) : Pc → Prop
  | .snapshot => q.Has key
  | .popped id d => id = key ∨ d.Holds q key
  | .drain d | .dropTask d => d.Holds q key
  | .pollTask k d | .readyTask k d => k ≠ key ∧ d.Holds q key
  | _ => False

theorem Drain.Holds.push {d : Drain} {q : WakeQueue} {key : ℕ} (h : d.Holds q key) (val : ℕ)
    (onLocal : Bool) : d.Holds (q.push val onLocal) key := by
  have hmem : ∀ (l : List ℕ) (n : ℕ), key ∈ l.take n → key ∈ (l ++ [val]).take n := by
    intro l n hl
    rw [List.take_append]
    exact List.mem_append_left _ hl
  rw [WakeQueue.push]
  split
  · exact h.imp_left (hmem _ _)
  · exact h.imp_right (hmem _ _)

theorem Drain.Holds.popLocal {n m id key : ℕ} {awoken : Bool} {q : WakeQueue} {rest : List ℕ}
    (h : Drain.Holds ⟨n + 1, m, awoken⟩ q key) (hq : q.localIds = id :: rest) :
    id = key ∨ Drain.Holds ⟨n, m, awoken⟩ { q with localIds := rest } key := by
  rw [Drain.Holds, hq, List.take_succ_cons, List.mem_cons, or_assoc] at h
  exact h.imp_left Eq.symm

theorem Drain.Holds.popConcurrent {n m id key : ℕ} {awoken : Bool} {q : WakeQueue} {rest : List ℕ}
    (h : Drain.Holds ⟨n, m + 1, awoken⟩ q key) (hq : q.concurrent = id :: rest) :
    id = key ∨ Drain.Holds ⟨n, m, awoken⟩ { q with concurrent := rest } key := by
  rw [Drain.Holds, hq, List.take_succ_cons, List.mem_cons, or_left_comm] at h
  exact h.imp_left Eq.symm

/-- A drain that is over holds nothing. -/
theorem Drain.not_holds_of_drained {m key : ℕ} {awoken : Bool} {q : WakeQueue}
    (hq : m = 0 ∨ q.concurrent = []) : ¬ Drain.Holds ⟨0, m, awoken⟩ q key := by
  rintro (hmem | hmem)
  · exact absurd hmem (by simp)
  · rcases hq with rfl | hq
    · exact absurd hmem (by simp)
    · exact absurd hmem (by simp [hq])

theorem Pc.Ahead.push {pc : Pc} {q : WakeQueue} {key : ℕ} (h : pc.Ahead q key) (val : ℕ)
    (onLocal : Bool) : pc.Ahead (q.push val onLocal) key := by
  cases pc
  case snapshot => exact WakeQueue.Has.push h val onLocal
  case popped => exact h.imp_right fun hd ↦ hd.push val onLocal
  case drain | dropTask => exact Drain.Holds.push h val onLocal
  case pollTask | readyTask => exact h.imp_right fun hd ↦ hd.push val onLocal
  all_goals exact h

namespace Executor

variable {ex ex' : Executor V} {r r' : Run} {key : ℕ} {task : Task}

/-- What other code does leaves a slot ahead. -/
theorem ahead_of_touch {pc : Pc} (h : pc.Ahead ex.queue key) (ht : Touch ex ex') :
    pc.Ahead ex'.queue key := by
  have hbase : ∀ baseWaker, pc.Ahead { ex.queue with baseWaker } key := fun _ ↦ h
  cases ht
  case push hqueue => exact hqueue ▸ h.push _ _
  case fire hqueue | hear hqueue => exact hqueue ▸ hbase _
  all_goals exact ‹ex'.queue = _› ▸ h

/-- **One step of `run` with a cancelled task ahead**: it stays ahead, until its id has been
popped. -/
theorem ahead_of_trans (hget : ex.tasks.get key = some task)
    (hcancelled : ex.isCancelled task.id = true) (h : r.pc.Ahead ex.queue key)
    (ht : ex.Trans r ex' r') :
    (∃ d, r.pc = .popped key d) ∨ ex'.tasks.get key = some task ∧ ex'.isCancelled task.id = true ∧
      r'.pc.Ahead ex'.queue key := by
  cases ht
  case snapshot hpc _ =>
    rw [hpc] at h
    exact Or.inr ⟨hget, hcancelled, by simpa [Pc.Ahead, Drain.Holds, WakeQueue.Has] using h⟩
  case popLocal n m awoken id rest hpc hq =>
    rw [hpc] at h
    exact Or.inr ⟨hget, hcancelled, Drain.Holds.popLocal h hq⟩
  case popConcurrent m awoken id rest hpc hq =>
    rw [hpc] at h
    exact Or.inr ⟨hget, hcancelled, Drain.Holds.popConcurrent h hq⟩
  case drained m awoken hpc hq =>
    rw [hpc] at h
    exact absurd h (Drain.not_holds_of_drained hq)
  case poppedMain d hpc =>
    by_cases hk : MAIN_TASK_ID = key
    · exact Or.inl ⟨d, hk ▸ hpc⟩
    · rw [hpc] at h
      exact Or.inr ⟨hget, hcancelled, h.resolve_left hk⟩
  case poppedGone id d hpc _ _ =>
    by_cases hk : id = key
    · exact Or.inl ⟨d, hk ▸ hpc⟩
    · rw [hpc] at h
      exact Or.inr ⟨hget, hcancelled, h.resolve_left hk⟩
  case removeCancelled id d task' hpc _ _ _ =>
    by_cases hk : id = key
    · exact Or.inl ⟨d, hk ▸ hpc⟩
    · rw [hpc] at h
      refine Or.inr ⟨?_, hcancelled, h.resolve_left hk⟩
      show (ex.tasks.remove id).get key = some task
      rw [Slab.get_remove, if_neg (Ne.symm hk), hget]
  case sleepTask id d task' hpc _ _ _ =>
    by_cases hk : id = key
    · exact Or.inl ⟨d, hk ▸ hpc⟩
    · rw [hpc] at h
      exact Or.inr ⟨hget, hcancelled, hk, h.resolve_left hk⟩
  case removeReady k d hpc =>
    rw [hpc] at h
    refine Or.inr ⟨?_, hcancelled, h.2⟩
    show (ex.tasks.remove k).get key = some task
    rw [Slab.get_remove, if_neg (Ne.symm h.1), hget]
  case pendingTask hpc =>
    rw [hpc] at h
    exact Or.inr ⟨hget, hcancelled, h.2⟩
  case droppedTask hpc =>
    rw [hpc] at h
    exact Or.inr ⟨hget, hcancelled, h⟩
  case readyTask k d task' v hpc _ =>
    rw [hpc] at h
    have hroster := roster_complete ex task'.id v
    refine Or.inr ⟨?_, ?_, ?_⟩
    · rw [show (ex.complete task'.id v).tasks = ex.tasks from congrArg Roster.tasks hroster, hget]
    · rw [← hcancelled]
      exact congrArg (fun b : Roster V ↦ b.isCancelled task.id) hroster
    · show (Pc.readyTask k d).Ahead _ key
      exact ahead_of_touch h (touch_complete ex task'.id v)
  case borrowTasks | unwrap => exact Or.inr ⟨hget, hcancelled, h⟩
  case borrowSpawned hpc _ => rcases hpc with hpc | hpc <;> rw [hpc] at h <;> exact h.elim
  -- elsewhere there is no drain
  all_goals
    rw [‹r.pc = _›] at h
    exact h.elim

/-- A task that is cancelled stays so. -/
theorem isCancelled_of_act {a : Act} {id : ℕ} (hact : ex.act a = some ex')
    (hc : ex.isCancelled id = true) : ex'.isCancelled id = true := by
  by_cases ha : a = .spawn
  · rw [ha] at hact
    obtain rfl := Option.some.inj hact
    rw [spawn]
    split
    · exact hc
    · exact (isCancelled_spawn ex.roster id).trans hc
  · obtain ⟨_, _, _, _, _, -, hframe⟩ := frame_of_act hact ha
    by_contra hno
    exact absurd (hframe id (Bool.eq_false_iff.2 hno)) (by simp [hc])

end Executor

namespace Single

open Executor

/-- A cancelled task of the slab has been dropped, or the drain will still look at it. -/
def Doomed (key : ℕ) (task : Task) (t : Logged (Single V) ℕ (TaskEvent V)) : Prop :=
  .dropped ∈ t.log task.id ∨ t.state.ex.tasks.get key = some task ∧
    t.state.ex.isCancelled task.id = true ∧
    ∃ r, t.state.run = some r ∧ r.pc.Ahead t.state.ex.queue key

theorem Doomed.step {key : ℕ} {task : Task} {t u : Logged (Single V) ℕ (TaskEvent V)} {a : Act V}
    (h : Doomed key task t) (hinv : ArmedInv t) (ha : a ≠ .dropRun)
    (hs : (recording V).step t a = some u) : Doomed key task u := by
  obtain ⟨v, hv, rfl⟩ := Machine.step_logged_eq_some.1 hs
  replace hv : t.state.step a = some v := hv
  rcases h with hdropped | ⟨hget, hcancelled, r, hrun, hahead⟩
  · exact Or.inl (List.mem_append_left _ hdropped)
  cases step_cases hv
  case newRun hnone => exact absurd hrun (by simp [hnone])
  case dropRun => exact absurd rfl ha
  case firstPoll r₁ cx hr₁ hpc | poll r₁ cx hr₁ hpc =>
    obtain rfl := Option.some.inj (hrun ▸ hr₁)
    rw [hpc] at hahead
    exact hahead.elim
  case run a r₁ r' ex' hr₁ htrans =>
    obtain rfl := Option.some.inj (hrun ▸ hr₁)
    have hstep := runStep_of_step hv hrun
    rcases ahead_of_trans hget hcancelled hahead htrans with ⟨d, hpc⟩ | ⟨hg, hc, hah⟩
    · -- its id has been popped, and the next step drops it
      obtain ⟨r₂, hrun₂⟩ := hinv.running
      have hkey := (hrun₂.wakes.tasks key task hget).1
      refine Or.inl (List.mem_append_right _ ?_)
      rw [taskEvents, pc_eq hrun, hpc]
      simp only [runStep] at hstep
      split at hstep
      · rcases a with - | k | out
        · simp [runEvents, tickEvents, hkey, hget, hcancelled]
        · exact absurd hstep (by simp [firstPoll, hpc])
        · rcases out with - | w <;> exact absurd hstep (by simp [ret, hpc])
      · exact absurd hstep (by simp)
    · exact Or.inr ⟨hg, hc, r', rfl, hah⟩
  case ex b ex' hact _ =>
    have htouch := touch_of_act hact
    refine Or.inr ⟨?_, isCancelled_of_act hact hcancelled, r, hrun, ahead_of_touch hahead htouch⟩
    rw [htouch.tasks_eq, hget]

end Single

end LocalRuntime
