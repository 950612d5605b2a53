import LocalRuntime.Executor.Reset

/-!
# The base waker

The waker that `run` was last polled with must be woken whenever there is something for `run` to do.
A call of `TaskWaker::wake` wakes it after its push, so an id that is in the queue has been heard,
or is about to be, if it was pushed after the base waker was registered. The ids that were there
before are popped by the poll itself: `Pc.left` counts the ids that the current poll will still pop,
and whatever is in the queue beyond them is heard (`QueueInv`).

`no_lost_wakeup` puts the two halves together for one `run` on an executor whose slab is empty,
where the reset of the queue has nothing to throw away.
-/

namespace LocalRuntime

variable {V : Type}

/-! ### The base waker -/

/-- The base waker of this poll has been registered. -/
def Pc.isRegistered : Pc → Bool
  | .created | .resetting | .register => false
  | _ => true

/-- How many ids of each queue the current poll will still pop, once it has read the lengths. -/
def Pc.left : Pc → Option (ℕ × ℕ)
  | .created | .resetting | .register | .snapshot => none
  | .drain d | .popped _ d | .pollTask _ d | .readyTask _ d | .dropTask d =>
    some (d.localLen, d.conLen)
  | _ => some (0, 0)

namespace Executor

variable {ex ex' : Executor V} {r r' : Run}

/-- The waker that the base waker was registered with has been woken since, or a call is about to
wake it. -/
def Heard (ex : Executor V) : Prop :=
  ex.queue.baseWaker.Woken ∨ ∃ f ∈ ex.flights, f.phase = .base

/-- Whatever is in the queue beyond what the current poll will pop has been heard. -/
structure QueueInv (ex : Executor V) (r : Run) : Prop where
  registered : r.pc.isRegistered = true → ex.queue.baseWaker.registered = some r.cx
  heard : ∀ n m, r.pc.left = some (n, m) →
    n < ex.queue.localIds.length ∨ m < ex.queue.concurrent.length → ex.Heard

theorem Pc.isRegistered_of_left {pc : Pc} {n m : ℕ} (h : pc.left = some (n, m)) :
    pc.isRegistered = true := by
  rcases pc <;> first | rfl | exact absurd h (by simp [Pc.left])

/-- **A push is heard**: a call that has pushed is about to wake the base waker, and then it has. -/
theorem QueueInv.touch (h : QueueInv ex r) (ht : Touch ex ex') : QueueInv ex' r := by
  refine ⟨fun hpc ↦ ht.registered_eq.trans (h.registered hpc), fun n m hleft hmore ↦ ?_⟩
  cases ht
  case same _ _ hflights hqueue =>
    rw [hqueue] at hmore
    simpa only [Heard, hqueue, hflights] using h.heard n m hleft hmore
  case claim _ _ hflights hqueue =>
    rw [hqueue] at hmore
    refine (h.heard n m hleft hmore).imp (fun hw ↦ hqueue ▸ hw) ?_
    rintro ⟨f, hf, hphase⟩
    exact ⟨f, hflights ▸ List.mem_append_left _ hf, hphase⟩
  case push i w onLocal tw hi _ _ _ hflights _ =>
    refine Or.inr ⟨⟨w, .base, onLocal⟩, ?_, rfl⟩
    rw [hflights]
    exact List.mem_set (List.getElem?_eq_some_iff.1 hi).1 _
  case fire _ _ _ hqueue =>
    refine Or.inl ?_
    rw [hqueue]
    refine AtomicWaker.woken_wake ?_
    rw [h.registered (Pc.isRegistered_of_left hleft)]
    simp
  case hear b _ _ hflights hqueue =>
    rw [hqueue] at hmore
    refine (h.heard n m hleft hmore).imp (fun hw ↦ ?_) fun ⟨f, hf, hphase⟩ ↦
      ⟨f, hflights ▸ hf, hphase⟩
    rw [hqueue]
    exact hw.hear b

/-- A step that leaves the queue alone. -/
theorem QueueInv.advance (h : QueueInv ex r) (hqueue : ex'.queue = ex.queue)
    (hflights : ex'.flights = ex.flights) (hcx : r'.cx = r.cx)
    (hregistered : r'.pc.isRegistered = true → r.pc.isRegistered = true)
    (hleft : ∀ p, r'.pc.left = some p → r.pc.left = some p) : QueueInv ex' r' := by
  refine ⟨fun hpc ↦ ?_, fun n m hnm hmore ↦ ?_⟩
  · rw [hqueue, hcx]
    exact h.registered (hregistered hpc)
  · rw [hqueue] at hmore
    simpa only [Heard, hqueue, hflights] using h.heard n m (hleft _ hnm) hmore

/-- **One step of `run`.** The lengths are read after the base waker has been registered, and every
pop takes one off both the queue and what is left. -/
theorem QueueInv.trans (h : QueueInv ex r) (ht : ex.Trans r ex' r') : QueueInv ex' r' := by
  cases ht
  case resetPop hpc _ =>
    refine ⟨fun hr ↦ absurd hr (by simp [hpc, Pc.isRegistered]), fun n m hl ↦ ?_⟩
    exact absurd hl (by simp [hpc, Pc.left])
  case register hpc => exact ⟨fun _ ↦ rfl, fun n m hl ↦ absurd hl (by simp [Pc.left])⟩
  case snapshot hpc _ =>
    refine ⟨fun _ ↦ h.registered (by simp [hpc, Pc.isRegistered]), fun n m hl hmore ↦ ?_⟩
    obtain ⟨rfl, rfl⟩ := Prod.mk.inj (Option.some.inj hl)
    exact absurd hmore (by simp)
  case popLocal n m awoken id rest hpc hq =>
    refine ⟨fun _ ↦ h.registered (by simp [hpc, Pc.isRegistered]), fun n' m' hl hmore ↦ ?_⟩
    obtain ⟨rfl, rfl⟩ := Prod.mk.inj (Option.some.inj hl)
    refine h.heard (n + 1) m (by simp [hpc, Pc.left]) (hmore.imp_left fun hlt ↦ ?_)
    rw [hq, List.length_cons]
    exact Nat.succ_lt_succ hlt
  case popConcurrent m awoken id rest hpc hq =>
    refine ⟨fun _ ↦ h.registered (by simp [hpc, Pc.isRegistered]), fun n' m' hl hmore ↦ ?_⟩
    obtain ⟨rfl, rfl⟩ := Prod.mk.inj (Option.some.inj hl)
    refine h.heard 0 (m + 1) (by simp [hpc, Pc.left]) (hmore.imp_right fun hlt ↦ ?_)
    rw [hq, List.length_cons]
    exact Nat.succ_lt_succ hlt
  case drained m awoken hpc hq =>
    refine ⟨fun _ ↦ h.registered (by simp [hpc, Pc.isRegistered]), fun n' m' hl hmore ↦ ?_⟩
    obtain ⟨rfl, rfl⟩ := Prod.mk.inj (Option.some.inj hl)
    refine h.heard 0 m (by simp [hpc, Pc.left]) (hmore.imp_right fun hlt ↦ ?_)
    rcases hq with rfl | hq
    · exact hlt
    · exact absurd hlt (by simp [hq])
  case readyTask hpc _ =>
    refine (h.touch (touch_complete ex _ _)).advance rfl rfl rfl (fun _ ↦ ?_) fun p hp ↦ ?_
    · simp [hpc, Pc.isRegistered]
    · rwa [hpc]
  case readyFirst hpc =>
    refine (h.touch (touch_complete ex _ _)).advance rfl rfl rfl (fun _ ↦ ?_) fun p hp ↦ ?_
    · simp [hpc, Pc.isRegistered]
    · rwa [hpc]
  case borrowTasks | borrowSpawned | unwrap | mainTaskId => exact h.touch (.same rfl rfl rfl rfl)
  case resetDone hpc _ =>
    exact h.advance rfl rfl rfl (fun hr ↦ absurd hr (by simp [Pc.isRegistered]))
      fun p hp ↦ absurd hp (by simp [Pc.left])
  -- the other steps leave the queue and what is left of it alone
  all_goals
    refine h.advance rfl rfl rfl (fun _ ↦ ?_) fun p hp ↦ ?_
    · simp [‹r.pc = _›, Pc.isRegistered]
    · rw [‹r.pc = _›]
      exact hp

end Executor

/-! ### Within one run -/

namespace Single

open Executor

variable {s t : Single V}

/-- **The queue is heard in every run**, whatever a reset throws away. -/
theorem queueInv_step {a : Act V} (h : ∀ r, s.run = some r → QueueInv s.ex r) (hs : Step s a t) :
    ∀ r, t.run = some r → QueueInv t.ex r := by
  cases hs
  case newRun | firstPoll | poll =>
    intro r hr
    obtain rfl := Option.some.inj hr
    refine ⟨fun h ↦ ?_, fun n m h ↦ ?_⟩
    · exact absurd h (by simp [Run.new, Pc.isRegistered])
    · exact absurd h (by simp [Run.new, Pc.left])
  case dropRun => exact fun r hr ↦ absurd hr (by simp)
  case run r r' ex' hrun htrans =>
    intro r₁ hr₁
    obtain rfl := Option.some.inj hr₁
    exact (h r hrun).trans htrans
  case ex ex' hact _ => exact fun r hr ↦ (h r hr).touch (touch_of_act hact)

/-- One `run` future that started with an empty slab: the flags have their traces, and the queue is
heard. -/
structure RunInv (s : Single V) (r : Run) : Prop where
  run_eq : s.run = some r
  wakes : WakeInv s.ex s.run
  queue : QueueInv s.ex r
  /-- Until the reset is over there are no tasks. -/
  empty : r.pc = .created ∨ r.pc = .resetting → ∀ k, s.ex.tasks.get k = none

/-- A `run` future that has not been polled, on an executor without tasks. -/
theorem RunInv.start {r : Run} (hrun : s.run = some r) (hpc : r.pc = .created)
    (hempty : ∀ k, s.ex.tasks.get k = none) : RunInv s r := by
  refine ⟨hrun, ⟨fun k task hk ↦ ?_, fun r₁ _ _ _ hr hpc' ↦ ?_, fun r₁ hr hpc' ↦ ?_,
    fun r₁ hr hpc' ↦ ?_⟩, ⟨fun h ↦ ?_, fun n m h ↦ ?_⟩, fun _ ↦ hempty⟩
  · exact absurd hk (by simp [hempty k])
  · obtain rfl := Option.some.inj (hrun ▸ hr)
    exact absurd hpc (by simp [hpc'])
  · obtain rfl := Option.some.inj (hrun ▸ hr)
    exact absurd hpc hpc'
  · obtain rfl := Option.some.inj (hrun ▸ hr)
    exact absurd hpc (by simp [hpc'])
  · exact absurd h (by simp [hpc, Pc.isRegistered])
  · exact absurd h (by simp [hpc, Pc.left])

/-- With no tasks in the slab there is nothing that a reset could throw away. -/
theorem RunInv.unpushed {r : Run} {a : Act V} (h : RunInv s r) (hresets : Resets s a) :
    s.ex.Unpushed := by
  intro k task tw hk
  obtain ⟨r₁, hr₁, hpc⟩ := hresets
  obtain rfl := Option.some.inj (h.run_eq ▸ hr₁)
  exact absurd hk (by simp [h.empty (hpc.symm.imp And.left id) k])

/-- The slab stays empty as long as the reset lasts. -/
theorem tasks_eq_of_resetting {ex ex' : Executor V} {r r' : Run} (ht : ex.Trans r ex' r')
    (hpc : r'.pc = .created ∨ r'.pc = .resetting) : r'.pc = r.pc ∧ ex'.tasks = ex.tasks := by
  cases ht
  case resetPop | borrowTasks | borrowSpawned | unwrap | mainTaskId => exact ⟨rfl, rfl⟩
  all_goals exact absurd hpc (by simp)

/-- **One step within a run.** A poll is not forgotten. -/
theorem RunInv.step {r : Run} {a : Act V} (h : RunInv s r) (ha : a ≠ .dropRun)
    (hs : Step s a t) :
    ∃ r', RunInv t r' ∧ (r'.pc = .created → r.pc = .created ∧ ∀ cx, a ≠ .poll cx) := by
  have hwakes := wakeInv_step h.wakes h.unpushed hs
  have hqueue := queueInv_step (fun r₁ hr₁ ↦ Option.some.inj (h.run_eq ▸ hr₁) ▸ h.queue) hs
  cases hs
  case newRun hnone => exact absurd h.run_eq (by simp [hnone])
  case dropRun => exact absurd rfl ha
  case firstPoll r₁ cx hr₁ hpc =>
    obtain rfl := Option.some.inj (h.run_eq ▸ hr₁)
    refine ⟨_, ⟨rfl, hwakes, hqueue _ rfl, fun _ ↦ h.empty (Or.inl hpc)⟩, fun h ↦ ?_⟩
    exact absurd h (by simp)
  case poll r₁ cx hr₁ hpc =>
    refine ⟨_, ⟨rfl, hwakes, hqueue _ rfl, fun h ↦ ?_⟩, fun h ↦ ?_⟩
    · exact absurd h (by simp)
    · exact absurd h (by simp)
  case run r₁ r' ex' hr₁ htrans =>
    obtain rfl := Option.some.inj (h.run_eq ▸ hr₁)
    refine ⟨r', ⟨rfl, hwakes, hqueue r' rfl, fun hpc ↦ ?_⟩, fun hpc ↦ ?_⟩
    · obtain ⟨hpc', htasks⟩ := tasks_eq_of_resetting htrans hpc
      rw [htasks]
      exact h.empty (hpc' ▸ hpc)
    · obtain ⟨hpc', -⟩ := tasks_eq_of_resetting htrans (Or.inl hpc)
      exact ⟨hpc' ▸ hpc, by simp⟩
  case ex a ex' hact _ =>
    have htouch := touch_of_act hact
    refine ⟨r, ⟨h.run_eq, hwakes, hqueue r h.run_eq, fun hpc ↦ ?_⟩, fun hpc ↦ ⟨hpc, by simp⟩⟩
    rw [htouch.tasks_eq]
    exact h.empty hpc

/-- **No wakeup is lost within one run.** Take a `run` future on an executor whose slab is empty,
from its first poll on, with any main future, any tasks, and wakes from any threads. In every state
that can be reached: the wakers of the tasks in the slab and of the main future have a trace if
their flag is set; and if the last poll has returned pending and there is an id in the queue, the
waker of that poll is the registered one and has been woken since, or a call is about to wake it. -/
theorem no_lost_wakeup (s t : Single V) (r₀ : Run) (cx : ℕ) (as : List (Act V))
    (hrun₀ : s.run = some r₀) (hpc : r₀.pc = .created) (hempty : ∀ k, s.ex.tasks.get k = none)
    (has : Act.dropRun ∉ as) (hrun : (machine V).run s (.poll cx :: as) = some t) :
    (∀ k task, t.ex.tasks.get k = some task → t.ex.Kept t.run task.waker k) ∧
    ∃ r, t.run = some r ∧ t.ex.Kept t.run r.mainWaker MAIN_TASK_ID ∧
      (r.pc = .pending → (∃ id, t.ex.queue.Has id) →
        t.ex.queue.baseWaker.registered = some r.cx ∧ t.ex.Heard) := by
  -- the future has been polled: it stays so
  have hinv : ∃ r, RunInv t r ∧ r.pc ≠ .created := by
    obtain ⟨u, hu, hrun⟩ := (machine V).run_cons_eq_some.1 hrun
    obtain ⟨r₁, h₁, hpolled⟩ := (RunInv.start hrun₀ hpc hempty).step (by simp)
      (step_cases (show s.step (.poll cx) = some u from hu))
    refine Machine.run_preserves_of_allSteps (C := fun _ a ↦ a ≠ .dropRun)
      (I := fun u ↦ ∃ r, RunInv u r ∧ r.pc ≠ .created) ?_
      ⟨r₁, h₁, fun hc ↦ (hpolled hc).2 cx rfl⟩ (Machine.allSteps_of_forall ?_ u) hrun
    · rintro u a v ⟨r, h, hne⟩ ha hs
      obtain ⟨r', h', hpolled⟩ := h.step ha (step_cases hs)
      exact ⟨r', h', fun hc ↦ hne (hpolled hc).1⟩
    · exact fun _ a ha hdrop ↦ has (hdrop ▸ ha)
  obtain ⟨r, h, hpc⟩ := hinv
  refine ⟨fun k task hk ↦ (h.wakes.tasks k task hk).2, r, h.run_eq, h.wakes.main r h.run_eq hpc, ?_⟩
  rintro hpending ⟨id, hid⟩
  refine ⟨h.queue.registered (by simp [hpending, Pc.isRegistered]), ?_⟩
  refine h.queue.heard 0 0 (by simp [hpending, Pc.left]) ?_
  exact hid.imp List.length_pos_of_mem List.length_pos_of_mem

/-- Another thread wakes the task between two polls. -/
theorem no_lost_wakeup_spawnOne :
    ∃ t, (machine Unit).run ⟨.new, some .new⟩
        (.poll 7 :: (toMain ++ spawnOne ++ [.ex (.wake 1 false)])) = some t ∧
      ∀ k task, t.ex.tasks.get k = some task → t.ex.Kept t.run task.waker k := by
  refine ⟨_, rfl, ?_⟩
  exact (no_lost_wakeup ⟨.new, some .new⟩ _ .new 7 (toMain ++ spawnOne ++ [.ex (.wake 1 false)]) rfl
    rfl (fun _ ↦ rfl) (by simp [toMain, spawnOne]) rfl).1

end Single

end LocalRuntime
