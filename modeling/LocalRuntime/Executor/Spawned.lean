import LocalRuntime.Executor.BaseWaker
import LocalRuntime.Executor.Borrow

/-!
# Spawned tasks and who polls them

`Executor::spawn` puts a task where the next poll of `run` will find it, and wakes nobody. A poll of
`run` that returns pending has emptied `spawned`, so a task that is spawned by code which `run`
polls gets its first poll in the same poll of `run`. A task that is spawned while `run` is pending
and not being polled — by another branch of a join, or by another task of an enclosing executor —
waits for somebody else to wake `run`. `spawned_heard_iff` says **exactly** when no task waits in
vain: when every such `spawn` comes after the waker of the last poll has been woken.
-/

namespace LocalRuntime

variable {V : Type}

namespace Executor

variable {ex ex' : Executor V} {r r' : Run}

/-- Some spawned task is not cancelled. -/
def HasSpawned (ex : Executor V) : Prop := ∃ task ∈ ex.spawned, ex.isCancelled task.id = false

/-- **A poll that returns pending has polled every spawned task.** -/
theorem Trans.spawned_eq_nil (ht : ex.Trans r ex' r') (hpc : r'.pc = .pending) :
    ex'.spawned = [] := by
  cases ht
  case noSpawned hnil => exact hnil
  case borrowTasks hpc' _ => exact absurd hpc' (by simp [hpc])
  case borrowSpawned hpc' _ => exact absurd hpc' (by simp [hpc])
  case resetPop hpc' _ | unwrap hpc' _ | mainTaskId hpc' => exact absurd hpc (by simp [hpc'])
  all_goals exact absurd hpc (by simp)

/-- Only a `spawn` makes a spawned task. -/
theorem HasSpawned.of_act {a : Act} (h : ex'.HasSpawned) (hact : ex.act a = some ex')
    (ha : a ≠ .spawn) : ex.HasSpawned := by
  obtain ⟨task, hmem, hcancelled⟩ := h
  obtain ⟨hspawned, hmono⟩ := spawned_of_act hact ha
  exact ⟨task, hspawned ▸ hmem, hmono _ hcancelled⟩

/-- A task that has just been spawned is not cancelled. -/
theorem hasSpawned_spawn (h : ex.spawnedBorrowed = false) : ex.spawn.HasSpawned := by
  rw [spawn_of_not_borrowed h]
  exact ⟨⟨ex.handles.length⟩, by simp, by simp [isCancelled]⟩

theorem queue_spawn (ex : Executor V) : ex.spawn.queue = ex.queue := by
  rw [spawn]
  split
  · rfl
  · rfl

end Executor

namespace Single

open Executor

variable {s t : Single V}

/-- While `run` is pending and not being polled, a spawned task that is not cancelled has a waker
that was woken: the one of the last poll, since it was registered. -/
def SpawnedHeard (s : Single V) : Prop :=
  ∀ r, s.run = some r → r.pc = .pending → s.ex.HasSpawned →
    s.ex.queue.baseWaker.registered = some r.cx ∧ s.ex.queue.baseWaker.Woken

/-- A `spawn` while `run` is pending and not being polled comes after the waker of the last poll has
been woken. -/
def SpawnsHeard (s : Single V) (a : Act V) : Prop :=
  a = .ex .spawn → ∀ r, s.run = some r → r.pc = .pending → s.ex.queue.baseWaker.Woken

/-- The spawned tasks are heard, the base waker is the one of the last poll, and the guards are
those of the place of the `run` future. -/
structure SpawnInv (s : Single V) : Prop where
  heard : SpawnedHeard s
  queue : ∀ r, s.run = some r → QueueInv s.ex r
  guards : s.ex.Guards (s.run.any fun r ↦ r.pc.holdsTasks) (s.run.any fun r ↦ r.pc.holdsSpawned)

theorem SpawnInv.init : SpawnInv (init : Single V) where
  heard _ h := absurd h (by simp [Single.init])
  queue _ h := absurd h (by simp [Single.init])
  guards := ⟨rfl, rfl⟩

/-- The guards along a step of the machine. -/
theorem guards_step {a : Act V}
    (h : s.ex.Guards (s.run.any fun r ↦ r.pc.holdsTasks) (s.run.any fun r ↦ r.pc.holdsSpawned))
    (hs : Step s a t) :
    t.ex.Guards (t.run.any fun r ↦ r.pc.holdsTasks) (t.run.any fun r ↦ r.pc.holdsSpawned) := by
  cases hs
  case newRun hnone =>
    rw [hnone] at h
    exact h
  case dropRun r hrun hidle =>
    obtain ⟨htasks, hspawned⟩ := Pc.not_holds_of_isIdle hidle
    rw [hrun, Option.any_some, Option.any_some, htasks, hspawned] at h
    exact h
  case firstPoll r cx hrun hpc =>
    rw [hrun, Option.any_some, Option.any_some, hpc] at h
    exact ⟨h.tasks_eq, h.spawned_eq⟩
  case poll r cx hrun hpc =>
    rw [hrun, Option.any_some, Option.any_some, hpc] at h
    exact h
  case run r r' ex' hrun htrans =>
    rw [hrun] at h
    exact h.trans htrans
  case ex ex' hact _ => exact h.act hact

/-- **One step strands no task**, unless it spawns one while nobody is about to poll `run`. -/
theorem SpawnInv.step {a : Act V} (h : SpawnInv s) (hC : SpawnsHeard s a) (hs : Step s a t) :
    SpawnInv t := by
  have hqueue := queueInv_step h.queue hs
  refine ⟨fun r hr hpc hspawned ↦ ⟨?_, ?_⟩, hqueue, guards_step h.guards hs⟩
  · exact (hqueue r hr).registered (by simp [hpc, Pc.isRegistered])
  · cases hs
    case newRun | firstPoll | poll =>
      obtain rfl := Option.some.inj hr
      exact absurd hpc (by simp [Run.new])
    case dropRun => exact absurd hr (by simp)
    case run htrans =>
      -- a poll that has just returned pending has left nothing
      obtain rfl := Option.some.inj hr
      obtain ⟨task, hmem, -⟩ := hspawned
      exact absurd hmem (by simp [htrans.spawned_eq_nil hpc])
    case ex a ex' hact _ =>
      refine (touch_of_act hact).woken ?_
      rcases eq_or_ne a .spawn with rfl | hne
      · exact hC rfl r hr hpc
      · exact (h.heard r hr hpc (hspawned.of_act hact hne)).2

/-- A `spawn` that nobody has heard strands its task. -/
theorem SpawnInv.not_heard {a : Act V} (h : SpawnInv s) (hC : ¬ SpawnsHeard s a) (hs : Step s a t) :
    ¬ SpawnedHeard t := by
  simp only [SpawnsHeard, not_forall] at hC
  obtain ⟨rfl, r, hrun, hpc, hwoken⟩ := hC
  cases hs
  case ex ex' hact _ =>
    obtain rfl := Option.some.inj hact
    have hborrowed := h.guards.spawned_eq
    rw [hrun, Option.any_some, hpc] at hborrowed
    intro hheard
    have hnew := (hheard r hrun hpc (hasSpawned_spawn hborrowed)).2
    exact hwoken (by rwa [queue_spawn] at hnew)

/-- **Spawned tasks, exactly.** In a run of the machine: in every state in which `run` is pending,
not being polled and has a spawned task that is not cancelled, the waker of its last poll has been
woken since it was registered, if and only if every `spawn` that is made while `run` is pending and
not being polled is made after that waker has been woken. -/
theorem spawned_heard_iff (as : List (Act V)) (t : Single V)
    (hrun : (machine V).run init as = some t) :
    (∀ u, (machine V).Visits init as u → SpawnedHeard u) ↔
      (machine V).AllSteps SpawnsHeard init as :=
  Machine.forall_visits_iff_allSteps (M := machine V) (I := SpawnInv) (fun _ h ↦ h.heard)
    (fun _ _ _ h hC hs ↦ h.step hC (step_cases hs))
    (fun _ _ _ h hC hs ↦ h.not_heard hC (step_cases hs)) .init hrun

/-- A `run` future is polled once and is pending. -/
def pollOnce : List (Act Unit) :=
  [.newRun, .poll 7] ++ toMain ++ [.run (.ret none), .run .tick, .run .tick]

/-- **A task that is spawned from outside while `run` is pending waits in vain.** -/
theorem spawn_from_outside_stranded :
    ∃ u, (machine Unit).Visits init (pollOnce ++ [.ex .spawn]) u ∧ ¬ SpawnedHeard u := by
  refine ⟨_, ⟨pollOnce ++ [.ex .spawn], List.prefix_rfl, rfl⟩, fun hheard ↦ ?_⟩
  have hwoken := (hheard _ rfl rfl ⟨⟨0⟩, List.mem_singleton_self _, rfl⟩).2
  exact absurd hwoken (by decide)

/-- The task is spawned after the waker of `run` has been woken. -/
theorem spawned_heard_iff_woken :
    ∃ t, (machine Unit).run init (pollOnce ++ [.ex (.hear 7), .ex .spawn]) = some t ∧
      ((∀ u, (machine Unit).Visits init (pollOnce ++ [.ex (.hear 7), .ex .spawn]) u →
        SpawnedHeard u) ↔
      (machine Unit).AllSteps SpawnsHeard init (pollOnce ++ [.ex (.hear 7), .ex .spawn])) :=
  ⟨_, rfl, spawned_heard_iff (pollOnce ++ [.ex (.hear 7), .ex .spawn]) _ rfl⟩

end Single

end LocalRuntime
