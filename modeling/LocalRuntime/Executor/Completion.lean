import LocalRuntime.Executor.PollTasks

/-!
# The end of `run`

"When this function completes, it will drop all unfinished tasks that were spawned on the executor."
The end of `Executor::run` clears the slab and then `spawned`, and runs the destructors of
everything in them. Such code may do what other code may: cancel, wake, poll handles, and spawn.
What is spawned by a destructor of the slab is dropped with the rest of `spawned`, and a destructor
of `spawned` cannot spawn, since the guard is held (`Clears`).

So when the guard is given back the executor is empty, whatever has been going on and however many
other `run` futures are alive: `run_drops_all` says what that is worth to the tasks and to their
handles, then and at any time later.
-/

namespace LocalRuntime

open Roster

variable {V : Type}

namespace Executor

variable {ex ex' : Executor V} {r r' : Run} {pc : Pc}

/-- What the end of `run` has cleared so far. -/
structure Clears (ex : Executor V) (pc : Pc) : Prop where
  tasks : (∃ left, pc = .clearTasks left) ∨ pc = .cleared ∨ (∃ left, pc = .clearSpawned left) →
    ∀ key, ex.tasks.get key = none
  spawned : ∀ left, pc = .clearSpawned left → ex.spawned = [] ∧ ex.spawnedBorrowed = true

/-- Elsewhere nothing is cleared. -/
theorem Clears.of_ne (htasks : ∀ left, pc ≠ .clearTasks left) (hcleared : pc ≠ .cleared)
    (hspawned : ∀ left, pc ≠ .clearSpawned left) : ex.Clears pc := by
  refine ⟨?_, fun left hpc ↦ absurd hpc (hspawned left)⟩
  rintro (⟨left, hpc⟩ | hpc | ⟨left, hpc⟩)
  · exact absurd hpc (htasks left)
  · exact absurd hpc hcleared
  · exact absurd hpc (hspawned left)

/-- **One step of `run` clears what it should.** -/
theorem Clears.trans (h : ex.Clears r.pc) (ht : ex.Trans r ex' r') : ex'.Clears r'.pc := by
  cases ht
  case clear => exact ⟨fun _ _ ↦ Slab.get_empty _, by simp⟩
  case clearedTasks hpc => exact ⟨fun _ ↦ h.tasks (Or.inl ⟨0, hpc⟩), by simp⟩
  case clearSpawned hpc _ => exact ⟨fun _ ↦ h.tasks (Or.inr (Or.inl hpc)), fun _ _ ↦ ⟨rfl, rfl⟩⟩
  case droppedClearTasks left hpc => exact ⟨fun _ ↦ h.tasks (Or.inl ⟨left + 1, hpc⟩), by simp⟩
  case droppedClearSpawned left hpc =>
    exact ⟨fun _ ↦ h.tasks (Or.inr (Or.inr ⟨left + 1, hpc⟩)), fun _ _ ↦ h.spawned (left + 1) hpc⟩
  -- a panic leaves everything where it is
  case resetPop | borrowTasks | borrowSpawned | unwrap | mainTaskId => exact ⟨h.tasks, h.spawned⟩
  all_goals exact .of_ne (by simp) (by simp) (by simp)

/-- **No destructor puts anything back.** A `spawn` while `spawned` is cleared panics. -/
theorem Clears.act {a : Act} (h : ex.Clears pc) (ha : ex.act a = some ex') : ex'.Clears pc := by
  refine ⟨fun hpc key ↦ ?_, fun left hpc ↦ ?_⟩
  · rw [(touch_of_act ha).tasks_eq]
    exact h.tasks hpc key
  · obtain ⟨hnil, hborrowed⟩ := h.spawned left hpc
    refine ⟨?_, (borrowed_of_act ha).2.trans hborrowed⟩
    rcases eq_or_ne a .spawn with rfl | hne
    · obtain rfl := Option.some.inj ha
      rw [spawn_of_borrowed hborrowed]
      exact hnil
    · rw [(spawned_of_act ha hne).1]
      exact hnil

end Executor

namespace Overlapping

variable {s t : Overlapping V}

theorem clears_step {a : Act V} (h : s.ex.Clears s.pc)
    (henclosing : ∀ r ∈ s.stack.tail, r.pc = .pollMain ∨ r.pc = .dropMain)
    (hs : s.step a = some t) : t.ex.Clears t.pc := by
  cases step_cases hs
  case newRun | dropRun => exact h
  case poll hbegin =>
    obtain ⟨-, rfl, rfl⟩ | ⟨-, rfl, rfl⟩ := Executor.beginPoll_cases hbegin
    · exact .of_ne (by simp [pc]) (by simp [pc]) (by simp [pc])
    · exact .of_ne (by simp [pc]) (by simp [pc]) (by simp [pc])
  case run a r r' rest ex' hstack hstep =>
    rw [pc_of_stack hstack] at h
    rw [hstack, List.tail_cons] at henclosing
    rw [ex_settle]
    obtain hpc | ⟨-, hpc⟩ := pc_settle ex' s.idle r' henclosing
    · rw [hpc]
      exact h.trans (Executor.trans_of_runStep hstep)
    · -- the poll of the `run` future is over
      obtain hpc | hpc | hpc := hpc <;> rw [hpc] <;> exact .of_ne (by simp) (by simp) (by simp)
  case ex hact _ => exact h.act hact

theorem clears_of_run {as : List (Act V)} (hrun : (machine V).run init as = some s) :
    s.ex.Clears s.pc := by
  have h : s.ex.Clears s.pc ∧ ∀ r ∈ s.stack.tail, r.pc = .pollMain ∨ r.pc = .dropMain := by
    refine Machine.run_preserves (M := machine V) (I := fun s ↦
      s.ex.Clears s.pc ∧ ∀ r ∈ s.stack.tail, r.pc = .pollMain ∨ r.pc = .dropMain) ?_ ⟨?_, ?_⟩ hrun
    · exact fun _ _ _ h hs ↦ ⟨clears_step h.1 h.2 hs, enclosing_step h.2 hs⟩
    · exact .of_ne (by simp [init, pc]) (by simp [init, pc]) (by simp [init, pc])
    · simp [init]
  exact h.1

/-! ### What is left -/

/-- What a task has come to, at a moment at which it is gone.

* It has been dropped, once.
* Whatever happens later, its future is not polled and not dropped again: its handle may be
  cancelled and polled, and that is all.
* The handle gives out a value later only if the future has returned it before.
* If the future has returned a value that the handle has not given out yet, the handle gives it out
  whenever it is polled. -/
structure Settled (t : Logged (Overlapping V) ℕ (TaskEvent V)) (id : ℕ) : Prop where
  dropped : (t.log id).countP TaskEvent.isDrop = 1
  later : ∀ bs u, (recording V).run t bs = some u → ∃ after, u.log id = t.log id ++ after ∧
    (∀ e ∈ after, (∃ own, e = .cancelled own) ∨ ∃ w out, e = .awaited w out) ∧
    (∀ w v, .awaited w (.ready v) ∈ after → .completed v ∈ t.log id) ∧
    ∀ w v, .completed v ∈ t.log id → (∀ w' v', .awaited w' (.ready v') ∉ u.log id) →
      (u.state.ex.pollHandle id w).1 = .ready v

/-- A task that has been dropped is settled. -/
theorem settled_of_stage {as : List (Act V)} {t : Logged (Overlapping V) ℕ (TaskEvent V)} {id : ℕ}
    (hrun : (recording V).run ⟨init, fun _ ↦ []⟩ as = some t)
    (hstage : t.state.ex.roster.stage t.state.pc id = .dropped) : Settled t id := by
  have ht := (recorded_of_run hrun).lives id
  refine ⟨?_, fun bs u hu ↦ ?_⟩
  · rw [ht.countP_isDrop]
    exact if_pos hstage
  have hreach : (recording V).run ⟨init, fun _ ↦ []⟩ (as ++ bs) = some u := by
    rw [Machine.run_append, hrun, Option.bind_some, hu]
  have hu' := (recorded_of_run hreach).lives id
  obtain ⟨after, hafter⟩ := Machine.log_prefix_of_run hu id
  rw [← hafter] at hu'
  -- its history up to `t` leads to where it has been dropped
  obtain ⟨l, hl, hlater⟩ := Leads.of_append hu'
  have hdropped : l.stage = .dropped := by
    have hcount := (Lives.countP_isDrop hl).symm.trans (Lives.countP_isDrop ht)
    rw [if_pos (show (t.state.ex.roster.life t.state.pc id).stage = .dropped from hstage)] at hcount
    by_contra hne
    rw [if_neg hne] at hcount
    cases hcount
  have hevents := (Lives.of_stage_dropped hlater hdropped).2
  refine ⟨after, hafter.symm, hevents, fun w v htaken ↦ ?_, fun w v hcompleted hnot ↦ ?_⟩
  · obtain ⟨b₁, b₂, rfl⟩ := List.append_of_mem htaken
    rw [← List.append_assoc] at hu'
    obtain ⟨⟨c₁, c₂, hc, -⟩, -⟩ := Lives.of_taken hu'
    have hmem : .completed v ∈ t.log id ++ b₁ := hc ▸ List.mem_append_right _ List.mem_cons_self
    refine (List.mem_append.1 hmem).resolve_right fun hmem ↦ ?_
    rcases hevents _ (List.mem_append_left _ hmem) with ⟨own, heq⟩ | ⟨w', out, heq⟩
    · cases heq
    · cases heq
  · rw [← hafter] at hnot
    have hvalue := Lives.value_of_completed hu' (List.mem_append_left _ hcompleted) hnot
    simp only [Executor.pollHandle, show u.state.ex.rets[id]?.bind RetData.value = some v
      from hvalue]

/-- **A completed `run` leaves no task behind.** In every run of the executor, with any number of
`run` futures, whenever one of them has cleared the executor at its end: the slab and `spawned` are
empty, and every task that has ever been spawned is settled. -/
theorem run_drops_all (as : List (Act V)) (t : Logged (Overlapping V) ℕ (TaskEvent V))
    (hrun : (recording V).run ⟨init, fun _ ↦ []⟩ as = some t) (hpc : t.state.pc = .clearSpawned 0) :
    (∀ key, t.state.ex.tasks.get key = none) ∧ t.state.ex.spawned = [] ∧
      ∀ id, .spawned ∈ t.log id → Settled t id := by
  have hclears := clears_of_run (Machine.state_of_run_logged hrun)
  have htasks := hclears.tasks (Or.inr (Or.inr ⟨0, hpc⟩))
  have hspawned := (hclears.spawned 0 hpc).1
  refine ⟨htasks, hspawned, fun id hmem ↦ settled_of_stage hrun ?_⟩
  have hborn := ((recorded_of_run hrun).lives id).stage_of_spawned hmem
  have hslab : ¬ t.state.ex.roster.InSlab id := by
    rw [inSlab_iff]
    rintro ⟨key, task, hget, -⟩
    rw [show t.state.ex.roster.tasks.get key = none from htasks key] at hget
    cases hget
  have hcalm : t.state.pc.isCalm = true := by rw [hpc]; rfl
  -- of all the places where a task can be, none is left
  simp only [life, stage, show t.state.ex.roster.spawned = [] from hspawned, List.not_mem_nil,
    ne_poppedSpawned_of_isCalm hcalm, or_self, polling_of_isCalm hcalm,
    finished_of_isCalm hcalm, hslab, reduceCtorEq, if_false] at hborn ⊢
  split
  next hle => exact absurd (if_pos hle) hborn
  · rfl

/-- The main future spawns two tasks. One of them returns 5 and the other one is pending when the
main future returns; its destructor spawns a third one. -/
def spawnInDrop : List (Act ℕ) :=
  [.newRun, .poll 0 7, .run .tick, .run .tick, .run .tick, .run .tick, .run .tick, .run .tick,
    .run .tick, .ex .spawn, .ex .spawn, .run (.ret none), .run .tick, .run .tick,
    .run (.firstPoll 0), .run (.ret (some 5)), .run (.ret none), .run .tick, .run (.firstPoll 0),
    .run (.ret none), .run .tick, .ex (.wake 0 false), .ex (.push 0), .ex (.fire 0), .poll 0 7,
    .run .tick, .run .tick, .run .tick, .run .tick, .run .tick, .run .tick, .run (.ret (some 0)),
    .run .tick, .ex .spawn, .run (.ret none), .run .tick, .run .tick, .run (.ret none)]

theorem run_drops_all_spawnInDrop :
    ∃ t, (recording ℕ).run ⟨init, fun _ ↦ []⟩ spawnInDrop = some t ∧ t.state.pc = .clearSpawned 0 ∧
      t.log 0 = [.spawned, .polled, .pended, .cleared] ∧
      t.log 1 = [.spawned, .polled, .completed 5, .dropped] ∧ t.log 2 = [.spawned, .cleared] ∧
      Settled t 0 ∧ Settled t 1 ∧ Settled t 2 := by
  obtain ⟨t, hrun, hpc, h0, h1, h2⟩ :
      ∃ t, (recording ℕ).run ⟨init, fun _ ↦ []⟩ spawnInDrop = some t ∧
        t.state.pc = .clearSpawned 0 ∧ t.log 0 = [.spawned, .polled, .pended, .cleared] ∧
        t.log 1 = [.spawned, .polled, .completed 5, .dropped] ∧ t.log 2 = [.spawned, .cleared] :=
    ⟨_, rfl, rfl, rfl, rfl, rfl⟩
  have hsettled := (run_drops_all spawnInDrop t hrun hpc).2.2
  refine ⟨t, hrun, hpc, h0, h1, h2, hsettled 0 ?_, hsettled 1 ?_, hsettled 2 ?_⟩
  · simp [h0]
  · simp [h1]
  · simp [h2]

end Overlapping

end LocalRuntime
