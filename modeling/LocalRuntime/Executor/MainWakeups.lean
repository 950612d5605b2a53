import LocalRuntime.Executor.Overlap

/-!
# Stolen wakeups of main futures

`main_wakeups_kept_iff` is about every run of an executor with any number of `run` futures: two
branches of a join, or one inside the main future of another. It says **exactly** when no wake of a
main future is lost: when no drain pops the last id that stands for the wake of another one's main
future, and the base waker that is woken for a main future is the one that its `run` future was last
polled with.

The code takes care of neither. In `joinedRuns_steal` two `run` futures are polled in turn, the main
future of the second one is woken, and the first one takes the id away: the poll of the second one
leaves its main future alone.
-/

namespace LocalRuntime

open MainEvent

variable {V : Type}

/-! ### Wakers of tasks -/

namespace Executor

variable {ex ex' : Executor V} {r r' : Run} {w : ℕ}

/-- The waker stands for a task and not for a main future. -/
def IsTaskWaker (ex : Executor V) (w : ℕ) : Prop :=
  ∃ tw, ex.wakers[w]? = some tw ∧ tw.taskId ≠ MAIN_TASK_ID

/-- The wakers of the tasks in the slab and of the one in its first poll stand for tasks. -/
structure TaskWakers (ex : Executor V) (pc : Pc) : Prop where
  tasks : ∀ key task, ex.tasks.get key = some task → ex.IsTaskWaker task.waker
  first : ∀ task w key, pc = .pollFirst task w key → ex.IsTaskWaker w

theorem IsTaskWaker.setAwoken (h : ex.IsTaskWaker w) (v : ℕ) (b : Bool)
    (hwakers : ex'.wakers = (ex.setAwoken v b).wakers) : ex'.IsTaskWaker w := by
  obtain ⟨tw, hw, hid⟩ := h
  refine ⟨if v = w then { tw with awoken := b } else tw, ?_, ?_⟩
  · rw [hwakers, getElem?_setAwoken, hw, Option.map_some]
  · split
    · exact hid
    · exact hid

theorem IsTaskWaker.append {tws : List TaskWaker} (h : ex.IsTaskWaker w)
    (hwakers : ex'.wakers = ex.wakers ++ tws) : ex'.IsTaskWaker w := by
  obtain ⟨tw, hw, hid⟩ := h
  refine ⟨tw, ?_, hid⟩
  rw [hwakers, List.getElem?_append_left (List.getElem?_eq_some_iff.1 hw).1, hw]

theorem IsTaskWaker.touch (h : ex.IsTaskWaker w) (ht : Touch ex ex') : ex'.IsTaskWaker w := by
  cases ht
  case claim hwakers _ _ => exact h.setAwoken _ true hwakers
  all_goals
    obtain ⟨tw, hw, hid⟩ := h
    exact ⟨tw, by rw [‹ex'.wakers = _›, hw], hid⟩

theorem TaskWakers.touch {pc : Pc} (h : TaskWakers ex pc) (ht : Touch ex ex') :
    TaskWakers ex' pc := by
  refine ⟨fun key task hget ↦ ?_, fun task w key hpc ↦ (h.first task w key hpc).touch ht⟩
  rw [ht.tasks_eq] at hget
  exact (h.tasks key task hget).touch ht

/-- A step that adds no task. -/
theorem TaskWakers.move {pc pc' : Pc} (h : TaskWakers ex pc)
    (hwakers : ∀ w, ex.IsTaskWaker w → ex'.IsTaskWaker w)
    (htasks : ∀ key task, ex'.tasks.get key = some task → ex.tasks.get key = some task)
    (hpc : ∀ task w key, pc' ≠ .pollFirst task w key) : TaskWakers ex' pc' :=
  ⟨fun key task hget ↦ hwakers _ (h.tasks key task (htasks key task hget)),
    fun task w key hfirst ↦ absurd hfirst (hpc task w key)⟩

/-- **The wakers of the tasks stand for tasks.** -/
theorem TaskWakers.trans (h : TaskWakers ex r.pc) (ht : ex.Trans r ex' r') :
    TaskWakers ex' r'.pc := by
  cases ht
  case sleepTask task _ _ _ _ | sleepMain =>
    exact h.move (fun w hw ↦ hw.setAwoken _ false rfl) (fun _ _ hget ↦ hget) (by simp)
  case removeCancelled | removeReady =>
    refine h.move (fun _ hw ↦ hw) (fun key task hget ↦ ?_) (by simp)
    exact (Option.ite_none_left_eq_some.1 (Slab.get_remove _ _ _ ▸ hget)).2
  case clear => exact h.move (fun _ hw ↦ hw) (fun key task hget ↦ absurd hget (by simp)) (by simp)
  case firstPoll task key hpc _ hkey =>
    refine ⟨fun k task' hget ↦ (h.tasks k task' hget).append rfl, fun task' w key' hfirst ↦ ?_⟩
    obtain ⟨-, rfl, -⟩ := Pc.pollFirst.inj hfirst
    refine ⟨.new key, ?_, hkey⟩
    simp [fromSpawned]
  case pendingFirst task w key hpc =>
    refine ⟨fun k task' hget ↦ ?_, fun _ _ _ hfirst ↦ absurd hfirst (by simp)⟩
    rcases Slab.eq_or_get_of_get_insert hget with rfl | hget
    · exact h.first task w key hpc
    · exact h.tasks k task' hget
  case readyTask task v _ _ =>
    exact (h.touch (touch_complete ex task.id v)).move (fun _ hw ↦ hw)
      (fun _ _ hget ↦ hget) (by simp)
  case readyFirst task _ _ v _ =>
    exact (h.touch (touch_complete ex task.id v)).move (fun _ hw ↦ hw)
      (fun _ _ hget ↦ hget) (by simp)
  case resetPop | borrowTasks | borrowSpawned | unwrap | mainTaskId => exact ⟨h.tasks, h.first⟩
  all_goals exact h.move (fun _ hw ↦ hw) (fun _ _ hget ↦ hget) (by simp)

/-- A main future has no waker of a task. -/
theorem Serves.ne_of_isTaskWaker {h : List MainEvent} {v : ℕ} (hs : Serves ex r h)
    (hv : ex.IsTaskWaker v) : v ≠ r.mainWaker := by
  obtain ⟨tw, hw, hid, -⟩ := hs.kept
  obtain ⟨tw', hw', hid'⟩ := hv
  rintro rfl
  rw [hw] at hw'
  exact hid' (Option.some.inj hw' ▸ hid)

theorem length_wakers_of_touch (ht : Touch ex ex') : ex'.wakers.length = ex.wakers.length := by
  cases ht
  case claim hwakers _ _ => rw [hwakers, setAwoken, List.length_modify]
  all_goals rw [‹ex'.wakers = _›]

/-- A step of `run` makes wakers and throws none away. -/
theorem length_wakers_of_trans (ht : ex.Trans r ex' r') : ex.wakers.length ≤ ex'.wakers.length := by
  cases ht
  case sleepTask | sleepMain => simp [toSleep, setAwoken]
  case firstPoll => simp [fromSpawned]
  case readyTask task v _ _ => rw [length_wakers_of_touch (touch_complete ex task.id v)]
  case readyFirst task _ _ v _ => rw [length_wakers_of_touch (touch_complete ex task.id v)]
  all_goals exact Nat.le_refl _

/-- A main future that `run` still has after a step it had before. -/
theorem outlook_of_trans (ht : ex.Trans r ex' r') (hlive : r'.pc.outlook ≠ .outside) :
    r.pc.outlook ≠ .outside := by
  cases ht
  case resetPop | borrowTasks | borrowSpawned | unwrap | mainTaskId => exact hlive
  case clear | clearedTasks | clearSpawned | clearedSpawned | droppedClearTasks |
      droppedClearSpawned | droppedMain | readyMain =>
    exact absurd rfl hlive
  all_goals simp [‹r.pc = _›, Pc.outlook]

/-! ### The histories -/

/-- What a step of `run` adds to the histories: a signal, or a poll of its main future, or the end
of its poll. -/
theorem transEvents_cases (ht : ex.Trans r ex' r') (w : ℕ) :
    IsSignal (ex.transEvents w r r') ∧ (ex.wakers.length ≤ w → .woken ∉ ex.transEvents w r r') ∨
      w = r.mainWaker ∧ r.pc.outlook ≠ .outside ∧ (ex.transEvents w r r' = [.polled] ∨
        ex.transEvents w r r' = [.pended] ∧ r.pc.outlook = .resting) := by
  have hquiet : ∀ {es : List MainEvent}, es = [] →
      IsSignal es ∧ (ex.wakers.length ≤ w → .woken ∉ es) := by
    rintro es rfl
    exact ⟨Or.inl rfl, fun _ ↦ List.not_mem_nil⟩
  cases ht
  case sleepMain hpc =>
    by_cases hw : w = r.mainWaker
    · exact Or.inr ⟨hw, by simp [hpc, Pc.outlook], Or.inl (by simp [transEvents, hpc, hw])⟩
    · exact Or.inl (hquiet (by simp [transEvents, hpc, hw]))
  case noSpawned hpc _ _ =>
    by_cases hw : w = r.mainWaker
    · refine Or.inr ⟨hw, by simp [hpc, Pc.outlook], Or.inr ⟨by simp [transEvents, hpc, hw], ?_⟩⟩
      rw [hpc]
      rfl
    · exact Or.inl (hquiet (by simp [transEvents, hpc, hw]))
  case readyTask key d task v hpc hget =>
    have hsig := signal_complete ex task.id v
    simp only [transEvents, hpc, hget, Option.map_some, Option.getD_some]
    exact Or.inl ⟨hsig.isSignal w, hsig.lt w⟩
  case readyFirst task _ _ v hpc =>
    have hsig := signal_complete ex task.id v
    simp only [transEvents, hpc]
    exact Or.inl ⟨hsig.isSignal w, hsig.lt w⟩
  case borrowTasks hpc _ =>
    refine Or.inl (hquiet ?_)
    rcases hpc with hpc | hpc | hpc <;> simp [transEvents, hpc]
  case borrowSpawned hpc _ =>
    refine Or.inl (hquiet ?_)
    rcases hpc with hpc | hpc <;> simp [transEvents, hpc]
  all_goals exact Or.inl (hquiet (by simp [transEvents, ‹r.pc = _›]))

end Executor

namespace MainEvent

/-- No poll of `run` has returned pending while it owed its main future a poll. -/
def Paid (h : List MainEvent) : Prop :=
  ∀ before after, h = before ++ MainEvent.pended :: after → ¬ Owed before

theorem Paid.concat {h : List MainEvent} {e : MainEvent} (hp : Paid h)
    (he : e = .pended → ¬ Owed h) : Paid (h ++ [e]) := by
  intro before after heq
  obtain ⟨rfl, hpended, -⟩ | ⟨rest, -, rfl⟩ := cut_concat heq
  · exact he hpended
  · exact hp before rest rfl

theorem Paid.append {h es : List MainEvent} (hp : Paid h) (hes : IsSignal es) : Paid (h ++ es) := by
  rcases hes with rfl | rfl | ⟨c, rfl⟩
  · simpa using hp
  · exact hp.concat (by simp)
  · exact hp.concat (by simp)

theorem IsFresh.append {h es : List MainEvent} (hf : IsFresh h) (hes : IsSignal es)
    (hwoken : .woken ∉ es) : IsFresh (h ++ es) := by
  intro e he
  rcases List.mem_append.1 he with he | he
  · exact hf e he
  · rcases hes with rfl | rfl | ⟨c, rfl⟩
    · exact absurd he List.not_mem_nil
    · exact absurd (List.mem_singleton_self _) hwoken
    · exact ⟨c, List.mem_singleton.1 he⟩

end MainEvent

/-! ### All `run` futures together -/

open Executor

section Crew

variable {ex ex' : Executor V} {log log' : ℕ → List MainEvent} {r r' : Run} {runs others : List Run}

/-- Two `run` futures have different main futures. -/
def Run.Apart (r r' : Run) : Prop :=
  r.pc.outlook ≠ .outside → r'.pc.outlook ≠ .outside → r.mainWaker ≠ r'.mainWaker

theorem Run.Apart.symm (h : r.Apart r') : r'.Apart r := fun h' hr ↦ (h hr h').symm

/-- Every `run` future is served, and no two have the same main future. -/
structure Crew (ex : Executor V) (log : ℕ → List MainEvent) (runs : List Run) : Prop where
  serves : ∀ r ∈ runs, r.pc.outlook ≠ .outside → Serves ex r (log r.mainWaker)
  apart : runs.Pairwise Run.Apart

theorem Crew.perm {runs' : List Run} (h : Crew ex log runs) (hp : runs.Perm runs') :
    Crew ex log runs' :=
  ⟨fun r hr ↦ h.serves r (hp.mem_iff.2 hr), (hp.pairwise_iff Run.Apart.symm).1 h.apart⟩

theorem Crew.sublist {runs' : List Run} (h : Crew ex log runs) (hsub : runs'.Sublist runs) :
    Crew ex log runs' :=
  ⟨fun r hr ↦ h.serves r (hsub.subset hr), h.apart.sublist hsub⟩

/-- One of them makes a step and the others are served as before. -/
theorem Crew.move (h : Crew ex log (r :: others))
    (hself : r'.pc.outlook ≠ .outside → Serves ex' r' (log' r'.mainWaker))
    (hothers : ∀ R ∈ others, R.pc.outlook ≠ .outside → Serves ex' R (log' R.mainWaker))
    (hapart : ∀ R ∈ others, r'.Apart R) : Crew ex' log' (r' :: others) := by
  refine ⟨fun R hR ↦ ?_, List.pairwise_cons.2 ⟨hapart, (List.pairwise_cons.1 h.apart).2⟩⟩
  rcases List.mem_cons.1 hR with rfl | hR
  · exact hself
  · exact hothers R hR

end Crew

namespace Overlapping

/-- All `run` futures, those that are being polled first. -/
def runs (s : Overlapping V) : List Run := s.stack ++ s.idle

theorem runs_perm_poll {s : Overlapping V} {i : ℕ} {r : Run} (hr : s.idle[i]? = some r) :
    s.runs.Perm (r :: (s.stack ++ s.idle.eraseIdx i)) := by
  obtain ⟨hlt, rfl⟩ := List.getElem?_eq_some_iff.1 hr
  refine ((List.getElem_cons_eraseIdx_perm hlt).symm.append_left s.stack).trans ?_
  exact List.perm_middle

theorem runs_perm_settle (ex : Executor V) (idle rest : List Run) (r : Run) :
    (settle ex idle rest r).runs.Perm (r :: (rest ++ idle)) := by
  rw [settle]
  split
  · show (rest ++ (idle ++ [r])).Perm _
    rw [← List.append_assoc]
    exact List.perm_append_singleton r _
  · exact List.Perm.refl _

/-- A `run` future that is not the innermost one of those that are being polled. -/
def IsStill (r : Run) : Prop := r.pc = .pollMain ∨ r.pc = .dropMain ∨ r.pc.isIdle = true

theorem IsStill.resting {r : Run} (h : IsStill r) (hlive : r.pc.outlook ≠ .outside) :
    r.pc.outlook = .resting := by
  rcases h with hpc | hpc | hpc
  · rw [hpc]
    rfl
  · exact absurd (by rw [hpc]; rfl) hlive
  · rcases hr : r.pc
    case pending => rfl
    case created | done => exact absurd (by rw [hr]; rfl) hlive
    all_goals exact absurd hpc (by simp [hr, Pc.isIdle])

theorem IsStill.ne_pollFirst {r : Run} (h : IsStill r) (task : SpawnedTask) (w key : ℕ) :
    r.pc ≠ .pollFirst task w key := by
  rcases h with hpc | hpc | hpc
  · simp [hpc]
  · simp [hpc]
  · intro hr
    exact absurd hpc (by simp [hr, Pc.isIdle])

/-- All `run` futures with the histories of their main futures. -/
structure MainInv (t : Logged (Overlapping V) ℕ MainEvent) : Prop where
  crew : Crew t.state.ex t.log t.state.runs
  still : ∀ r ∈ t.state.stack.tail ++ t.state.idle, IsStill r
  tasks : TaskWakers t.state.ex t.state.pc
  /-- A waker that is yet to be made has no history. -/
  fresh : ∀ w, t.state.ex.wakers.length ≤ w → IsFresh (t.log w)
  paid : ∀ w, Paid (t.log w)

/-- The step does not pop the last id that stands for a main future while the main future of another
`run` future has been woken, unless a call is about to push the id for it. -/
def PopsOwn (t : Logged (Overlapping V) ℕ MainEvent) (a : Act V) : Prop :=
  ∀ b r rest q, a = .run b → t.state.stack = r :: rest →
    t.state.ex.nextPop r.pc = some (MAIN_TASK_ID, q) → ¬ q.Has MAIN_TASK_ID →
    ∀ r' ∈ rest ++ t.state.idle, r'.pc.outlook = .resting → t.state.ex.Awoken r'.mainWaker →
      t.state.ex.Pushing r'.mainWaker

/-- If the step is the end of the last call of `TaskWaker::wake` for a main future, the base waker
that it wakes is the waker that its `run` future was last polled with, unless that waker has been
woken since. -/
def WakesOwn (t : Logged (Overlapping V) ℕ MainEvent) (a : Act V) : Prop :=
  ∀ i w onLocal, a = .ex (.fire i) → t.state.ex.flights[i]? = some ⟨w, .base, onLocal⟩ →
    (∀ f ∈ t.state.ex.flights.eraseIdx i, f.waker ≠ w) →
    ∀ r ∈ t.state.runs, r.pc.outlook = .resting → r.mainWaker = w → t.state.ex.Awoken w →
      t.state.ex.queue.baseWaker.registered = some r.cx ∨ Roused r.cx (t.log w)

/-- No main future's wakeup is taken by another `run` future in this step. -/
def StealsNothing (t : Logged (Overlapping V) ℕ MainEvent) (a : Act V) : Prop :=
  PopsOwn t a ∧ WakesOwn t a

variable {t u : Logged (Overlapping V) ℕ MainEvent}

theorem MainInv.init : MainInv (⟨init, fun _ ↦ []⟩ : Logged (Overlapping V) ℕ MainEvent) where
  crew := ⟨fun _ hr ↦ absurd hr List.not_mem_nil, List.Pairwise.nil⟩
  still _ hr := absurd hr List.not_mem_nil
  tasks := ⟨fun _ _ hget ↦ absurd hget (by simp [Overlapping.init, Executor.new]),
    fun _ _ _ hpc ↦ absurd hpc (by simp [Overlapping.init, pc])⟩
  fresh _ _ _ he := absurd he List.not_mem_nil
  paid _ before after heq := absurd heq (by simp)

/-- The other `run` futures while the innermost one makes a step. -/
theorem MainInv.serves_other {b : RunAct V} {r r' : Run} {rest : List Run} {ex' : Executor V}
    (h : MainInv t) (hC : PopsOwn t (.run b)) (hstack : t.state.stack = r :: rest)
    (ht : t.state.ex.Trans r ex' r') {R : Run} (hR : R ∈ rest ++ t.state.idle)
    (hlive : R.pc.outlook ≠ .outside) :
    Serves ex' R (t.log R.mainWaker ++ t.state.ex.transEvents R.mainWaker r r') := by
  have hruns : t.state.runs = r :: (rest ++ t.state.idle) := by rw [runs, hstack, List.cons_append]
  have hcrew := h.crew
  rw [hruns] at hcrew
  have hs := hcrew.serves R (List.mem_cons_of_mem _ hR) hlive
  have hresting : R.pc.outlook = .resting := by
    refine (h.still R ?_).resting hlive
    rwa [hstack]
  refine hs.other hresting ht (fun hpc ↦ ?_) (fun hr ↦ ?_) (fun key task hget ↦ ?_)
    fun q hpop hq ha ↦ ?_
  · exact (hcrew.serves r List.mem_cons_self (by simp [hpc, Pc.outlook])).reset hpc
  · exact (List.pairwise_cons.1 hcrew.apart).1 R hR hr hlive
  · exact hs.ne_of_isTaskWaker (h.tasks.tasks key task hget)
  · exact hC b r rest q rfl hstack hpop hq R hR hresting ha

/-- **A step of the innermost `run` future**, unless it pops what stands for another one. -/
theorem MainInv.run {b : RunAct V} {r r' : Run} {rest : List Run} {ex' : Executor V} (h : MainInv t)
    (hC : PopsOwn t (.run b)) (hstack : t.state.stack = r :: rest)
    (hstep : t.state.ex.runStep r b = some (ex', r')) :
    MainInv ⟨settle ex' t.state.idle rest r',
      fun w ↦ t.log w ++ t.state.mainEvents (.run b) w⟩ := by
  have ht := trans_of_runStep hstep
  have hev : ∀ w, t.state.mainEvents (.run b) w = t.state.ex.transEvents w r r' := by
    intro w
    simp only [mainEvents, hstack, hstep, Option.map_some, Option.getD_some]
  have hruns : t.state.runs = r :: (rest ++ t.state.idle) := by rw [runs, hstack, List.cons_append]
  have hcrew := h.crew
  rw [hruns] at hcrew
  have hpc : t.state.pc = r.pc := pc_of_stack hstack
  have htasks := h.tasks
  rw [hpc] at htasks
  have hex : (settle ex' t.state.idle rest r').ex = ex' := ex_settle ex' t.state.idle rest r'
  have hstill : ∀ R ∈ rest ++ t.state.idle, IsStill R := by
    have hst := h.still
    rwa [hstack] at hst
  have hmain : r'.mainWaker = r.mainWaker := ht.mainWaker_eq
  simp only [hev]
  refine ⟨?_, ?_, ?_, fun w hw ↦ ?_, fun w ↦ ?_⟩
  · refine Crew.perm ?_ (runs_perm_settle ex' t.state.idle rest r').symm
    rw [hex]
    refine hcrew.move (fun hlive' ↦ ?_) (fun R hR ↦ h.serves_other hC hstack ht hR)
      fun R hR hlive' ↦ ?_
    · have hs := hcrew.serves r List.mem_cons_self (outlook_of_trans ht hlive')
      rw [hmain]
      exact hs.trans ht hlive' fun key task hget ↦ hs.ne_of_isTaskWaker (htasks.tasks key task hget)
    · rw [hmain]
      exact (List.pairwise_cons.1 hcrew.apart).1 R hR (outlook_of_trans ht hlive')
  · intro R hR
    rw [settle] at hR
    split at hR
    next hidle =>
      rcases List.mem_append.1 hR with hR | hR
      · exact hstill R (List.mem_append_left _ (List.mem_of_mem_tail hR))
      · rcases List.mem_append.1 hR with hR | hR
        · exact hstill R (List.mem_append_right _ hR)
        · rw [List.mem_singleton.1 hR]
          exact Or.inr (Or.inr hidle)
    next => exact hstill R hR
  · have hnew := htasks.trans ht
    rw [settle]
    split
    next hidle =>
      -- the next one out is in its main future
      refine hnew.move (fun _ hw ↦ hw) (fun _ _ hget ↦ hget) fun task w key ↦ ?_
      rw [pc]
      rcases hhead : rest.head? with - | R
      · simp
      · have hR := hstill R (List.mem_append_left _ (List.mem_of_mem_head? hhead))
        simpa [hhead] using hR.ne_pollFirst task w key
    next => exact hnew
  · rw [hex] at hw
    have hw' : t.state.ex.wakers.length ≤ w := Nat.le_trans (length_wakers_of_trans ht) hw
    rcases transEvents_cases ht w with ⟨hes, hwoken⟩ | ⟨rfl, hr, -⟩
    · exact (h.fresh w hw').append hes (hwoken hw')
    · have hlt := (hcrew.serves r List.mem_cons_self hr).lt_wakers
      omega
  · show Paid (t.log w ++ t.state.ex.transEvents w r r')
    rcases transEvents_cases ht w with ⟨hes, -⟩ | ⟨rfl, hr, hev' | ⟨hev', hresting⟩⟩
    · exact (h.paid w).append hes
    · rw [hev']
      exact (h.paid _).concat (by simp)
    · rw [hev']
      refine (h.paid _).concat fun _ ho ↦ ?_
      have hah := (hcrew.serves r List.mem_cons_self hr).owed ho
      rw [hresting] at hah
      exact hah

/-- **A poll of a `run` future begins.** Its main future has a new waker if it is the first one. -/
theorem MainInv.poll {i cx : ℕ} {r r' : Run} {ex' : Executor V} (h : MainInv t)
    (hr : t.state.idle[i]? = some r) (hcan : t.state.canPoll = true)
    (hbegin : t.state.ex.beginPoll r cx = some (ex', r')) :
    MainInv ⟨⟨ex', t.state.idle.eraseIdx i, r' :: t.state.stack⟩,
      fun w ↦ t.log w ++ t.state.mainEvents (.poll i cx) w⟩ := by
  have hev : ∀ w, t.state.mainEvents (.poll i cx) w =
      if w = r'.mainWaker then [.began cx (t.state.ex.isPushing w)] else [] := by
    intro w
    simp only [mainEvents, hr, Option.bind_some, hbegin]
  have hcrew := h.crew.perm (runs_perm_poll hr)
  have hstill : ∀ R ∈ t.state.stack ++ t.state.idle.eraseIdx i, IsStill R := by
    intro R hR
    rcases List.mem_append.1 hR with hR | hR
    · refine forall_mem_stack_of_canPoll hcan (fun R hpc ↦ ?_) (fun R hR ↦ ?_) R hR
      · exact hpc.imp_right Or.inl
      · exact h.still R (List.mem_append_left _ hR)
    · exact h.still R (List.mem_append_right _ (List.mem_of_mem_eraseIdx hR))
  have hpaid : ∀ w, Paid (t.log w ++ t.state.mainEvents (.poll i cx) w) := by
    intro w
    rw [hev]
    split
    · exact (h.paid w).concat (by simp)
    · rw [List.append_nil]
      exact h.paid w
  obtain ⟨-, rfl, rfl⟩ | ⟨hpc, rfl, rfl⟩ := beginPoll_cases hbegin
  · have hne : ∀ R ∈ t.state.stack ++ t.state.idle.eraseIdx i, R.pc.outlook ≠ .outside →
        R.mainWaker ≠ t.state.ex.wakers.length := by
      intro R hR hlive
      exact Nat.ne_of_lt (hcrew.serves R (List.mem_cons_of_mem _ hR) hlive).lt_wakers
    refine ⟨hcrew.move (fun _ ↦ ?_) (fun R hR hlive ↦ ?_) fun R hR _ hlive ↦ (hne R hR hlive).symm,
      hstill, ⟨fun key task hget ↦ ?_, fun _ _ _ hpc' ↦ absurd hpc' (by simp [pc])⟩,
      fun w hw ↦ ?_, hpaid⟩
    · simp only [hev, if_true]
      exact Serves.first (h.fresh _ (Nat.le_refl _)) cx _
    · have hs := hcrew.serves R (List.mem_cons_of_mem _ hR) hlive
      simp only [hev, hne R hR hlive, if_false, List.append_nil]
      -- the reset leaves the id of the main futures in the queue
      exact hs.yield ((hstill R hR).resting hlive) (List.getElem?_append_left hs.lt_wakers) rfl
        (fun _ hc ↦ hc) fun _ _ ↦ Or.inl (Or.inl (List.mem_singleton_self _))
    · exact (h.tasks.tasks key task hget).append rfl
    · have hlt : t.state.ex.wakers.length < w := by
        have hw : (t.state.ex.wakers ++ [TaskWaker.new MAIN_TASK_ID]).length ≤ w := hw
        rw [List.length_append, List.length_singleton] at hw
        omega
      simp only [hev, Nat.ne_of_gt hlt, if_false, List.append_nil]
      exact h.fresh w (Nat.le_of_lt hlt)
  · have hr : r.pc.outlook ≠ .outside := by simp [hpc, Pc.outlook]
    have hs := hcrew.serves r List.mem_cons_self hr
    have hapart := (List.pairwise_cons.1 hcrew.apart).1
    refine ⟨hcrew.move (fun _ ↦ ?_) (fun R hR hlive ↦ ?_) fun R hR _ ↦ hapart R hR hr, hstill,
      ⟨h.tasks.tasks, fun _ _ _ hpc' ↦ absurd hpc' (by simp [pc])⟩, fun w hw ↦ ?_, hpaid⟩
    · simp only [hev, if_true]
      exact hs.begin hpc cx
    · simp only [hev, (hapart R hR hr hlive).symm, if_false, List.append_nil]
      exact hcrew.serves R (List.mem_cons_of_mem _ hR) hlive
    · have hlt : r.mainWaker < w := Nat.lt_of_lt_of_le hs.lt_wakers hw
      simp only [hev, Nat.ne_of_gt hlt, if_false, List.append_nil]
      exact h.fresh w hw

/-- **Code that is not the executor's**, unless it wakes the base waker of another one. -/
theorem MainInv.ex {a : Executor.Act} {ex' : Executor V} (h : MainInv t) (hC : WakesOwn t (.ex a))
    (hact : t.state.ex.act a = some ex') :
    MainInv ⟨{ t.state with ex := ex' }, fun w ↦ t.log w ++ t.state.mainEvents (.ex a) w⟩ := by
  have hsig := signal_of_act hact
  refine ⟨⟨fun r hr hlive ↦ ?_, h.crew.apart⟩, h.still, h.tasks.touch hsig.touch, fun w hw ↦ ?_,
    fun w ↦ (h.paid w).append (hsig.isSignal w)⟩
  · refine (h.crew.serves r hr hlive).signal hsig hlive fun hresting ha hfl hfl' ↦ ?_
    obtain ⟨i, onLocal, rfl, hi, hleft⟩ := exists_fire_of_act hact hfl hfl'
    exact hC i r.mainWaker onLocal rfl hi hleft r hr hresting rfl ha
  · have hw : t.state.ex.wakers.length ≤ w := by
      rw [← length_wakers_of_touch hsig.touch]
      exact hw
    exact (h.fresh w hw).append (hsig.isSignal w) (hsig.lt w hw)

/-- **One step takes no wakeup**, unless it is one that steals. -/
theorem MainInv.step {a : Act V} (h : MainInv t) (hC : StealsNothing t a)
    (hs : (chronicle V).step t a = some u) : MainInv u := by
  obtain ⟨v, hv, rfl⟩ := Machine.step_logged_eq_some.1 hs
  cases step_cases (show t.state.step a = some v from hv)
  case newRun =>
    have hnil : ∀ w, t.log w ++ t.state.mainEvents .newRun w = t.log w := fun w ↦ List.append_nil _
    simp only [hnil]
    refine ⟨?_, fun r hr ↦ ?_, h.tasks, h.fresh, h.paid⟩
    · have hnew : Crew t.state.ex t.log (.new :: t.state.runs) := by
        refine ⟨fun r hr ↦ ?_, List.pairwise_cons.2 ⟨fun r _ hr ↦ absurd rfl hr, h.crew.apart⟩⟩
        rcases List.mem_cons.1 hr with rfl | hr
        · exact fun hlive ↦ absurd rfl hlive
        · exact h.crew.serves r hr
      refine hnew.perm ?_
      show (Run.new :: (t.state.stack ++ t.state.idle)).Perm
        (t.state.stack ++ (t.state.idle ++ [.new]))
      rw [← List.append_assoc]
      exact (List.perm_append_singleton _ _).symm
    · rcases List.mem_append.1 hr with hr | hr
      · exact h.still r (List.mem_append_left _ hr)
      · rcases List.mem_append.1 hr with hr | hr
        · exact h.still r (List.mem_append_right _ hr)
        · rw [List.mem_singleton.1 hr]
          exact Or.inr (Or.inr rfl)
  case dropRun i =>
    have hnil : ∀ w, t.log w ++ t.state.mainEvents (.dropRun i) w = t.log w :=
      fun w ↦ List.append_nil _
    have hsub : (t.state.idle.eraseIdx i).Sublist t.state.idle := List.eraseIdx_sublist _ _
    simp only [hnil]
    refine ⟨h.crew.sublist (hsub.append_left _), fun r hr ↦ ?_, h.tasks, h.fresh, h.paid⟩
    exact h.still r ((hsub.append_left _).subset hr)
  case poll hr hcan hbegin => exact h.poll hr hcan hbegin
  case run hstack hstep => exact h.run hC.1 hstack hstep
  case ex hact _ => exact h.ex hC.2 hact

/-! ### Stealing -/

/-- What overlapping `run` futures owe each other.

* A wake of a main future that has not been polled since is not used up: its id is in the queue, or
  about to be pushed, or has been popped by its own `run` future.
* A poll of `run` that begins after the main future has been woken polls it before it returns
  pending. A wake counts from its push on.
* Between the polls of a main future, if it has been woken and no call is still in progress, the
  waker that its `run` future was last polled with has been woken since that poll began. -/
structure MainServed (t : Logged (Overlapping V) ℕ MainEvent) : Prop where
  kept : ∀ r ∈ t.state.runs, r.pc.outlook ≠ .outside → Called (t.log r.mainWaker) →
    t.state.ex.Traced (some r) r.mainWaker MAIN_TASK_ID
  polled : ∀ w, Paid (t.log w)
  woken : ∀ r ∈ t.state.runs, r.pc.outlook = .resting → Called (t.log r.mainWaker) →
    ¬ t.state.ex.InFlight r.mainWaker → Roused r.cx (t.log r.mainWaker)

theorem MainInv.mainServed (h : MainInv t) : MainServed t := by
  refine ⟨fun r hr hlive hc ↦ ?_, h.paid, fun r hr hresting hc hfl ↦ ?_⟩
  · have hs := h.crew.serves r hr hlive
    exact hs.kept.traced (hs.called.2 hc)
  · have hs := h.crew.serves r hr (by simp [hresting])
    rcases hs.ahead (hs.called.2 hc) with hah | hfl' | hroused
    · rw [hresting] at hah
      exact hah.elim
    · exact absurd hfl' hfl
    · exact hroused

/-- The step that pops an id. -/
theorem eq_of_nextPop {ex ex' : Executor V} {r r' : Run} {id : ℕ} {q : WakeQueue}
    (ht : ex.Trans r ex' r') (hpop : ex.nextPop r.pc = some (id, q)) :
    ex' = { ex with queue := q } ∧
      ∃ d d', r.pc = .drain d ∧ r' = { r with pc := .popped id d' } := by
  cases ht
  case popLocal n m awoken id' rest hpc hq =>
    simp only [hpc, nextPop, hq, Option.some.injEq, Prod.mk.injEq] at hpop
    obtain ⟨rfl, rfl⟩ := hpop
    exact ⟨rfl, _, _, hpc, rfl⟩
  case popConcurrent m awoken id' rest hpc hq =>
    simp only [hpc, nextPop, hq, Option.some.injEq, Prod.mk.injEq] at hpop
    obtain ⟨rfl, rfl⟩ := hpop
    exact ⟨rfl, _, _, hpc, rfl⟩
  case drained m awoken hpc hq =>
    rw [hpc] at hpop
    rcases hq with rfl | hq
    · exact absurd hpop (by simp [nextPop])
    · rcases m with - | m
      · exact absurd hpop (by simp [nextPop])
      · exact absurd hpop (by simp [nextPop, hq])
  case unwrap hpc hq => exact absurd hpop (by simp [hpc, nextPop, hq])
  case borrowTasks hpc _ =>
    rcases hpc with hpc | hpc | hpc <;> exact absurd hpop (by simp [hpc, nextPop])
  case borrowSpawned hpc _ =>
    rcases hpc with hpc | hpc <;> exact absurd hpop (by simp [hpc, nextPop])
  all_goals exact absurd hpop (by simp [‹r.pc = _›, nextPop])

/-- A pop that takes the last id takes the wakeup. -/
theorem MainInv.not_mainServed_of_pop {a : Act V} (h : MainInv t) (hC : ¬ PopsOwn t a)
    (hs : (chronicle V).step t a = some u) : ¬ MainServed u := by
  simp only [PopsOwn, not_forall] at hC
  obtain ⟨b, r, rest, q, rfl, hstack, hpop, hq, R, hR, hresting, ha, hpushing⟩ := hC
  obtain ⟨v, hv, rfl⟩ := Machine.step_logged_eq_some.1 hs
  cases step_cases (show t.state.step (.run b) = some v from hv)
  case run r₁ r' rest₁ ex' hstack' hstep =>
    rw [hstack] at hstack'
    obtain ⟨rfl, rfl⟩ := List.cons.inj hstack'
    obtain ⟨rfl, d, d', hpc, rfl⟩ := eq_of_nextPop (trans_of_runStep hstep) hpop
    have hlive : R.pc.outlook ≠ .outside := by simp [hresting]
    have hserves := h.crew.serves R (by rw [runs, hstack]; exact List.mem_cons_of_mem _ hR) hlive
    have hlog : ∀ w, t.state.mainEvents (.run b) w = [] := by
      intro w
      simp only [mainEvents, hstack, hstep, Option.map_some, Option.getD_some, transEvents, hpc]
    intro hserved
    have hcalled : Called (t.log R.mainWaker ++ t.state.mainEvents (.run b) R.mainWaker) := by
      rw [hlog, List.append_nil]
      exact hserves.called.1 ha
    have hmem : R ∈ (settle { t.state.ex with queue := q } t.state.idle rest
        { r with pc := .popped MAIN_TASK_ID d' }).runs := List.mem_cons_of_mem _ hR
    rcases hserved.kept R hmem hlive hcalled with hhas | hp | ⟨R', hR', hp⟩
    · exact hq hhas
    · exact hpushing hp
    · obtain rfl := Option.some.inj hR'
      exact Pc.not_popped_of_resting hresting hp

/-- A base waker of another `run` future takes the wakeup. -/
theorem MainInv.not_mainServed_of_wake {a : Act V} (h : MainInv t) (hC : ¬ WakesOwn t a)
    (hs : (chronicle V).step t a = some u) : ¬ MainServed u := by
  simp only [WakesOwn, not_forall] at hC
  obtain ⟨i, w, onLocal, rfl, hi, hleft, R, hR, hresting, rfl, ha, hno⟩ := hC
  obtain ⟨hregistered, hroused⟩ := not_or.1 hno
  obtain ⟨v, hv, rfl⟩ := Machine.step_logged_eq_some.1 hs
  cases step_cases (show t.state.step (.ex (.fire i)) = some v from hv)
  case ex ex' hact _ =>
    obtain ⟨_, _, -, rfl⟩ := fire_eq_some hact
    have hsig := signal_of_act hact
    have hserves := h.crew.serves R hR (by simp [hresting])
    intro hserved
    have hnew := hserved.woken R hR hresting ?_ ?_
    · have hev : t.state.mainEvents (.ex (.fire i)) R.mainWaker =
          t.state.ex.queue.baseWaker.slot.toList.map .heard := rfl
      have hnew :
          Roused R.cx (t.log R.mainWaker ++ t.state.mainEvents (.ex (.fire i)) R.mainWaker) := hnew
      rw [hev] at hnew
      rcases hslot : t.state.ex.queue.baseWaker.slot with - | c
      · rw [hslot] at hnew
        simp only [Option.toList_none, List.map_nil, List.append_nil] at hnew
        exact hroused hnew
      · rw [hslot] at hnew
        rcases roused_concat.1 hnew with hc | ⟨-, hold⟩
        · -- what is woken is what is registered
          obtain rfl := MainEvent.heard.inj hc
          rcases t.state.ex.queue.baseWaker.slot_or_woken with heq | ⟨hnone, -⟩
          · exact hregistered (heq ▸ hslot)
          · exact absurd hslot (by simp [hnone])
        · exact hroused hold
    · exact (called_append (hsig.isSignal R.mainWaker)).2 (Or.inl (hserves.called.1 ha))
    · rintro ⟨f, hf, hfw⟩
      exact hleft f hf hfw

/-- **The wakeups of overlapping runs, exactly.** In a run of an executor with any number of `run`
futures, polled in any order with any wakers, one beside the other or one inside the main future of
another, with wakes from any threads: in every state every main future is served (`MainServed`), if
and only if no drain pops the last id that stands for a wake of another one's main future, and no
call of `TaskWaker::wake` for a main future ends at a base waker that is not the one of its `run`
future, which nobody else has woken (`StealsNothing`). -/
theorem main_wakeups_kept_iff (as : List (Act V)) (t : Logged (Overlapping V) ℕ MainEvent)
    (hrun : (chronicle V).run ⟨init, fun _ ↦ []⟩ as = some t) :
    (∀ u, (chronicle V).Visits ⟨init, fun _ ↦ []⟩ as u → MainServed u) ↔
      (chronicle V).AllSteps StealsNothing ⟨init, fun _ ↦ []⟩ as := by
  refine Machine.forall_visits_iff_allSteps (I := MainInv) (fun _ h ↦ h.mainServed)
    (fun _ _ _ h hC hs ↦ h.step hC hs) (fun s a _ h hC hs ↦ ?_) .init hrun
  by_cases hpops : PopsOwn s a
  · exact h.not_mainServed_of_wake (fun hwakes ↦ hC ⟨hpops, hwakes⟩) hs
  · exact h.not_mainServed_of_pop hpops hs

/-- The rest of a poll that polls its main future, which returns pending. -/
def pollMainOnce (n : ℕ) : List (Act Unit) :=
  List.append (List.replicate n (.run .tick)) [.run (.ret none), .run .tick, .run .tick]

/-- Two `run` futures are polled for the first time, in turn. -/
def joinTwo (cx cx' : ℕ) : List (Act Unit) :=
  List.flatten [[.newRun, .newRun, .poll 0 cx], pollMainOnce 7, [.poll 0 cx'], pollMainOnce 7]

/-- Another thread wakes the main future of the second one, and both are polled again. -/
def joinedRuns : List (Act Unit) :=
  List.flatten [joinTwo 7 7, [.ex (.wake 1 false), .ex (.push 0), .ex (.fire 0), .poll 0 7],
    pollMainOnce 6, [.poll 0 7], List.replicate 6 (.run .tick)]

/-- Each is polled with a waker of its own, and another thread wakes the main future of the first
one. -/
def separateWakers : List (Act Unit) :=
  List.flatten [joinTwo 7 8, [.ex (.wake 0 false), .ex (.push 0), .ex (.fire 0)]]

/-- Another thread wakes the main future of the second one, which is polled next. -/
def wokenThenPolled : List (Act Unit) :=
  List.flatten [joinTwo 7 7, [.ex (.wake 1 false), .ex (.push 0), .ex (.fire 0), .poll 1 7],
    pollMainOnce 6]

theorem main_wakeups_kept_iff_wokenThenPolled :
    ∃ t, (chronicle Unit).run ⟨init, fun _ ↦ []⟩ wokenThenPolled = some t ∧
      t.log 1 = [.began 7 false, .polled, .pended, .woken, .heard 7, .began 7 false, .polled,
        .pended] ∧
      ((∀ u, (chronicle Unit).Visits ⟨init, fun _ ↦ []⟩ wokenThenPolled u → MainServed u) ↔
        (chronicle Unit).AllSteps StealsNothing ⟨init, fun _ ↦ []⟩ wokenThenPolled) :=
  ⟨_, rfl, rfl, main_wakeups_kept_iff wokenThenPolled _ rfl⟩

/-- **Overlapping runs steal each other's wakeups.** In the first run the drain of one takes the id
that the main future of the other was woken with, and the poll of the other one leaves its main
future alone. In the second one only the waker of the `run` future that was polled last is woken. -/
theorem joinedRuns_steal :
    (∃ t, (chronicle Unit).run ⟨init, fun _ ↦ []⟩ joinedRuns = some t ∧ ¬ MainServed t ∧
      t.log 1 = [.began 7 false, .polled, .pended, .woken, .heard 7, .began 7 false, .pended]) ∧
    ∃ t, (chronicle Unit).run ⟨init, fun _ ↦ []⟩ separateWakers = some t ∧ ¬ MainServed t ∧
      t.log 0 = [.began 7 false, .polled, .pended, .woken, .heard 8] := by
  constructor
  · refine ⟨_, rfl, fun hserved ↦ ?_, rfl⟩
    have hcalled : Called [.began 7 false, .polled, .pended, .woken, .heard 7] :=
      ⟨[.began 7 false, .polled, .pended], .woken, [.heard 7], rfl, rfl, by simp⟩
    refine hserved.polled 1 [.began 7 false, .polled, .pended, .woken, .heard 7,
      .began 7 false] [] rfl ?_
    exact ⟨[.began 7 false, .polled, .pended, .woken, .heard 7], .began 7 false, [], rfl,
      ⟨⟨7, rfl⟩, hcalled⟩, by simp⟩
  · refine ⟨_, rfl, fun hserved ↦ ?_, rfl⟩
    have hcalled : Called [.began 7 false, .polled, .pended, .woken, .heard 8] :=
      ⟨[.began 7 false, .polled, .pended], .woken, [.heard 8], rfl, rfl, by simp⟩
    have hroused : Roused 7 [.began 7 false, .polled, .pended, .woken, .heard 8] := by
      refine hserved.woken ⟨.pending, 0, 7⟩ List.mem_cons_self rfl hcalled ?_
      rintro ⟨f, hf, -⟩
      exact absurd hf List.not_mem_nil
    obtain ⟨before, e, after, heq, rfl, -⟩ := hroused
    have hmem : MainEvent.heard 7 ∈ [.began 7 false, .polled, .pended, .woken, .heard 8] := by
      rw [heq]
      simp
    exact absurd hmem (by decide)

end Overlapping

end LocalRuntime
