import LocalRuntime.Executor.Wakeups

/-!
# Wakeups across runs

A `run` future that is dropped leaves its tasks in the slab. If one of them is woken, its flag is
set and its id is pushed; the first poll of the next `run` future then empties the queue and leaves
the flag as it is. From then on the task is deaf: its wakers do nothing, since the flag is set, and
nothing will poll it.

What matters is on which side of the reset the push falls. A wake that has set the flag and pushes
after the reset is heard. `PushesAfterReset` asks this of the tasks that are left behind, and
`leftover_kept_iff` says that the runs that meet it are **exactly** those in which no flag is set in
vain: in them every flag has its trace throughout (`ResetInv`), and in the others a reset ends with
a task that is deaf (`Deaf`).
-/

namespace LocalRuntime

variable {V : Type}

namespace Executor

variable {ex ex' : Executor V} {w i : ℕ}

/-- The call of `wake` at place `i` is not the last one that is about to push for a task of the slab
whose flag is set. -/
def PushIsSpare (ex : Executor V) (i : ℕ) : Prop :=
  ∀ k task tw f, ex.tasks.get k = some task → ex.wakers[task.waker]? = some tw → tw.awoken = true →
    ex.flights[i]? = some f → f.waker = task.waker →
    ∃ g ∈ ex.flights.eraseIdx i, g.waker = task.waker ∧ g.phase = .push

instance (ex : Executor V) (w : ℕ) : Decidable (ex.Pushing w) :=
  inferInstanceAs (Decidable (∃ f ∈ ex.flights, f.waker = w ∧ f.phase = .push))

theorem forall_get_iff {P : ℕ → Task → Prop} :
    (∀ k < ex.tasks.entries.length, ∀ task ∈ ex.tasks.get k, P k task) ↔
      ∀ k task, ex.tasks.get k = some task → P k task := by
  refine ⟨fun h k task hk ↦ h k ?_ task hk, fun h k _ task hk ↦ h k task hk⟩
  rw [Slab.get, Option.join_eq_some_iff] at hk
  exact (List.getElem?_eq_some_iff.1 hk).1

instance (ex : Executor V) : Decidable ex.Unpushed :=
  decidable_of_iff (∀ k < ex.tasks.entries.length, ∀ task ∈ ex.tasks.get k,
    ∀ tw ∈ ex.wakers[task.waker]?, tw.awoken = true → ex.Pushing task.waker) <| by
      rw [forall_get_iff (P := fun _ task ↦
        ∀ tw ∈ ex.wakers[task.waker]?, tw.awoken = true → ex.Pushing task.waker)]
      exact ⟨fun h k task tw hk hw ↦ h k task hk tw hw, fun h k task hk tw hw ↦ h k task tw hk hw⟩

instance (ex : Executor V) (i : ℕ) : Decidable (ex.PushIsSpare i) :=
  decidable_of_iff (∀ k < ex.tasks.entries.length, ∀ task ∈ ex.tasks.get k,
    ∀ tw ∈ ex.wakers[task.waker]?, tw.awoken = true → ∀ f ∈ ex.flights[i]?, f.waker = task.waker →
      ∃ g ∈ ex.flights.eraseIdx i, g.waker = task.waker ∧ g.phase = .push) <| by
    rw [forall_get_iff (P := fun _ task ↦ ∀ tw ∈ ex.wakers[task.waker]?, tw.awoken = true →
      ∀ f ∈ ex.flights[i]?, f.waker = task.waker →
        ∃ g ∈ ex.flights.eraseIdx i, g.waker = task.waker ∧ g.phase = .push)]
    exact ⟨fun h k task tw f hk hw hawoken hf ↦ h k task hk tw hw hawoken f hf,
      fun h k task hk tw hw hawoken f hf ↦ h k task tw f hk hw hawoken hf⟩

/-- A task in the slab has its flag set, and no call is about to push its id. -/
def Deaf (ex : Executor V) (k : ℕ) : Prop :=
  k ≠ MAIN_TASK_ID ∧ ∃ task tw, ex.tasks.get k = some task ∧ ex.wakers[task.waker]? = some tw ∧
    tw.awoken = true ∧ ¬ ex.Pushing task.waker

theorem Pushing.wake (h : ex.Pushing w) (v : ℕ) (onLocal : Bool) :
    (ex.wake v onLocal).Pushing w := by
  obtain ⟨f, hf, hfw⟩ := h
  rw [Executor.wake]
  split
  · exact ⟨f, List.mem_append_left _ hf, hfw⟩
  · exact ⟨f, hf, hfw⟩

/-- A call that is about to push stays so until it does. -/
theorem Pushing.act {a : Act} (h : ex.Pushing w) (ha : ex.act a = some ex')
    (hne : ∀ i, a ≠ .push i) : ex'.Pushing w := by
  rcases a with - | hd | ⟨hd, waker⟩ | ⟨v, onLocal⟩ | i | i | b
  · obtain rfl := Option.some.inj ha
    rw [spawn]
    split
    · exact h
    · exact h
  · obtain rfl := Option.some.inj ha
    simp only [cancel]
    split
    · have h : Pushing { ex with handles := ex.handles.modify hd fun _ ↦ ⟨true, none⟩ } w := h
      exact h.wake _ _
    · exact h
  · obtain rfl := Option.some.inj ha
    obtain ⟨_, heq⟩ := exists_pollHandle_eq ex hd waker
    rw [heq]
    exact h
  · obtain rfl := Option.some.inj ha
    exact h.wake v onLocal
  · exact absurd rfl (hne i)
  · obtain ⟨v, onLocal, hi, rfl⟩ := fire_eq_some ha
    obtain ⟨f, hf, hfw, hphase⟩ := h
    obtain ⟨j, hj⟩ := List.mem_iff_getElem?.1 hf
    refine ⟨f, List.mem_eraseIdx_iff_getElem?.2 ⟨j, ?_, hj⟩, hfw, hphase⟩
    -- the call that is over has pushed
    rintro rfl
    rw [hi] at hj
    exact absurd (congrArg Flight.phase (Option.some.inj hj)) (by simp [hphase])
  · obtain rfl := Option.some.inj ha
    exact h

theorem Pushing.push {g : Flight} (ha : ex.act (.push i) = some ex')
    (hg : g ∈ ex.flights.eraseIdx i) (hphase : g.phase = .push) : ex'.Pushing g.waker := by
  obtain ⟨v, onLocal, tv, hi, hv, rfl⟩ := push_eq_some ha
  obtain ⟨j, hne, hj⟩ := List.mem_eraseIdx_iff_getElem?.1 hg
  refine ⟨g, List.mem_iff_getElem?.2 ⟨j, ?_⟩, rfl, hphase⟩
  rw [List.getElem?_set_ne hne.symm, hj]

/-- **The flags of the tasks stay unpushed** as long as no call pushes that is the last one. -/
theorem Unpushed.act {a : Act} (h : ex.Unpushed) (ha : ex.act a = some ex')
    (hspare : ∀ i, a = .push i → ex.PushIsSpare i) : ex'.Unpushed := by
  intro k task tw hk hw hawoken
  have ht := touch_of_act ha
  rw [ht.tasks_eq] at hk
  have hkeeps : ex.wakers[task.waker]? = some tw → ex'.Pushing task.waker := by
    intro hw
    have hpushing := h k task tw hk hw hawoken
    by_cases hpush : ∃ i, a = .push i
    · obtain ⟨i, rfl⟩ := hpush
      obtain ⟨f, hf, hfw, hphase⟩ := hpushing
      obtain ⟨j, hj⟩ := List.mem_iff_getElem?.1 hf
      by_cases hji : j = i
      · obtain ⟨g, hg, hgw, hgphase⟩ := hspare i rfl k task tw f hk hw hawoken (hji ▸ hj) hfw
        exact hgw ▸ Pushing.push ha hg hgphase
      · exact hfw ▸ Pushing.push ha (List.mem_eraseIdx_iff_getElem?.2 ⟨j, hji, hj⟩) hphase
    · exact hpushing.act ha fun i heq ↦ hpush ⟨i, heq⟩
  cases ht
  case claim v id onLocal hv _ hwakers hflights _ =>
    by_cases heq : v = task.waker
    · -- the call that has just claimed the flag is about to push
      rw [Pushing, hflights]
      exact ⟨⟨v, .push, onLocal⟩, by simp, heq, rfl⟩
    · refine hkeeps ?_
      rw [hwakers, getElem?_setAwoken] at hw
      obtain ⟨tv, htv, rfl⟩ := Option.map_eq_some_iff.1 hw
      rwa [if_neg heq]
  case same hwakers _ _ | push hwakers _ _ | fire hwakers _ _ | hear hwakers _ _ =>
    exact hkeeps (hwakers ▸ hw)

/-- **A task that is deaf stays deaf** while nobody polls. -/
theorem Deaf.act {a : Act} {k : ℕ} (h : ex.Deaf k) (ha : ex.act a = some ex') : ex'.Deaf k := by
  obtain ⟨hne, task, tw, hk, hw, hawoken, hnot⟩ := h
  have ht := touch_of_act ha
  refine ⟨hne, task, ?_⟩
  rw [ht.tasks_eq]
  cases ht
  case same _ hwakers hflights _ =>
    exact ⟨tw, hk, hwakers ▸ hw, hawoken, by rwa [Pushing, hflights]⟩
  case claim v id onLocal hv _ hwakers hflights _ =>
    have hvw : v ≠ task.waker := by
      rintro rfl
      rw [hw] at hv
      obtain rfl := Option.some.inj hv
      cases hawoken
    refine ⟨tw, hk, ?_, hawoken, ?_⟩
    · rw [hwakers, getElem?_setAwoken, hw, Option.map_some, if_neg hvw]
    · rintro ⟨f, hf, hfw, hphase⟩
      rw [hflights] at hf
      rcases List.mem_append.1 hf with hf | hf
      · exact hnot ⟨f, hf, hfw, hphase⟩
      · rw [List.mem_singleton.1 hf] at hfw
        exact hvw hfw
  case push i v onLocal tv hi _ _ hwakers hflights _ =>
    refine ⟨tw, hk, hwakers ▸ hw, hawoken, ?_⟩
    rintro ⟨f, hf, hfw, hphase⟩
    rw [hflights] at hf
    rcases List.mem_or_eq_of_mem_set hf with hf | rfl
    · exact hnot ⟨f, hf, hfw, hphase⟩
    · cases hphase
  case fire i v onLocal hi _ hwakers hflights _ =>
    refine ⟨tw, hk, hwakers ▸ hw, hawoken, ?_⟩
    rintro ⟨f, hf, hfw, hphase⟩
    rw [hflights] at hf
    exact hnot ⟨f, List.mem_of_mem_eraseIdx hf, hfw, hphase⟩
  case hear _ hwakers hflights _ =>
    exact ⟨tw, hk, hwakers ▸ hw, hawoken, by rwa [Pushing, hflights]⟩

end Executor

namespace Single

open Executor

variable {s t : Single V} {a : Act V} {k : ℕ}

/-- No flag of a task in the slab is set without a trace. -/
def TasksKept (s : Single V) : Prop :=
  ∀ k task, s.ex.tasks.get k = some task → s.ex.Kept s.run task.waker k

/-- The tasks that are left behind are pushed after the reset. When a `run` future is polled for the
first time, those whose flag is set have not been pushed yet; and while it resets the queue, no call
pushes that is the last one for such a task. -/
def PushesAfterReset (s : Single V) : Act V → Prop
  | .poll _ => ∀ r, s.run = some r → r.pc = .created → s.ex.Unpushed
  | .ex (.push i) => ∀ r, s.run = some r → r.pc = .resetting → s.ex.PushIsSpare i
  | _ => True

instance (s : Single V) : ∀ a, Decidable (PushesAfterReset s a)
  | .poll _ =>
    decidable_of_iff (∀ r ∈ s.run, r.pc = .created → s.ex.Unpushed)
      ⟨fun h r hr ↦ h r hr, fun h r hr ↦ h r hr⟩
  | .ex (.push i) =>
    decidable_of_iff (∀ r ∈ s.run, r.pc = .resetting → s.ex.PushIsSpare i)
      ⟨fun h r hr ↦ h r hr, fun h r hr ↦ h r hr⟩
  | .newRun | .dropRun | .run _ => isTrue trivial
  | .ex .spawn | .ex (.cancel _) | .ex (.pollHandle _ _) | .ex (.wake _ _) | .ex (.fire _) |
    .ex (.hear _) =>
    isTrue trivial

/-- No flag of a task is set without a trace, and those that are set during a reset have not been
pushed. -/
structure ResetInv (s : Single V) : Prop where
  wakes : WakeInv s.ex s.run
  unpushed : ∀ r, s.run = some r → r.pc = .resetting → s.ex.Unpushed

theorem ResetInv.unpushed_of_resets (h : ResetInv s) (hC : PushesAfterReset s a)
    (hresets : Resets s a) : s.ex.Unpushed := by
  obtain ⟨r, hrun, hpc | ⟨hpc, cx, rfl⟩⟩ := hresets
  · exact h.unpushed r hrun hpc
  · exact hC r hrun hpc

/-- **One step loses no wakeup**, unless it pushes before the reset is over. -/
theorem ResetInv.step (h : ResetInv s) (hC : PushesAfterReset s a) (hs : Step s a t) :
    ResetInv t := by
  refine ⟨wakeInv_step h.wakes (h.unpushed_of_resets hC) hs, fun r' hr' hpc' ↦ ?_⟩
  cases hs
  case newRun =>
    obtain rfl := Option.some.inj hr'
    cases hpc'
  case dropRun => cases hr'
  case firstPoll r cx hrun hpc =>
    -- the waker that is made for the main future is asleep
    intro k task tw hk hw hawoken
    rw [List.getElem?_append] at hw
    split at hw
    · exact hC r hrun hpc k task tw hk hw hawoken
    · obtain rfl := List.mem_singleton.1 (List.mem_of_getElem? hw)
      cases hawoken
  case poll =>
    obtain rfl := Option.some.inj hr'
    cases hpc'
  case run r₁ r₂ ex' hrun htrans =>
    obtain rfl := Option.some.inj hr'
    cases htrans
    case resetPop hpc _ => exact h.unpushed _ hrun hpc
    case borrowTasks | borrowSpawned | unwrap | mainTaskId => exact h.unpushed _ hrun hpc'
    all_goals cases hpc'
  case ex b ex' hact _ =>
    refine (h.unpushed r' hr' hpc').act hact fun i heq ↦ ?_
    subst heq
    exact hC r' hr' hpc'

theorem ResetInv.init : ResetInv (init : Single V) :=
  ⟨wakeInv_init, fun _ hr ↦ absurd hr (by simp [Single.init])⟩

/-! ### What is pushed before the end of a reset is lost -/

theorem localFree_of_poll {cx : ℕ} (hs : s.step (.poll cx) = some t) : s.ex.LocalFree := by
  obtain ⟨r, -, h⟩ := Option.bind_eq_some_iff.1 hs
  exact (Option.ite_none_right_eq_some.1 h).1

/-- During a reset the main future is alone in the local queue, and other threads push to the other
one. -/
def QuietInv (s : Single V) : Prop :=
  ∀ r, s.run = some r → r.pc = .resetting →
    s.ex.queue.localIds = [MAIN_TASK_ID] ∧ ∀ f ∈ s.ex.flights, f.onLocal = false

theorem QuietInv.init : QuietInv (init : Single V) :=
  fun _ hr ↦ absurd hr (by simp [Single.init])

theorem QuietInv.step (h : QuietInv s) (hs : s.step a = some t) : QuietInv t := by
  intro r' hr' hpc'
  cases step_cases hs
  case newRun =>
    obtain rfl := Option.some.inj hr'
    cases hpc'
  case dropRun => cases hr'
  case firstPoll => exact ⟨rfl, (localFree_of_poll hs).2⟩
  case poll =>
    obtain rfl := Option.some.inj hr'
    cases hpc'
  case run r₁ r₂ ex' hrun htrans =>
    obtain rfl := Option.some.inj hr'
    cases htrans
    case resetPop hpc _ => exact h _ hrun hpc
    case borrowTasks | borrowSpawned | unwrap | mainTaskId => exact h _ hrun hpc'
    all_goals cases hpc'
  case ex b ex' hact hlocal =>
    obtain ⟨hids, hflights⟩ := h r' hr' hpc'
    have huser : s.inUser = false := by
      rw [inUser, show s.run = some r' from hr', Option.all_some, hpc']
      rfl
    have hother : b.isLocal = false := by
      rw [Bool.eq_false_iff]
      exact fun hl ↦ absurd ((hlocal hl).2.symm.trans huser) (by simp)
    rcases b with - | hd | ⟨hd, waker⟩ | ⟨v, onLocal⟩ | i | i | b
    case spawn | cancel | pollHandle => cases hother
    case wake =>
      obtain rfl := Option.some.inj hact
      rw [Executor.wake]
      split
      · refine ⟨hids, fun f hf ↦ ?_⟩
        rcases List.mem_append.1 hf with hf | hf
        · exact hflights f hf
        · exact List.mem_singleton.1 hf ▸ hother
      · exact ⟨hids, hflights⟩
    case push =>
      obtain ⟨v, onLocal, tv, hi, -, rfl⟩ := push_eq_some hact
      obtain rfl : onLocal = false := hflights _ (List.mem_of_getElem? hi)
      refine ⟨hids, fun f hf ↦ ?_⟩
      rcases List.mem_or_eq_of_mem_set hf with hf | rfl
      · exact hflights f hf
      · rfl
    case fire =>
      obtain ⟨v, onLocal, -, rfl⟩ := fire_eq_some hact
      exact ⟨hids, fun f hf ↦ hflights f (List.mem_of_mem_eraseIdx hf)⟩
    case hear =>
      obtain rfl := Option.some.inj hact
      exact ⟨hids, hflights⟩

/-- **A reset that comes to its end with a task that is deaf loses its wakeup.** -/
theorem exists_not_tasksKept {as : List (Act V)} {r : Run} (hquiet : QuietInv s)
    (hdeaf : s.ex.Deaf k) (hr : s.run = some r) (hpc : r.pc = .resetting)
    (hrun : (machine V).run s as = some t) (hend : ∀ r, t.run = some r → r.pc ≠ .resetting) :
    ∃ u, (machine V).Visits s as u ∧ ¬ TasksKept u := by
  induction as generalizing s r with
  | nil =>
    obtain rfl := Option.some.inj hrun
    exact absurd hpc (hend r hr)
  | cons a as ih =>
    obtain ⟨u, hu, hrest⟩ := Machine.run_cons_eq_some _ |>.1 hrun
    have hnext := hquiet.step hu
    clear hrun
    cases step_cases hu
    case newRun hnone => exact absurd (hr.symm.trans hnone) (by simp)
    case dropRun r₁ hrun' hidle =>
      obtain rfl := Option.some.inj (hr.symm.trans hrun')
      exact absurd hidle (by simp [hpc, Pc.isIdle])
    case firstPoll r₁ cx hrun' hpc' | poll r₁ cx hrun' hpc' =>
      obtain rfl := Option.some.inj (hr.symm.trans hrun')
      exact absurd (hpc.symm.trans hpc') (by simp)
    case run r₁ r' ex' hrun' htrans =>
      obtain rfl := Option.some.inj (hr.symm.trans hrun')
      cases htrans
      case resetPop =>
        obtain ⟨v, hv, hnot⟩ := ih hnext hdeaf rfl hpc hrest
        exact ⟨v, hv.cons hu, hnot⟩
      case resetDone hconcurrent =>
        -- nothing is left of what was pushed
        refine ⟨_, (Machine.visits_self _ as).cons hu, fun hkept ↦ ?_⟩
        obtain ⟨hne, task, tw, hk, hw, hawoken, hnot⟩ := hdeaf
        obtain ⟨tw', hw', -, htraced⟩ := hkept k task hk
        obtain rfl := Option.some.inj (hw.symm.trans hw')
        rcases htraced hawoken with (h | h) | h | ⟨r', hr', hp⟩
        · rw [(hquiet r hr hpc).1] at h
          exact hne (List.mem_singleton.1 h)
        · rw [hconcurrent] at h
          exact absurd h List.not_mem_nil
        · exact hnot h
        · obtain rfl := Option.some.inj hr'
          exact hp
      case borrowTasks hpc' _ =>
        obtain hpc' | hpc' | hpc' := hpc' <;> exact absurd (hpc.symm.trans hpc') (by simp)
      case borrowSpawned hpc' _ =>
        obtain hpc' | hpc' := hpc' <;> exact absurd (hpc.symm.trans hpc') (by simp)
      all_goals exact absurd (hpc.symm.trans ‹r.pc = _›) (by simp)
    case ex b ex' hact _ =>
      obtain ⟨v, hv, hnot⟩ := ih hnext (hdeaf.act hact) hr hpc hrest
      exact ⟨v, hv.cons hu, hnot⟩

/-- A step that leaves a push before the end of the reset makes a task deaf. -/
theorem exists_deaf (h : ResetInv s) (hC : ¬ PushesAfterReset s a) (hs : Step s a t) :
    ∃ k r, t.run = some r ∧ r.pc = .resetting ∧ t.ex.Deaf k := by
  rcases a with - | - | cx | b | b
  case newRun | dropRun | run => exact absurd trivial hC
  case poll =>
    simp only [PushesAfterReset, Unpushed, not_forall] at hC
    obtain ⟨r, hrun, hpc, k, task, tw, hk, hw, hawoken, hnot⟩ := hC
    cases hs
    case firstPoll =>
      refine ⟨k, _, rfl, rfl, (h.wakes.tasks k task hk).1, task, tw, hk, ?_, hawoken, hnot⟩
      rw [List.getElem?_append_left (List.getElem?_eq_some_iff.1 hw).1, hw]
    case poll r' hrun' hpc' =>
      obtain rfl := Option.some.inj (hrun.symm.trans hrun')
      exact absurd (hpc.symm.trans hpc') (by simp)
  case ex =>
    rcases b with - | hd | ⟨hd, waker⟩ | ⟨v, onLocal⟩ | i | i | b
    case push =>
      simp only [PushesAfterReset, PushIsSpare, not_forall] at hC
      obtain ⟨r, hrun, hpc, k, task, tw, f, hk, hw, hawoken, hi, hfw, hlast⟩ := hC
      cases hs
      case ex ex' hact _ =>
        obtain ⟨v, onLocal, tv, -, -, rfl⟩ := push_eq_some hact
        refine ⟨k, r, hrun, hpc, (h.wakes.tasks k task hk).1, task, tw, hk, hw, hawoken, ?_⟩
        rintro ⟨g, hg, hgw, hphase⟩
        obtain ⟨j, hj⟩ := List.mem_iff_getElem?.1 hg
        rw [List.getElem?_set] at hj
        split at hj
        · split at hj
          · obtain rfl := Option.some.inj hj
            cases hphase
          · cases hj
        next hij =>
          have hg : g ∈ (s.ex.flights.eraseIdx i) :=
            List.mem_eraseIdx_iff_getElem?.2 ⟨j, Ne.symm hij, hj⟩
          exact hlast ⟨g, hg, hgw, hphase⟩
    all_goals exact absurd trivial hC

/-- Where no flag is ever set in vain, every push came after the reset. -/
theorem allSteps_of_tasksKept {as : List (Act V)} (h : ResetInv s) (hquiet : QuietInv s)
    (hrun : (machine V).run s as = some t) (hend : ∀ r, t.run = some r → r.pc ≠ .resetting)
    (hkept : ∀ u, (machine V).Visits s as u → TasksKept u) :
    (machine V).AllSteps PushesAfterReset s as := by
  induction as generalizing s with
  | nil => trivial
  | cons a as ih =>
    obtain ⟨u, hu, hrun⟩ := Machine.run_cons_eq_some _ |>.1 hrun
    have hu : s.step a = some u := hu
    have hC : PushesAfterReset s a := by
      by_contra hC
      obtain ⟨k, r, hr, hpc, hdeaf⟩ := exists_deaf h hC (step_cases hu)
      obtain ⟨v, hv, hnot⟩ := exists_not_tasksKept (hquiet.step hu) hdeaf hr hpc hrun hend
      exact hnot (hkept v (hv.cons hu))
    refine ⟨hC, fun v hv ↦ ?_⟩
    obtain rfl : u = v := Option.some.inj (hu.symm.trans hv)
    exact ih (h.step hC (step_cases hu)) (hquiet.step hu) hrun fun w hw ↦ hkept w (hw.cons hu)

/-- **Wakeups across runs, exactly.** In a run of the machine, with any sequence of `run` futures
that are completed or dropped at any time and any wakes and cancels, whose wakes push after the
resets: in every state every task of the slab whose flag is set has its id in the queue, or about to
be pushed, or just popped. And if no reset is under way in the end, the other runs all have a state
in which some task has not. -/
theorem leftover_kept_iff (as : List (Act V)) (t : Single V)
    (hrun : (machine V).run init as = some t) :
    ((machine V).AllSteps PushesAfterReset init as →
      ∀ u, (machine V).Visits init as u → TasksKept u) ∧
    ((∀ r, t.run = some r → r.pc ≠ .resetting) →
      ((∀ u, (machine V).Visits init as u → TasksKept u) ↔
        (machine V).AllSteps PushesAfterReset init as)) := by
  have hsuff : (machine V).AllSteps PushesAfterReset init as →
      ∀ u, (machine V).Visits init as u → TasksKept u := by
    intro hall u hu k task hk
    have hinv := Machine.visits_preserves_of_allSteps (I := ResetInv)
      (fun _ _ _ h hC hs ↦ h.step hC (step_cases hs)) .init hall hu
    exact (hinv.wakes.tasks k task hk).2
  exact ⟨hsuff, fun hend ↦ ⟨allSteps_of_tasksKept .init .init hrun hend, hsuff⟩⟩

/-- The steps of a first poll as far as the main future. -/
def toMain : List (Act Unit) :=
  [.run .tick, .run .tick, .run .tick, .run .tick, .run .tick, .run .tick, .run .tick]

/-- The main future spawns a task, which is pending after its first poll. -/
def spawnOne : List (Act Unit) :=
  [.ex .spawn, .run (.ret none), .run .tick, .run .tick, .run (.firstPoll 0), .run (.ret none),
    .run .tick]

/-- The first poll of a `run` future, which leaves a task in the slab. -/
def leaveTask : List (Act Unit) := [.newRun, .poll 7] ++ toMain ++ spawnOne

/-- The task is woken, and then `run` is dropped and another one is polled. -/
def wakeAndReset : List (Act Unit) :=
  leaveTask ++ [.ex (.wake 1 true), .ex (.push 0), .ex (.fire 0), .dropRun, .newRun, .poll 8] ++
    toMain ++ [.run (.ret none), .run .tick, .run .tick]

/-- **A task that was left behind and woken is never polled again**: after the first poll of the
next `run` its flag is set, its id is nowhere, and no call is in flight. -/
theorem wakeAndReset_loses :
    ∃ u, (machine Unit).Visits init wakeAndReset u ∧ u.run.map Run.pc = some .pending ∧
      u.ex.flights.length = 0 ∧ ¬ TasksKept u := by
  refine ⟨_, ⟨wakeAndReset, List.prefix_rfl, rfl⟩, rfl, rfl, fun hkept ↦ ?_⟩
  obtain ⟨tw, hw, -, htraced⟩ := hkept 0 ⟨0, 1⟩ rfl
  obtain rfl := Option.some.inj hw
  rcases htraced rfl with (h | h) | ⟨f, hf, -⟩ | ⟨r, hr, hp⟩
  · exact absurd h (List.not_mem_nil)
  · exact absurd h (List.not_mem_nil)
  · exact absurd hf (List.not_mem_nil)
  · obtain rfl := Option.some.inj hr
    exact hp

/-- A task that is left behind is being woken when the next `run` future is polled for the first
time, and the wake pushes when the reset is over. -/
def wakeAcrossReset : List (Act Unit) :=
  leaveTask ++ [.ex (.wake 1 false), .dropRun, .newRun, .poll 8, .run .tick, .ex (.push 0),
    .ex (.fire 0)] ++ [.run .tick, .run .tick, .run .tick, .run .tick, .run .tick, .run .tick]

theorem leftover_kept_iff_wakeAcrossReset :
    ∃ t, (machine Unit).run init wakeAcrossReset = some t ∧
      t.run.map Run.pc = some (.pollTask 0 ⟨0, 0, true⟩) ∧
      ∀ u, (machine Unit).Visits init wakeAcrossReset u → TasksKept u := by
  refine ⟨_, rfl, rfl, (leftover_kept_iff wakeAcrossReset _ rfl).1 ?_⟩
  decide

end Single

end LocalRuntime
