import LocalRuntime.Executor.Run

/-!
# The flags of the tasks

A task whose flag is set is not woken again until it has been polled, so the flag must never be set
without something that will lead to that poll: the id of the task is in the wake queue, or a call of
`TaskWaker::wake` is about to push it, or the id has been popped and the task is next to be put to
sleep (`Kept`). The same goes for the main future.

Every step of `run` and every wake keeps this, with one exception (`wakeInv_step`). A `run` future
that is dropped leaves its tasks in the slab, and the first poll of the next one empties the queue
(`WakeQueue::reset`) without clearing their flags. A reset does no harm if the flags that are set
have their push still to come (`Unpushed`).
-/

namespace LocalRuntime

variable {V : Type}

/-! ### Flags and their traces -/

/-- The id has been popped in the current drain, and its task has not been put to sleep yet. -/
def Pc.Popped : Pc → ℕ → Prop
  | .popped id d, k => k = id ∨ k = MAIN_TASK_ID ∧ d.mainTaskAwoken = true
  | .drain d, k | .pollTask _ d, k | .readyTask _ d, k | .dropTask d, k =>
    k = MAIN_TASK_ID ∧ d.mainTaskAwoken = true
  | .mainCheck awoken, k => k = MAIN_TASK_ID ∧ awoken = true
  | _, _ => False

/-- The id has been popped by the `run` future that is alive, if there is one. -/
def PoppedBy (run : Option Run) (id : ℕ) : Prop := ∃ r, run = some r ∧ r.pc.Popped id

namespace Executor

variable {ex ex' : Executor V} {run run' : Option Run} {w id : ℕ}

/-- A call of `TaskWaker::wake` is between its compare-exchange and its push. -/
def Pushing (ex : Executor V) (w : ℕ) : Prop := ∃ f ∈ ex.flights, f.waker = w ∧ f.phase = .push

/-- The tasks of the slab whose flag is set have not been pushed yet. -/
def Unpushed (ex : Executor V) : Prop :=
  ∀ k task tw, ex.tasks.get k = some task → ex.wakers[task.waker]? = some tw → tw.awoken = true →
    ex.Pushing task.waker

/-- A waker whose flag is set is about to be heard. -/
def Traced (ex : Executor V) (run : Option Run) (w id : ℕ) : Prop :=
  ex.queue.Has id ∨ ex.Pushing w ∨ PoppedBy run id

/-- The waker pushes the id, and has a trace if its flag is set. -/
def Kept (ex : Executor V) (run : Option Run) (w id : ℕ) : Prop :=
  ∃ tw, ex.wakers[w]? = some tw ∧ tw.taskId = id ∧ (tw.awoken = true → ex.Traced run w id)

/-- What keeps the waker and its traces keeps it. -/
theorem Kept.mono (h : ex.Kept run w id) (hwakers : ex'.wakers[w]? = ex.wakers[w]?)
    (htraced : ex.Traced run w id → ex'.Traced run' w id) : ex'.Kept run' w id := by
  obtain ⟨tw, hw, hid, hawoken⟩ := h
  exact ⟨tw, hwakers.trans hw, hid, fun h ↦ htraced (hawoken h)⟩

/-- Making another waker changes nothing for those that are there. -/
theorem Kept.append {tws : List TaskWaker} (h : ex.Kept run w id)
    (hwakers : ex'.wakers = ex.wakers ++ tws)
    (htraced : ex.Traced run w id → ex'.Traced run' w id) : ex'.Kept run' w id := by
  obtain ⟨tw, hw, hid, hawoken⟩ := h
  refine ⟨tw, ?_, hid, fun h ↦ htraced (hawoken h)⟩
  rw [hwakers, List.getElem?_append_left (List.getElem?_eq_some_iff.1 hw).1, hw]

theorem getElem?_setAwoken (ex : Executor V) (w v : ℕ) (b : Bool) :
    (ex.setAwoken w b).wakers[v]? =
      ex.wakers[v]?.map fun tw ↦ if w = v then { tw with awoken := b } else tw :=
  List.getElem?_modify _ w ex.wakers v

theorem getElem?_toSleep_of_ne {v w : ℕ} (hne : v ≠ w) :
    (ex.toSleep v).wakers[w]? = ex.wakers[w]? := by
  rw [toSleep, getElem?_setAwoken]
  simp [hne]

/-- A flag that is clear needs no trace. -/
theorem Kept.toSleep (h : ex.Kept run w id) (v : ℕ)
    (htraced : v ≠ w → ex.Traced run w id → (ex.toSleep v).Traced run' w id) :
    (ex.toSleep v).Kept run' w id := by
  obtain ⟨tw, hw, hid, hawoken⟩ := h
  by_cases hv : v = w
  · refine ⟨{ tw with awoken := false }, ?_, hid, fun h ↦ absurd h (by simp)⟩
    simp only [Executor.toSleep, getElem?_setAwoken, hw, Option.map_some, if_pos hv]
  · refine ⟨tw, ?_, hid, fun h ↦ htraced hv (hawoken h)⟩
    simp only [Executor.toSleep, getElem?_setAwoken, hw, Option.map_some, if_neg hv]

/-- **Nothing that happens between two steps of the executor loses a wakeup.** -/
theorem Kept.touch (h : ex.Kept run w id) (ht : Touch ex ex') : ex'.Kept run w id := by
  obtain ⟨tw, hw, hid, hawoken⟩ := h
  cases ht
  case same _ hwakers hflights hqueue =>
    refine ⟨tw, by rw [hwakers, hw], hid, fun h ↦ ?_⟩
    simpa only [Traced, Pushing, hqueue, hflights] using hawoken h
  case claim v id' onLocal hv _ hwakers hflights hqueue =>
    by_cases heq : v = w
    · -- the call that has just claimed the flag is the trace
      refine ⟨{ tw with awoken := true }, ?_, hid, fun _ ↦ Or.inr (Or.inl ?_)⟩
      · rw [hwakers, getElem?_setAwoken, hw, Option.map_some, if_pos heq]
      · rw [Pushing, hflights]
        exact ⟨⟨v, .push, onLocal⟩, by simp, heq, rfl⟩
    · refine ⟨tw, ?_, hid, fun h ↦ ?_⟩
      · rw [hwakers, getElem?_setAwoken, hw, Option.map_some, if_neg heq]
      · refine (hawoken h).imp (fun hq ↦ hqueue ▸ hq) (Or.imp_left ?_)
        rintro ⟨f, hf, hfw⟩
        exact ⟨f, hflights ▸ List.mem_append_left _ hf, hfw⟩
  case push i v onLocal tv hi hv _ hwakers hflights hqueue =>
    refine ⟨tw, by rw [hwakers, hw], hid, fun h ↦ ?_⟩
    rcases hawoken h with hq | ⟨f, hf, hfw, hphase⟩ | hp
    · exact Or.inl (hqueue ▸ hq.push _ _)
    · by_cases heq : v = w
      · -- the id has moved from the call to the queue
        rw [heq, hw] at hv
        obtain rfl := Option.some.inj hv
        exact Or.inl (hqueue ▸ hid ▸ ex.queue.has_push _ _)
      · refine Or.inr (Or.inl ⟨f, ?_, hfw, hphase⟩)
        rw [hflights]
        obtain ⟨j, hj⟩ := List.mem_iff_getElem?.1 hf
        have hij : i ≠ j := by
          rintro rfl
          rw [hi] at hj
          exact heq (hfw ▸ congrArg Flight.waker (Option.some.inj hj))
        exact List.mem_iff_getElem?.2 ⟨j, by rw [List.getElem?_set_ne hij, hj]⟩
    · exact Or.inr (Or.inr hp)
  case fire i v onLocal hi _ hwakers hflights hqueue =>
    refine ⟨tw, by rw [hwakers, hw], hid, fun h ↦ ?_⟩
    rcases hawoken h with hq | ⟨f, hf, hfw, hphase⟩ | hp
    · exact Or.inl (hqueue ▸ hq)
    · refine Or.inr (Or.inl ⟨f, ?_, hfw, hphase⟩)
      rw [hflights]
      obtain ⟨j, hj⟩ := List.mem_iff_getElem?.1 hf
      refine List.mem_eraseIdx_iff_getElem?.2 ⟨j, ?_, hj⟩
      rintro rfl
      rw [hi] at hj
      exact absurd (congrArg Flight.phase (Option.some.inj hj)) (by simp [hphase])
    · exact Or.inr (Or.inr hp)
  case hear b _ hwakers hflights hqueue =>
    refine ⟨tw, by rw [hwakers, hw], hid, fun h ↦ ?_⟩
    simpa only [Traced, Pushing, hqueue, hflights, WakeQueue.Has] using hawoken h

/-! ### The steps of `run` -/

/-- No flag of a task in the slab, of a task in its first poll or of the main future is set without
a trace. -/
structure WakeInv (ex : Executor V) (run : Option Run) : Prop where
  tasks : ∀ k task, ex.tasks.get k = some task → k ≠ MAIN_TASK_ID ∧ ex.Kept run task.waker k
  first : ∀ r task w key, run = some r → r.pc = .pollFirst task w key →
    key ≠ MAIN_TASK_ID ∧ ex.tasks.IsVacant key ∧ ex.Kept run w key
  main : ∀ r, run = some r → r.pc ≠ .created → ex.Kept run r.mainWaker MAIN_TASK_ID
  /-- A reset leaves the main future in the queue. -/
  reset : ∀ r, run = some r → r.pc = .resetting → MAIN_TASK_ID ∈ ex.queue.localIds

theorem WakeInv.touch (h : WakeInv ex run) (ht : Touch ex ex') : WakeInv ex' run := by
  have htasks := ht.tasks_eq
  refine ⟨fun k task hk ↦ ?_, fun r task w key hr hpc ↦ ?_, fun r hr hpc ↦ ?_, fun r hr hpc ↦ ?_⟩
  · rw [htasks] at hk
    exact (h.tasks k task hk).imp_right fun hkept ↦ hkept.touch ht
  · obtain ⟨hkey, hvacant, hkept⟩ := h.first r task w key hr hpc
    exact ⟨hkey, htasks ▸ hvacant, hkept.touch ht⟩
  · exact (h.main r hr hpc).touch ht
  · exact ht.mem_localIds (h.reset r hr hpc)

section Move

variable {r r' : Run}

/-- Traces outlast a step that touches neither the queue nor the calls in flight. -/
theorem Traced.mono (h : ex.Traced (some r) w id)
    (hlocal : ex'.queue.localIds = ex.queue.localIds)
    (hconcurrent : ex'.queue.concurrent = ex.queue.concurrent)
    (hflights : ex'.flights = ex.flights) (hpopped : r.pc.Popped id → r'.pc.Popped id) :
    ex'.Traced (some r') w id := by
  rcases h with hq | ⟨f, hf, hfw⟩ | ⟨r₁, hr₁, hp⟩
  · exact Or.inl (by rwa [WakeQueue.Has, hlocal, hconcurrent])
  · exact Or.inr (Or.inl ⟨f, hflights ▸ hf, hfw⟩)
  · obtain rfl := Option.some.inj hr₁
    exact Or.inr (Or.inr ⟨r', rfl, hpopped hp⟩)

/-- A step that keeps the wakers, and the traces of what is left. -/
theorem WakeInv.move (h : WakeInv ex (some r)) (hcreated : r.pc ≠ .created)
    (hwakers : ex'.wakers = ex.wakers)
    (htasks : ∀ k task, ex'.tasks.get k = some task → ex.tasks.get k = some task)
    (htraced : ∀ w k, (k = MAIN_TASK_ID ∨ ∃ task, ex'.tasks.get k = some task) →
      ex.Traced (some r) w k → ex'.Traced (some r') w k)
    (hmain : r'.mainWaker = r.mainWaker) (hfirst : ∀ task w key, r'.pc ≠ .pollFirst task w key)
    (hreset : r'.pc ≠ .resetting) : WakeInv ex' (some r') := by
  refine ⟨fun k task hk ↦ ?_, fun r₁ task w key hr hpc ↦ ?_, fun r₁ hr _ ↦ ?_, fun r₁ hr hpc ↦ ?_⟩
  · obtain ⟨hne, hkept⟩ := h.tasks k task (htasks k task hk)
    exact ⟨hne, hkept.mono (by rw [hwakers]) (htraced _ _ (Or.inr ⟨task, hk⟩))⟩
  · obtain rfl := Option.some.inj hr
    exact absurd hpc (hfirst task w key)
  · obtain rfl := Option.some.inj hr
    rw [hmain]
    exact (h.main r rfl hcreated).mono (by rw [hwakers]) (htraced _ _ (Or.inl rfl))
  · obtain rfl := Option.some.inj hr
    exact absurd hpc hreset

/-- A step that touches neither the wakers nor the queue. -/
theorem WakeInv.advance (h : WakeInv ex (some r)) (hcreated : r.pc ≠ .created)
    (hwakers : ex'.wakers = ex.wakers) (hflights : ex'.flights = ex.flights)
    (hlocal : ex'.queue.localIds = ex.queue.localIds)
    (hconcurrent : ex'.queue.concurrent = ex.queue.concurrent)
    (htasks : ∀ k task, ex'.tasks.get k = some task → ex.tasks.get k = some task)
    (hpopped : ∀ k, (k = MAIN_TASK_ID ∨ ∃ task, ex'.tasks.get k = some task) →
      r.pc.Popped k → r'.pc.Popped k)
    (hmain : r'.mainWaker = r.mainWaker) (hfirst : ∀ task w key, r'.pc ≠ .pollFirst task w key)
    (hreset : r'.pc ≠ .resetting) : WakeInv ex' (some r') := by
  refine h.move hcreated hwakers htasks (fun w k hk htr ↦ ?_) hmain hfirst hreset
  exact htr.mono hlocal hconcurrent hflights (hpopped k hk)

/-- A step that puts a waker to sleep. -/
theorem WakeInv.sleep {v : ℕ} (h : WakeInv ex (some r)) (hcreated : r.pc ≠ .created)
    (hpopped : ∀ w k, (k = MAIN_TASK_ID ∧ w = r.mainWaker ∨
      ∃ task, ex.tasks.get k = some task ∧ task.waker = w) → v ≠ w →
      r.pc.Popped k → r'.pc.Popped k)
    (hmain : r'.mainWaker = r.mainWaker) (hfirst : ∀ task w key, r'.pc ≠ .pollFirst task w key)
    (hreset : r'.pc ≠ .resetting) : WakeInv (ex.toSleep v) (some r') := by
  have htraced : ∀ w k, (k = MAIN_TASK_ID ∧ w = r.mainWaker ∨
      ∃ task, ex.tasks.get k = some task ∧ task.waker = w) → v ≠ w →
      ex.Traced (some r) w k → (ex.toSleep v).Traced (some r') w k := by
    intro w k hk hne htr
    exact htr.mono rfl rfl rfl (hpopped w k hk hne)
  refine ⟨fun k task hk ↦ ?_, fun r₁ task w key hr hpc ↦ ?_, fun r₁ hr _ ↦ ?_, fun r₁ hr hpc ↦ ?_⟩
  · obtain ⟨hne, hkept⟩ := h.tasks k task hk
    exact ⟨hne, hkept.toSleep v fun hv ↦ htraced _ _ (Or.inr ⟨task, hk, rfl⟩) hv⟩
  · obtain rfl := Option.some.inj hr
    exact absurd hpc (hfirst task w key)
  · obtain rfl := Option.some.inj hr
    rw [hmain]
    exact (h.main r rfl hcreated).toSleep v fun hv ↦ htraced _ _ (Or.inl ⟨rfl, rfl⟩) hv
  · obtain rfl := Option.some.inj hr
    exact absurd hpc hreset

/-- A step that pops an id of the queue. -/
theorem WakeInv.pop {d d' : Drain} (h : WakeInv ex (some r)) (hpc : r.pc = .drain d)
    (hwakers : ex'.wakers = ex.wakers) (hflights : ex'.flights = ex.flights)
    (htasks : ex'.tasks = ex.tasks)
    (hlocal : ∀ k, k ∈ ex.queue.localIds → k = id ∨ k ∈ ex'.queue.localIds)
    (hcon : ∀ k, k ∈ ex.queue.concurrent → k = id ∨ k ∈ ex'.queue.concurrent)
    (hawoken : d'.mainTaskAwoken = d.mainTaskAwoken) :
    WakeInv ex' (some { r with pc := .popped id d' }) := by
  have hpopped : ∀ w, ex'.Traced (some { r with pc := .popped id d' }) w id :=
    fun w ↦ Or.inr (Or.inr ⟨_, rfl, Or.inl rfl⟩)
  refine h.move (by simp [hpc]) hwakers (fun _ _ hk ↦ htasks ▸ hk)
    (fun w k _ htr ↦ ?_) rfl (by simp) (by simp)
  rcases htr with (hmem | hmem) | ⟨f, hf, hfw⟩ | ⟨r₁, hr₁, hp⟩
  · rcases hlocal k hmem with rfl | hmem
    · exact hpopped w
    · exact Or.inl (Or.inl hmem)
  · rcases hcon k hmem with rfl | hmem
    · exact hpopped w
    · exact Or.inl (Or.inr hmem)
  · exact Or.inr (Or.inl ⟨f, hflights ▸ hf, hfw⟩)
  · obtain rfl := Option.some.inj hr₁
    rw [hpc] at hp
    exact Or.inr (Or.inr ⟨_, rfl, Or.inr ⟨hp.1, hawoken.trans hp.2⟩⟩)

/-- The waker of a task is made, with a clear flag. -/
theorem WakeInv.firstPoll {task : SpawnedTask} {key : ℕ} (h : WakeInv ex (some r))
    (hpc : r.pc = .poppedSpawned task) (hvacant : ex.tasks.IsVacant key)
    (hkey : key ≠ MAIN_TASK_ID) :
    WakeInv (ex.fromSpawned task key)
      (some { r with pc := .pollFirst task ex.wakers.length key }) := by
  have htraced : ∀ w k, ex.Traced (some r) w k → (ex.fromSpawned task key).Traced
      (some { r with pc := .pollFirst task ex.wakers.length key }) w k := by
    intro w k htr
    refine htr.mono rfl rfl rfl fun hp ↦ ?_
    rw [hpc] at hp
    exact hp.elim
  refine ⟨fun k t hk ↦ ?_, fun r₁ t w key' hr hpc' ↦ ?_, fun r₁ hr _ ↦ ?_, fun r₁ hr hpc' ↦ ?_⟩
  · exact (h.tasks k t hk).imp_right fun hkept ↦ hkept.append rfl (htraced _ _)
  · obtain rfl := Option.some.inj hr
    obtain ⟨rfl, rfl, rfl⟩ := Pc.pollFirst.inj hpc'
    refine ⟨hkey, hvacant, .new key, ?_, rfl, fun h ↦ absurd h (by simp [TaskWaker.new])⟩
    simp [fromSpawned]
  · obtain rfl := Option.some.inj hr
    exact (h.main r rfl (by simp [hpc])).append rfl (htraced _ _)
  · obtain rfl := Option.some.inj hr
    exact absurd hpc' (by simp)

/-- A task is put into the slab after its first poll. -/
theorem WakeInv.pendingFirst {task : SpawnedTask} {key : ℕ} (h : WakeInv ex (some r))
    (hpc : r.pc = .pollFirst task w key) :
    WakeInv { ex with tasks := ex.tasks.insert key ⟨task.id, w⟩, spawnedBorrowed := false }
      (some { r with pc := .nextSpawned }) := by
  obtain ⟨hkey, hvacant, hkept⟩ := h.first r task w key rfl hpc
  have htraced : ∀ w k, ex.Traced (some r) w k → Traced
      { ex with tasks := ex.tasks.insert key ⟨task.id, w⟩, spawnedBorrowed := false }
      (some { r with pc := .nextSpawned }) w k := by
    intro w k htr
    refine htr.mono rfl rfl rfl fun hp ↦ ?_
    rw [hpc] at hp
    exact hp.elim
  refine ⟨fun k t hk ↦ ?_, fun r₁ t w key' hr hpc' ↦ ?_, fun r₁ hr _ ↦ ?_, fun r₁ hr hpc' ↦ ?_⟩
  · rw [Slab.get_insert hvacant] at hk
    split at hk
    next heq =>
      obtain rfl := heq
      obtain rfl := Option.some.inj hk
      exact ⟨hkey, hkept.mono rfl (htraced _ _)⟩
    next => exact (h.tasks k t hk).imp_right fun hkept ↦ hkept.mono rfl (htraced _ _)
  · obtain rfl := Option.some.inj hr
    exact absurd hpc' (by simp)
  · obtain rfl := Option.some.inj hr
    exact (h.main r rfl (by simp [hpc])).mono rfl (htraced _ _)
  · obtain rfl := Option.some.inj hr
    exact absurd hpc' (by simp)

/-- **One step of `run` loses no wakeup**, unless it is a pop of a reset. -/
theorem WakeInv.trans (h : WakeInv ex (some r)) (ht : ex.Trans r ex' r')
    (hreset : r.pc ≠ .resetting ∨ ex.queue.concurrent = []) : WakeInv ex' (some r') := by
  cases ht
  case resetPop hpc hq =>
    rcases hreset with hne | hnil
    · exact absurd hpc hne
    · exact absurd hq (by simp [hnil])
  case popLocal id rest hpc hq =>
    refine h.pop hpc rfl rfl rfl (fun k hmem ↦ ?_) (fun k hmem ↦ Or.inr hmem) rfl
    rw [hq] at hmem
    exact List.mem_cons.1 hmem
  case popConcurrent id rest hpc hq =>
    refine h.pop hpc rfl rfl rfl (fun k hmem ↦ Or.inr hmem) (fun k hmem ↦ ?_) rfl
    rw [hq] at hmem
    exact List.mem_cons.1 hmem
  case poppedMain d hpc =>
    refine h.advance (by simp [hpc]) rfl rfl rfl rfl (fun _ _ hk ↦ hk) (fun k hk hp ↦ ?_) rfl
      (by simp) (by simp)
    -- only the main future has this id
    rw [hpc] at hp
    exact ⟨hp.elim id And.left, rfl⟩
  case poppedGone id d hpc hid hget =>
    refine h.advance (by simp [hpc]) rfl rfl rfl rfl (fun _ _ hk ↦ hk) (fun k hk hp ↦ ?_) rfl
      (by simp) (by simp)
    rw [hpc] at hp
    rcases hp with rfl | hp
    · rcases hk with hk | ⟨task, hk⟩
      · exact absurd hk hid
      · exact absurd hk (by simp [hget])
    · exact hp
  case removeCancelled id d task hpc hid _ _ =>
    refine h.advance (by simp [hpc]) rfl rfl rfl rfl (fun k t hk ↦ ?_) (fun k hk hp ↦ ?_) rfl
      (by simp) (by simp)
    · exact (Option.ite_none_left_eq_some.1 (Slab.get_remove _ _ _ ▸ hk)).2
    · rw [hpc] at hp
      rcases hp with rfl | hp
      · rcases hk with hk | ⟨task, hk⟩
        · exact absurd hk hid
        · exact absurd hk (by simp [Slab.get_remove])
      · exact hp
  case removeReady key d hpc =>
    refine h.advance (by simp [hpc]) rfl rfl rfl rfl (fun k t hk ↦ ?_) (fun k _ hp ↦ ?_) rfl
      (by simp) (by simp)
    · exact (Option.ite_none_left_eq_some.1 (Slab.get_remove _ _ _ ▸ hk)).2
    · rwa [hpc] at hp
  case clear hpc _ =>
    refine h.advance (by simp [hpc]) rfl rfl rfl rfl (fun k t hk ↦ absurd hk (by simp))
      (fun k _ hp ↦ ?_) rfl (by simp) (by simp)
    rwa [hpc] at hp
  case sleepTask id d task hpc hid hget _ =>
    refine h.sleep (by simp [hpc]) (fun w k hk hne hp ↦ ?_) rfl (by simp) (by simp)
    rw [hpc] at hp
    rcases hp with rfl | hp
    · -- the popped id is the one of the task that is put to sleep
      rcases hk with ⟨hk, -⟩ | ⟨task', hk, hw⟩
      · exact absurd hk hid
      · rw [hget] at hk
        exact absurd (Option.some.inj hk ▸ hw) hne
    · exact hp
  case sleepMain hpc =>
    refine h.sleep (by simp [hpc]) (fun w k hk hne hp ↦ ?_) rfl (by simp) (by simp)
    rw [hpc] at hp
    rcases hk with ⟨-, hw⟩ | ⟨task, hk, -⟩
    · exact absurd hw.symm hne
    · exact absurd hp.1 (h.tasks k task hk).1
  case firstPoll task key hpc hvacant hkey => exact h.firstPoll hpc hvacant hkey
  case pendingFirst task w key hpc => exact h.pendingFirst hpc
  case readyTask hpc _ =>
    refine (h.touch (touch_complete ex _ _)).advance (by simp [hpc]) rfl rfl rfl rfl
      (fun _ _ hk ↦ hk) (fun k _ hp ↦ ?_) rfl (by simp) (by simp)
    rwa [hpc] at hp
  case readyFirst hpc =>
    refine (h.touch (touch_complete ex _ _)).advance (by simp [hpc]) rfl rfl rfl rfl
      (fun _ _ hk ↦ hk) (fun k _ hp ↦ ?_) rfl (by simp) (by simp)
    rwa [hpc] at hp
  case snapshot hpc _ =>
    refine h.advance (by simp [hpc]) rfl rfl rfl rfl (fun _ _ hk ↦ hk) (fun k _ hp ↦ ?_) rfl
      (by simp) (by simp)
    rw [hpc] at hp
    exact hp.elim
  case skipMain hpc =>
    refine h.advance (by simp [hpc]) rfl rfl rfl rfl (fun _ _ hk ↦ hk) (fun k _ hp ↦ ?_) rfl
      (by simp) (by simp)
    rw [hpc] at hp
    exact absurd hp.2 (by simp)
  case borrowTasks | borrowSpawned | unwrap | mainTaskId => exact h.touch (.same rfl rfl rfl rfl)
  -- the other steps only move on, and no popped id is forgotten
  all_goals
    refine h.advance (by simp [‹r.pc = _›]) rfl rfl rfl rfl (fun _ _ hk ↦ hk) (fun k _ hp ↦ ?_) rfl
      (by simp) (by simp)
    rw [‹r.pc = _›] at hp
    exact hp

end Move

/-- While there is something to pop, a reset pops. -/
theorem Trans.eq_of_resetting {r r' : Run} {rest : List ℕ} (ht : ex.Trans r ex' r')
    (hpc : r.pc = .resetting) (hq : ex.queue.concurrent = id :: rest) :
    ex' = { ex with queue := { ex.queue with concurrent := rest } } ∧ r' = r := by
  cases ht
  case resetPop hq' =>
    rw [hq] at hq'
    obtain ⟨-, rfl⟩ := List.cons.inj hq'
    exact ⟨rfl, rfl⟩
  case resetDone hq' => exact absurd hq' (by simp [hq])
  case borrowTasks hpc' _ => exact absurd hpc' (by simp [hpc])
  case borrowSpawned hpc' _ => exact absurd hpc' (by simp [hpc])
  all_goals exact absurd ‹r.pc = _› (by simp [hpc])

end Executor

/-! ### Across runs -/

namespace Single

open Executor

variable {s t : Single V}

/-- An idle `run` future has popped nothing. -/
theorem not_popped_of_isIdle {pc : Pc} (h : pc.isIdle = true) (id : ℕ) : ¬ pc.Popped id := by
  rcases pc <;> first | exact fun hp ↦ hp | exact absurd h (by simp [Pc.isIdle])

/-- The step is one of a reset: the first poll of a `run` future replaces the local queue, and the
steps after it pop the other one. -/
def Resets (s : Single V) (a : Act V) : Prop :=
  ∃ r, s.run = some r ∧ (r.pc = .resetting ∨ r.pc = .created ∧ ∃ cx, a = .poll cx)

/-- **One step loses no wakeup**, unless it is one of a reset that throws away what has been
pushed. -/
theorem wakeInv_step {a : Act V} (h : WakeInv s.ex s.run) (hreset : Resets s a → s.ex.Unpushed)
    (hs : Step s a t) : WakeInv t.ex t.run := by
  cases hs
  case newRun hnone =>
    refine ⟨fun k task hk ↦ ?_, fun r _ _ _ hr hpc ↦ ?_, fun r hr hpc ↦ ?_, fun r hr hpc ↦ ?_⟩
    · refine (h.tasks k task hk).imp_right fun hkept ↦ hkept.mono rfl ?_
      refine Or.imp_right (Or.imp_right ?_)
      rintro ⟨r, hr, -⟩
      exact absurd hr (by simp [hnone])
    all_goals
      obtain rfl := Option.some.inj hr
      exact absurd hpc (by simp [Run.new])
  case dropRun r hrun hidle =>
    refine ⟨fun k task hk ↦ ?_, fun r _ _ _ hr ↦ absurd hr (by simp),
      fun r hr ↦ absurd hr (by simp), fun r hr ↦ absurd hr (by simp)⟩
    refine (h.tasks k task hk).imp_right fun hkept ↦ hkept.mono rfl ?_
    refine Or.imp_right (Or.imp_right ?_)
    rintro ⟨r₁, hr₁, hp⟩
    obtain rfl := Option.some.inj (hrun ▸ hr₁)
    exact absurd hp (not_popped_of_isIdle hidle k)
  case firstPoll r cx hrun hpc =>
    refine ⟨fun k task hk ↦ ?_, fun r₁ _ _ _ hr hpc ↦ ?_, fun r₁ hr _ ↦ ?_, fun r₁ hr _ ↦ ?_⟩
    · obtain ⟨hne, tw, hw, hid, -⟩ := h.tasks k task hk
      refine ⟨hne, tw, ?_, hid, fun hawoken ↦ ?_⟩
      · rw [List.getElem?_append_left (List.getElem?_eq_some_iff.1 hw).1, hw]
      · have hunpushed := hreset ⟨r, hrun, Or.inr ⟨hpc, cx, rfl⟩⟩
        exact Or.inr (Or.inl (hunpushed k task tw hk hw hawoken))
    · obtain rfl := Option.some.inj hr
      exact absurd hpc (by simp)
    · obtain rfl := Option.some.inj hr
      exact ⟨.new MAIN_TASK_ID, by simp, rfl, fun h ↦ absurd h (by simp [TaskWaker.new])⟩
    · exact List.mem_singleton_self _
  case poll r cx hrun hpc =>
    rw [hrun] at h
    refine h.advance (by simp [hpc]) rfl rfl rfl rfl (fun _ _ hk ↦ hk) (fun k _ hp ↦ ?_) rfl
      (by simp) (by simp)
    rw [hpc] at hp
    exact hp.elim
  case run a r r' ex' hrun htrans =>
    rw [hrun] at h
    by_cases hpop : r.pc ≠ .resetting ∨ s.ex.queue.concurrent = []
    · exact h.trans htrans hpop
    · obtain ⟨hpc, hne⟩ := not_or.1 hpop
      rw [not_not] at hpc
      obtain ⟨id, rest, hq⟩ := List.exists_cons_of_ne_nil hne
      obtain ⟨rfl, rfl⟩ := htrans.eq_of_resetting hpc hq
      have hmem := h.reset r' rfl hpc
      refine ⟨fun k task hk ↦ ?_, fun r₁ _ _ _ hr hpc' ↦ ?_, fun r₁ hr _ ↦ ?_, fun _ _ _ ↦ hmem⟩
      · obtain ⟨hne, tw, hw, hid, -⟩ := h.tasks k task hk
        refine ⟨hne, tw, hw, hid, fun hawoken ↦ ?_⟩
        exact Or.inr (Or.inl (hreset ⟨r', hrun, Or.inl hpc⟩ k task tw hk hw hawoken))
      · obtain rfl := Option.some.inj hr
        exact absurd hpc' (by simp [hpc])
      · obtain rfl := Option.some.inj hr
        exact (h.main r' rfl (by simp [hpc])).mono rfl fun _ ↦ Or.inl (Or.inl hmem)
  case ex a ex' hact _ => exact h.touch (touch_of_act hact)

/-- A new executor has no flags. -/
theorem wakeInv_init : WakeInv (init : Single V).ex (init : Single V).run :=
  ⟨fun _ _ h ↦ absurd h (by simp [init, Executor.new]), fun _ _ _ _ h ↦ absurd h (by simp [init]),
    fun _ h ↦ absurd h (by simp [init]), fun _ h ↦ absurd h (by simp [init])⟩

end Single

end LocalRuntime
