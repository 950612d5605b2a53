import LocalRuntime.Executor.MainEvents
import Mathlib.Data.List.Perm.Basic

/-!
# Overlapping runs and their main futures

All `run` futures of an executor share one wake queue, in which one id stands for every main future,
and one base waker. This module says **exactly** when they get in each other's way: when a drain of
one of them pops the last id that stood for the wake of another one's main future, or when the base
waker that is woken for a main future belongs to another `run` future.

`Serves` is what the executor keeps for one `run` future as long as neither happens. A wake of its
main future leaves the id in the queue; the poll that is under way will see it, or a call is about
to wake the base waker, or the waker of the latest poll has been woken; and a poll that has begun
with the id in the queue will poll the main future.
-/

namespace LocalRuntime

open MainEvent

variable {V : Type}

/-! ### One `run` future among others -/

namespace Executor

variable {ex ex' : Executor V} {r r' : Run} {h : List MainEvent}

/-- What the executor keeps for a `run` future whose main future has not returned ready. -/
structure Serves (ex : Executor V) (r : Run) (h : List MainEvent) : Prop where
  kept : ex.Kept (some r) r.mainWaker MAIN_TASK_ID
  called : ex.Awoken r.mainWaker ↔ Called h
  /-- A reset leaves the main future in the queue. -/
  reset : r.pc = .resetting → MAIN_TASK_ID ∈ ex.queue.localIds
  registered : r.pc.outlook.isFirm = true → ex.queue.baseWaker.registered = some r.cx
  heard : r.pc.outlook.isRegistered = true → ∀ c ∈ ex.queue.baseWaker.woken, Roused c h
  ahead : ex.Awoken r.mainWaker →
    r.pc.outlook.Ahead ex.queue ∨ ex.InFlight r.mainWaker ∨ Roused r.cx h
  owed : Owed h → r.pc.outlook.Ahead ex.queue

theorem Kept.traced {run : Option Run} {w id : ℕ} (hk : ex.Kept run w id) (ha : ex.Awoken w) :
    ex.Traced run w id := by
  obtain ⟨tw, hw, -, htraced⟩ := hk
  obtain ⟨tw', hw', hset⟩ := ha
  rw [hw] at hw'
  exact htraced (Option.some.inj hw' ▸ hset)

theorem Serves.lt_wakers (hs : Serves ex r h) : r.mainWaker < ex.wakers.length := by
  obtain ⟨tw, hw, -⟩ := hs.kept
  exact (List.getElem?_eq_some_iff.1 hw).1

/-- The queue does not forget the main future. -/
theorem ahead_of_signal {o : Outlook} (ho : o.Ahead ex.queue) (ht : Touch ex ex') :
    o.Ahead ex'.queue := by
  have hbase : ∀ baseWaker, o.Ahead { ex.queue with baseWaker } := fun _ ↦ by
    cases o <;> exact ho
  cases ht
  case push hqueue => exact hqueue ▸ ho.push _ _
  case fire hqueue | hear hqueue => exact hqueue ▸ hbase _
  all_goals exact ‹ex'.queue = _› ▸ ho

/-- The base waker is woken for a call that is over. -/
theorem Serves.roused_of_registered {events : ℕ → List MainEvent} (hs : Serves ex r h)
    (hsig : Signal ex ex' events) (hreg : r.pc.outlook.isRegistered = true)
    (hcx : ex.queue.baseWaker.registered = some r.cx) (hold : ex.InFlight r.mainWaker)
    (hnew : ¬ ex'.InFlight r.mainWaker) : Roused r.cx (h ++ events r.mainWaker) := by
  have hwake := baseWaker_of_not_inFlight hsig.touch hold hnew
  obtain ⟨c, hc, hmem⟩ : ex'.queue.baseWaker.Woken := by
    rw [hwake]
    exact AtomicWaker.woken_wake (by simp [hcx])
  rw [hsig.touch.registered_eq, hcx] at hc
  obtain rfl := Option.some.inj hc
  rcases hsig.heard _ hmem with hmem | hev
  · exact (hs.heard hreg _ hmem).append (hsig.isSignal _)
  · rw [hev]
    exact roused_concat.2 (Or.inl rfl)

/-- **A signal keeps what a `run` future is served**, unless the base waker is woken for its main
future and belongs to another one. -/
theorem Serves.signal {events : ℕ → List MainEvent} (hs : Serves ex r h)
    (hsig : Signal ex ex' events) (hlive : r.pc.outlook ≠ .outside)
    (hfire : r.pc.outlook = .resting → ex.Awoken r.mainWaker → ex.InFlight r.mainWaker →
      ¬ ex'.InFlight r.mainWaker → ex.queue.baseWaker.registered = some r.cx ∨ Roused r.cx h) :
    Serves ex' r (h ++ events r.mainWaker) := by
  have hes := hsig.isSignal r.mainWaker
  have hkept := hs.kept.touch hsig.touch
  refine ⟨hkept, ?_, fun hpc ↦ ?_, fun ho ↦ ?_, fun ho c hc ↦ ?_, fun ha ↦ ?_, fun ho ↦ ?_⟩
  · rw [hsig.awoken, hs.called, called_append hes]
  · exact hsig.touch.mem_localIds (hs.reset hpc)
  · rw [hsig.touch.registered_eq]
    exact hs.registered ho
  · rcases hsig.heard c hc with hc | hev
    · exact (hs.heard ho c hc).append hes
    · rw [hev]
      exact roused_concat.2 (Or.inl rfl)
  · by_cases hold : ex.Awoken r.mainWaker
    · rcases hs.ahead hold with hah | hfl | hr
      · exact Or.inl (ahead_of_signal hah hsig.touch)
      · by_cases hfl' : ex'.InFlight r.mainWaker
        · exact Or.inr (Or.inl hfl')
        · rcases ho : r.pc.outlook with - | registered | d | -
          · exact absurd ho hlive
          · -- the poll has yet to read the lengths, and the id is in the queue by then
            rcases hkept.traced ha with hq | hp | ⟨r₁, hr₁, hp⟩
            · exact Or.inl hq
            · exact absurd hp.inFlight hfl'
            · obtain rfl := Option.some.inj hr₁
              obtain ⟨d, hd, -⟩ := Pc.popped_main_iff.1 hp
              exact absurd hd (by simp [ho])
          · refine Or.inr (Or.inr (hs.roused_of_registered hsig ?_ ?_ hfl hfl'))
            · rw [ho]
              rfl
            · exact hs.registered (by rw [ho]; rfl)
          · refine Or.inr (Or.inr ?_)
            rcases hfire ho hold hfl hfl' with hcx | hr
            · exact hs.roused_of_registered hsig (by rw [ho]; rfl) hcx hfl hfl'
            · exact hr.append hes
      · exact Or.inr (Or.inr (hr.append hes))
    · exact Or.inr (Or.inl (inFlight_of_awoken hsig.touch ha hold))
  · exact ahead_of_signal (hs.owed ((owed_append hes).1 ho)) hsig.touch

/-- A step that changes nothing but where the `run` future is. -/
theorem Serves.turn (hs : Serves ex r h)
    (hwakers : ex'.wakers[r.mainWaker]? = ex.wakers[r.mainWaker]?)
    (hflights : ex'.flights = ex.flights) (hqueue : ex'.queue = ex.queue)
    (hmain : r'.mainWaker = r.mainWaker) (hcx : r'.cx = r.cx)
    (hpopped : r.pc.Popped MAIN_TASK_ID → r'.pc.Popped MAIN_TASK_ID)
    (hfirm : r'.pc.outlook.isFirm = true → r.pc.outlook.isFirm = true)
    (hregistered : r'.pc.outlook.isRegistered = true → r.pc.outlook.isRegistered = true)
    (hahead : r.pc.outlook.Ahead ex.queue → r'.pc.outlook.Ahead ex.queue)
    (hreset : r'.pc = .resetting → r.pc = .resetting) : Serves ex' r' h := by
  have hawoken : ex'.Awoken r.mainWaker ↔ ex.Awoken r.mainWaker := awoken_congr hwakers
  refine ⟨?_, ?_, fun hr ↦ ?_, fun ho ↦ ?_, fun ho ↦ ?_, fun ha ↦ ?_, fun ho ↦ ?_⟩
  · rw [hmain]
    refine hs.kept.mono hwakers fun htr ↦ htr.mono ?_ ?_ hflights hpopped
    · rw [hqueue]
    · rw [hqueue]
  · rw [hmain, hawoken, hs.called]
  · rw [hqueue]
    exact hs.reset (hreset hr)
  · rw [hqueue, hcx]
    exact hs.registered (hfirm ho)
  · rw [hqueue]
    exact hs.heard (hregistered ho)
  · rw [hmain, hawoken] at ha
    rw [hqueue, hmain, hcx, InFlight, hflights]
    exact (hs.ahead ha).imp_left hahead
  · rw [hqueue]
    exact hahead (hs.owed ho)

/-- A step that only moves on. -/
theorem Serves.advance (hs : Serves ex r h)
    (hwakers : ex'.wakers[r.mainWaker]? = ex.wakers[r.mainWaker]?)
    (hflights : ex'.flights = ex.flights) (hqueue : ex'.queue = ex.queue)
    (hmain : r'.mainWaker = r.mainWaker) (hcx : r'.cx = r.cx) (hpc : r'.pc.outlook = r.pc.outlook)
    (hreset : r'.pc = .resetting → r.pc = .resetting) : Serves ex' r' h := by
  refine hs.turn hwakers hflights hqueue hmain hcx ?_ (fun ho ↦ hpc ▸ ho)
    (fun ho ↦ hpc ▸ ho) ?_ hreset
  · rw [Pc.popped_main_iff, Pc.popped_main_iff, hpc]
    exact fun hp ↦ hp
  · rw [hpc]
    exact fun hah ↦ hah

/-! ### Its own steps -/

theorem not_awoken_toSleep (ex : Executor V) (w : ℕ) : ¬ (ex.toSleep w).Awoken w := by
  rintro ⟨tw, hw, hset⟩
  rw [toSleep, getElem?_setAwoken] at hw
  obtain ⟨tw', -, rfl⟩ := Option.map_eq_some_iff.1 hw
  simp at hset

/-- The end of a task ends no call. -/
theorem inFlight_complete {w : ℕ} (hfl : ex.InFlight w) (id : ℕ) (v : V) :
    (ex.complete id v).InFlight w := by
  simp only [Executor.complete]
  split
  next waker _ =>
    rcases waker with u | b
    · refine InFlight.wake ?_ u true
      exact hfl
    · exact hfl
  next => exact hfl

/-- The end of a task keeps what a `run` future is served. -/
theorem Serves.complete (hs : Serves ex r h) (hlive : r.pc.outlook ≠ .outside) (id : ℕ) (v : V) :
    Serves (ex.complete id v) r (h ++ ex.completeEvents r.mainWaker id) :=
  hs.signal (signal_complete ex id v) hlive
    fun _ _ hfl hfl' ↦ absurd (inFlight_complete hfl id v) hfl'

/-- A poll returns pending. -/
theorem Serves.pend (hs : Serves ex r h) : Serves ex r (h ++ [.pended]) := by
  have hr : ∀ c, Roused c h → Roused c (h ++ [.pended]) :=
    fun c hc ↦ roused_concat.2 (Or.inr ⟨by simp, hc⟩)
  refine ⟨hs.kept, ?_, hs.reset, hs.registered, fun ho c hc ↦ hr c (hs.heard ho c hc), fun ha ↦ ?_,
    fun ho ↦ ?_⟩
  · rw [hs.called, called_concat]
    simp
  · exact (hs.ahead ha).imp_right (Or.imp_right (hr _))
  · rw [owed_concat] at ho
    exact hs.owed (ho.elim (fun hb ↦ absurd hb.1 (by simp)) And.right)

/-- **A drain pops an id.** If it stands for the main future, the main future is polled in this
poll. -/
theorem Serves.pop {d d' : Drain} {q : WakeQueue} {id : ℕ} (hs : Serves ex r h)
    (hpc : r.pc = .drain d) (hbase : q.baseWaker = ex.queue.baseWaker)
    (hseen : d'.mainTaskAwoken = d.mainTaskAwoken)
    (hhas : ex.queue.Has MAIN_TASK_ID → id = MAIN_TASK_ID ∨ q.Has MAIN_TASK_ID)
    (hholds : d.Holds ex.queue MAIN_TASK_ID → id = MAIN_TASK_ID ∨ d'.Holds q MAIN_TASK_ID) :
    Serves { ex with queue := q } { r with pc := .popped id d' } h := by
  have hahead : r.pc.outlook.Ahead ex.queue → (Pc.popped id d').outlook.Ahead q := by
    rw [hpc]
    intro hah
    show ((d'.mainTaskAwoken || id == MAIN_TASK_ID) = true) ∨ d'.Holds q MAIN_TASK_ID
    rw [Bool.or_eq_true, beq_iff_eq, hseen]
    rcases hah with hset | hd
    · exact Or.inl (Or.inl hset)
    · exact (hholds hd).imp_left Or.inr
  refine ⟨?_, hs.called, fun hr ↦ absurd hr (by simp), fun _ ↦ ?_, fun _ ↦ ?_, fun ha ↦ ?_,
    fun ho ↦ hahead (hs.owed ho)⟩
  · refine hs.kept.mono rfl fun htr ↦ ?_
    rcases htr with hq | hp | ⟨r₁, hr₁, hp⟩
    · rcases hhas hq with hid | hq
      · exact Or.inr (Or.inr ⟨_, rfl, Or.inl hid.symm⟩)
      · exact Or.inl hq
    · exact Or.inr (Or.inl hp)
    · obtain rfl := Option.some.inj hr₁
      rw [hpc] at hp
      exact Or.inr (Or.inr ⟨_, rfl, Or.inr ⟨rfl, hseen.trans hp.2⟩⟩)
  · rw [hbase]
    exact hs.registered (by rw [hpc]; rfl)
  · rw [hbase]
    exact hs.heard (by rw [hpc]; rfl)
  · exact (hs.ahead ha).imp_left hahead

/-- A poll registers its waker. -/
theorem Serves.register (hs : Serves ex r h) (hpc : r.pc = .register) :
    Serves { ex with queue := { ex.queue with baseWaker := ex.queue.baseWaker.register r.cx } }
      { r with pc := .snapshot } h := by
  refine ⟨?_, hs.called, fun hr ↦ absurd hr (by simp), fun _ ↦ rfl, fun _ c hc ↦ ?_, ?_, ?_⟩
  · refine hs.kept.mono rfl fun htr ↦ htr.mono rfl rfl rfl fun hp ↦ ?_
    rw [hpc] at hp
    exact hp.elim
  · exact absurd hc List.not_mem_nil
  · have hah := hs.ahead
    rw [hpc] at hah
    exact hah
  · have hah := hs.owed
    rw [hpc] at hah
    exact hah

/-- The main future is put to sleep and polled. -/
theorem Serves.sleepMain (hs : Serves ex r h) (hpc : r.pc = .mainCheck true) :
    Serves (ex.toSleep r.mainWaker) { r with pc := .pollMain } (h ++ [.polled]) := by
  refine ⟨hs.kept.toSleep _ fun hne ↦ absurd rfl hne, ?_, fun hr ↦ absurd hr (by simp),
    fun ho ↦ absurd ho (by simp [Pc.outlook, Outlook.isFirm]), fun _ c hc ↦ ?_, fun ha ↦ ?_,
    fun ho ↦ ?_⟩
  · rw [called_concat]
    simp [not_awoken_toSleep]
  · exact roused_concat.2 (Or.inr ⟨by simp, hs.heard (by rw [hpc]; rfl) c hc⟩)
  · exact absurd ha (not_awoken_toSleep ex _)
  · rw [owed_concat] at ho
    exact absurd ho (by simp)

/-- **One step of a `run` future keeps what it is served.** -/
theorem Serves.trans (hs : Serves ex r h) (ht : ex.Trans r ex' r')
    (hlive : r'.pc.outlook ≠ .outside)
    (htasks : ∀ key task, ex.tasks.get key = some task → task.waker ≠ r.mainWaker) :
    Serves ex' r' (h ++ ex.transEvents r.mainWaker r r') := by
  cases ht
  case resetPop id rest hpc hq =>
    have hmem := hs.reset hpc
    simp only [transEvents, hpc, List.append_nil]
    refine ⟨hs.kept.mono rfl fun _ ↦ Or.inl (Or.inl hmem), hs.called, fun _ ↦ hmem, hs.registered,
      hs.heard, fun _ ↦ Or.inl ?_, fun _ ↦ ?_⟩
    all_goals
      rw [hpc]
      exact Or.inl hmem
  case register hpc =>
    simp only [transEvents, hpc, List.append_nil]
    exact hs.register hpc
  case snapshot hpc _ =>
    simp only [transEvents, hpc, List.append_nil]
    refine hs.turn rfl rfl rfl rfl rfl (fun hp ↦ ?_) (fun _ ↦ by rw [hpc]; rfl)
      (fun _ ↦ by rw [hpc]; rfl) (fun hah ↦ ?_) (by simp)
    · rw [hpc] at hp
      exact hp.elim
    · rw [hpc] at hah
      have hq : ex.queue.Has MAIN_TASK_ID := hah
      exact Or.inr (by simpa [Drain.Holds, WakeQueue.Has] using hq)
  case popLocal n m awoken id rest hpc hq =>
    simp only [transEvents, hpc, List.append_nil]
    refine hs.pop hpc rfl rfl (fun hhas ↦ ?_) fun hholds ↦ hholds.popLocal hq
    rw [WakeQueue.Has, hq, List.mem_cons, or_assoc] at hhas
    exact hhas.imp_left Eq.symm
  case popConcurrent m awoken id rest hpc hq =>
    simp only [transEvents, hpc, List.append_nil]
    refine hs.pop hpc rfl rfl (fun hhas ↦ ?_) fun hholds ↦ hholds.popConcurrent hq
    rw [WakeQueue.Has, hq, List.mem_cons, or_left_comm] at hhas
    exact hhas.imp_left Eq.symm
  case drained m awoken hpc hq =>
    simp only [transEvents, hpc, List.append_nil]
    refine hs.turn rfl rfl rfl rfl rfl (fun hp ↦ ?_) (fun _ ↦ by rw [hpc]; rfl)
      (fun _ ↦ by rw [hpc]; rfl) (fun hah ↦ ?_) (by simp)
    · rw [hpc] at hp
      exact hp
    · -- nothing is left to pop, so the main future has been seen if it was ahead
      rw [hpc] at hah
      exact Or.inl (hah.resolve_right (Drain.not_holds_of_drained hq))
  case sleepMain hpc =>
    rw [show ex.transEvents r.mainWaker r _ = [.polled] by simp [transEvents, hpc]]
    exact hs.sleepMain hpc
  case skipMain hpc =>
    simp only [transEvents, hpc, List.append_nil]
    refine hs.turn rfl rfl rfl rfl rfl (fun hp ↦ ?_)
      (fun ho ↦ absurd ho (by simp [Pc.outlook, Outlook.isFirm]))
      (fun _ ↦ by rw [hpc]; rfl) (fun hah ↦ ?_) (by simp)
    · rw [hpc] at hp
      exact absurd hp.2 (by simp)
    · rw [hpc] at hah
      exact absurd hah (by simp [Pc.outlook, Outlook.Ahead, Drain.Holds])
  case noSpawned hpc _ _ =>
    rw [show ex.transEvents r.mainWaker r _ = [.pended] by simp [transEvents, hpc]]
    exact hs.pend.advance rfl rfl rfl rfl rfl (by rw [hpc]; rfl) (by simp)
  case readyTask key d task v hpc hget =>
    rw [show ex.transEvents r.mainWaker r _ = ex.completeEvents r.mainWaker task.id by
      simp [transEvents, hpc, hget]]
    refine (hs.complete ?_ task.id v).advance rfl rfl rfl rfl rfl (by rw [hpc]; rfl) (by simp)
    simp [hpc, Pc.outlook]
  case readyFirst task w key v hpc =>
    rw [show ex.transEvents r.mainWaker r _ = ex.completeEvents r.mainWaker task.id by
      simp [transEvents, hpc]]
    refine (hs.complete ?_ task.id v).advance rfl rfl rfl rfl rfl (by rw [hpc]; rfl) (by simp)
    simp [hpc, Pc.outlook]
  case sleepTask id d task hpc hid hget _ =>
    simp only [transEvents, hpc, List.append_nil]
    refine hs.advance (getElem?_toSleep_of_ne (htasks id task hget)) rfl rfl rfl rfl ?_ (by simp)
    rw [hpc, Pc.outlook_popped hid]
    rfl
  case firstPoll task key hpc _ _ =>
    simp only [transEvents, hpc, List.append_nil]
    refine hs.advance ?_ rfl rfl rfl rfl (by rw [hpc]; rfl) (by simp)
    exact List.getElem?_append_left hs.lt_wakers
  case poppedGone id d hpc hid _ | removeCancelled id d _ hpc hid _ _ =>
    simp only [transEvents, hpc, List.append_nil]
    refine hs.advance rfl rfl rfl rfl rfl ?_ (by simp)
    rw [hpc, Pc.outlook_popped hid]
    rfl
  case poppedMain d hpc =>
    simp only [transEvents, hpc, List.append_nil]
    refine hs.advance rfl rfl rfl rfl rfl ?_ (by simp)
    simp [hpc, Pc.outlook]
  case borrowTasks hpc _ =>
    rw [show ex.transEvents _ r _ = [] by
      rcases hpc with hpc | hpc | hpc <;> simp [transEvents, hpc], List.append_nil]
    exact hs.advance rfl rfl rfl rfl rfl rfl (fun hr ↦ hr)
  case borrowSpawned hpc _ =>
    rw [show ex.transEvents _ r _ = [] by rcases hpc with hpc | hpc <;> simp [transEvents, hpc],
      List.append_nil]
    exact hs.advance rfl rfl rfl rfl rfl rfl (fun hr ↦ hr)
  case unwrap hpc _ | mainTaskId hpc =>
    simp only [transEvents, hpc, List.append_nil]
    exact hs.advance rfl rfl rfl rfl rfl rfl (fun hr ↦ hr)
  case clear | clearedTasks | clearSpawned | clearedSpawned | droppedClearTasks |
      droppedClearSpawned | droppedMain | readyMain =>
    exact absurd rfl hlive
  all_goals
    simp only [transEvents, ‹r.pc = _›, List.append_nil]
    exact hs.advance rfl rfl rfl rfl rfl (by rw [‹r.pc = _›]; rfl) (by simp)

/-! ### The steps of the others -/

/-- The id that the next step of a drain pops, and the queue without it. -/
def nextPop (ex : Executor V) : Pc → Option (ℕ × WakeQueue)
  | .drain ⟨_ + 1, _, _⟩ =>
    match ex.queue.localIds with
    | id :: rest => some (id, { ex.queue with localIds := rest })
    | [] => none
  | .drain ⟨0, _ + 1, _⟩ =>
    match ex.queue.concurrent with
    | id :: rest => some (id, { ex.queue with concurrent := rest })
    | [] => none
  | _ => none

/-- What others do while a `run` future waits for its next poll. -/
theorem Serves.yield (hs : Serves ex r h) (hpc : r.pc.outlook = .resting)
    (hwakers : ex'.wakers[r.mainWaker]? = ex.wakers[r.mainWaker]?)
    (hflights : ex'.flights = ex.flights)
    (hwoken : ∀ c ∈ ex'.queue.baseWaker.woken, c ∈ ex.queue.baseWaker.woken)
    (hhas : ex.queue.Has MAIN_TASK_ID → ex.Awoken r.mainWaker →
      ex'.queue.Has MAIN_TASK_ID ∨ ex.Pushing r.mainWaker) : Serves ex' r h := by
  have hawoken : ex'.Awoken r.mainWaker ↔ ex.Awoken r.mainWaker := awoken_congr hwakers
  have hnot : ∀ q, ¬ r.pc.outlook.Ahead q := by
    rw [hpc]
    exact fun _ hah ↦ hah
  refine ⟨?_, hawoken.trans hs.called, fun hr ↦ ?_, fun ho ↦ ?_,
    fun ho c hc ↦ hs.heard ho c (hwoken c hc), fun ha ↦ ?_, fun ho ↦ absurd (hs.owed ho) (hnot _)⟩
  · obtain ⟨tw, hw, hid, htraced⟩ := hs.kept
    refine ⟨tw, hwakers.trans hw, hid, fun hset ↦ ?_⟩
    rcases htraced hset with hq | hp | hp
    · refine (hhas hq ⟨tw, hw, hset⟩).imp_right fun hp ↦ Or.inl ?_
      rwa [Pushing, hflights]
    · exact Or.inr (Or.inl (by rwa [Pushing, hflights]))
    · exact Or.inr (Or.inr hp)
  · exact absurd hpc (by simp [hr, Pc.outlook])
  · exact absurd ho (by simp [hpc, Outlook.isFirm])
  · refine Or.inr (((hs.ahead (hawoken.1 ha)).resolve_left (hnot _)).imp_left fun hfl ↦ ?_)
    rwa [InFlight, hflights]

/-- **A step of another `run` future**, unless it pops the last id that stands for the main
future. -/
theorem Serves.other {R : Run} (hs : Serves ex R h) (hR : R.pc.outlook = .resting)
    (ht : ex.Trans r ex' r') (hreset : r.pc = .resetting → MAIN_TASK_ID ∈ ex.queue.localIds)
    (hne : r.pc.outlook ≠ .outside → r.mainWaker ≠ R.mainWaker)
    (htasks : ∀ key task, ex.tasks.get key = some task → task.waker ≠ R.mainWaker)
    (hpop : ∀ q, ex.nextPop r.pc = some (MAIN_TASK_ID, q) → ¬ q.Has MAIN_TASK_ID →
      ex.Awoken R.mainWaker → ex.Pushing R.mainWaker) :
    Serves ex' R (h ++ ex.transEvents R.mainWaker r r') := by
  have hlive : R.pc.outlook ≠ .outside := by simp [hR]
  cases ht
  case resetPop hpc _ =>
    simp only [transEvents, hpc, List.append_nil]
    exact hs.yield hR rfl rfl (fun _ hc ↦ hc) fun _ _ ↦ Or.inl (Or.inl (hreset hpc))
  case register hpc =>
    simp only [transEvents, hpc, List.append_nil]
    exact hs.yield hR rfl rfl (fun _ hc ↦ absurd hc List.not_mem_nil) fun hq _ ↦ Or.inl hq
  case popLocal n m awoken id rest hpc hq =>
    simp only [transEvents, hpc, List.append_nil]
    refine hs.yield hR rfl rfl (fun _ hc ↦ hc) fun hhas ha ↦ ?_
    by_cases hleft : WakeQueue.Has { ex.queue with localIds := rest } MAIN_TASK_ID
    · exact Or.inl hleft
    · refine Or.inr (hpop _ ?_ hleft ha)
      rw [WakeQueue.Has, hq, List.mem_cons, or_assoc] at hhas
      rw [hpc, hhas.resolve_right hleft]
      simp only [nextPop, hq]
  case popConcurrent m awoken id rest hpc hq =>
    simp only [transEvents, hpc, List.append_nil]
    refine hs.yield hR rfl rfl (fun _ hc ↦ hc) fun hhas ha ↦ ?_
    by_cases hleft : WakeQueue.Has { ex.queue with concurrent := rest } MAIN_TASK_ID
    · exact Or.inl hleft
    · refine Or.inr (hpop _ ?_ hleft ha)
      rw [WakeQueue.Has, hq, List.mem_cons, or_left_comm] at hhas
      rw [hpc, hhas.resolve_right hleft]
      simp only [nextPop, hq]
  case sleepTask id d task hpc _ hget _ =>
    simp only [transEvents, hpc, List.append_nil]
    exact hs.yield hR (getElem?_toSleep_of_ne (htasks id task hget)) rfl (fun _ hc ↦ hc)
      fun hq _ ↦ Or.inl hq
  case sleepMain hpc =>
    have hne := hne (by simp [hpc, Pc.outlook])
    simp only [transEvents, hpc, Ne.symm hne, if_false, List.append_nil]
    exact hs.yield hR (getElem?_toSleep_of_ne hne) rfl (fun _ hc ↦ hc) fun hq _ ↦ Or.inl hq
  case noSpawned hpc _ _ =>
    have hne := hne (by simp [hpc, Pc.outlook])
    simp only [transEvents, hpc, Ne.symm hne, if_false, List.append_nil]
    exact hs.yield hR rfl rfl (fun _ hc ↦ hc) fun hq _ ↦ Or.inl hq
  case firstPoll hpc _ _ =>
    simp only [transEvents, hpc, List.append_nil]
    exact hs.yield hR (List.getElem?_append_left hs.lt_wakers) rfl (fun _ hc ↦ hc)
      fun hq _ ↦ Or.inl hq
  case readyTask key d task v hpc hget =>
    simp only [transEvents, hpc, hget, Option.map_some, Option.getD_some]
    exact hs.complete hlive task.id v
  case readyFirst task w key v hpc =>
    simp only [transEvents, hpc]
    exact hs.complete hlive task.id v
  case borrowTasks hpc _ =>
    rw [show ex.transEvents _ r _ = [] by
      rcases hpc with hpc | hpc | hpc <;> simp [transEvents, hpc], List.append_nil]
    exact hs.yield hR rfl rfl (fun _ hc ↦ hc) fun hq _ ↦ Or.inl hq
  case borrowSpawned hpc _ =>
    rw [show ex.transEvents _ r _ = [] by rcases hpc with hpc | hpc <;> simp [transEvents, hpc],
      List.append_nil]
    exact hs.yield hR rfl rfl (fun _ hc ↦ hc) fun hq _ ↦ Or.inl hq
  -- the other steps are about the tasks
  all_goals
    simp only [transEvents, ‹r.pc = _›, List.append_nil]
    exact hs.yield hR rfl rfl (fun _ hc ↦ hc) fun hq _ ↦ Or.inl hq

/-! ### The start of a poll -/

/-- **A poll that begins finds the id of its main future in the queue**, if the main future has been
woken and the id has been pushed. -/
theorem Serves.begin (hs : Serves ex r h) (hpc : r.pc = .pending) (cx : ℕ) :
    Serves ex { r with pc := .register, cx } (h ++ [.began cx (ex.isPushing r.mainWaker)]) := by
  have hpopped : ¬ r.pc.Popped MAIN_TASK_ID := Pc.not_popped_of_resting (by rw [hpc]; rfl)
  have hq : ex.Awoken r.mainWaker → ex.queue.Has MAIN_TASK_ID ∨ ex.Pushing r.mainWaker := by
    intro ha
    rcases hs.kept.traced ha with hq | hp | ⟨r₁, hr₁, hp⟩
    · exact Or.inl hq
    · exact Or.inr hp
    · obtain rfl := Option.some.inj hr₁
      exact absurd hp hpopped
  refine ⟨?_, ?_, fun hr ↦ absurd hr (by simp),
    fun ho ↦ absurd ho (by simp [Pc.outlook, Outlook.isFirm]),
    fun ho ↦ absurd ho (by simp [Pc.outlook, Outlook.isRegistered]), fun ha ↦ ?_, fun ho ↦ ?_⟩
  · exact hs.kept.mono rfl fun htr ↦ htr.mono rfl rfl rfl fun hp ↦ absurd hp hpopped
  · rw [hs.called, called_concat]
    simp
  · exact (hq ha).imp_right fun hp ↦ Or.inl hp.inFlight
  · rw [owed_concat] at ho
    rcases ho with ⟨⟨cx', hbegan⟩, hcalled⟩ | ⟨-, ho⟩
    · refine (hq (hs.called.2 hcalled)).resolve_right fun hp ↦ ?_
      rw [(isPushing_iff).2 hp] at hbegan
      exact absurd hbegan (by simp)
    · have hah := hs.owed ho
      rw [hpc] at hah
      exact hah.elim

/-- The first poll, with a new waker. -/
theorem Serves.first (hf : IsFresh h) (cx : ℕ) (pushing : Bool) :
    Serves { ex with
        wakers := ex.wakers ++ [.new MAIN_TASK_ID]
        queue := ex.queue.resetLocal MAIN_TASK_ID }
      { pc := .resetting, mainWaker := ex.wakers.length, cx } (h ++ [.began cx pushing]) := by
  have hawoken : ¬ Awoken { ex with
      wakers := ex.wakers ++ [.new MAIN_TASK_ID]
      queue := ex.queue.resetLocal MAIN_TASK_ID } ex.wakers.length := by
    rintro ⟨tw, hw, hset⟩
    simp only [List.getElem?_concat_length, Option.some.injEq] at hw
    rw [← hw] at hset
    exact absurd hset (by simp [TaskWaker.new])
  refine ⟨⟨.new MAIN_TASK_ID, by simp, rfl, fun hset ↦ absurd hset (by simp [TaskWaker.new])⟩, ?_,
    fun _ ↦ List.mem_singleton_self _, fun ho ↦ absurd ho (by simp [Pc.outlook, Outlook.isFirm]),
    fun ho ↦ absurd ho (by simp [Pc.outlook, Outlook.isRegistered]), fun ha ↦ absurd ha hawoken,
    fun ho ↦ ?_⟩
  · refine iff_of_false hawoken fun hc ↦ ?_
    rw [called_concat] at hc
    exact hf.not_called (hc.elim (fun he ↦ absurd he (by simp)) And.right)
  · rw [owed_concat] at ho
    rcases ho with ⟨-, hc⟩ | ⟨-, ho⟩
    · exact absurd hc hf.not_called
    · exact absurd ho hf.not_owed

end Executor

end LocalRuntime
