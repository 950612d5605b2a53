import LocalRuntime.Lib.History
import LocalRuntime.Time.PendingTimers

/-!
# The schedule of a periodic timer

`Periodic::poll_next` computes the next expiry from the previous one and never from the clock. What
a periodic timer is for is therefore said without a clock: a `Schedule` is the next instant and the
period in force, and `Schedule.Step` is what `set_period` and `poll_next` may do to it. The
histories of the timers of a thread lead from schedule to schedule by these steps (`PeriodicInv`),
whatever the other timers and `clear_expired` do in between, and a history of such steps has ticked
at the start plus the sums of the periods that were in force (`Schedule.of_leads`).

The expiry is also half of the key of the timer's entry, so an expiry that changes while the entry
is in the queue would orphan it. It only changes in a ready poll, which has given the entry up
(`Periodic.pollNext_cases`).
-/

namespace LocalRuntime

variable {W : Type*}

/-- What happens to a periodic timer: its period is changed, or `poll_next` is called at a clock
reading and returns an answer. -/
inductive Tick where
  | setPeriod (period : Duration)
  | polled (now : Instant) (answer : Poll (Option Instant))

/-! ### Schedules -/

/-- The next instant a periodic timer is due, and the period in force. -/
structure Schedule where
  next : Instant
  period : Duration

/-- What a call does to a schedule. -/
inductive Schedule.Step : Schedule → Tick → Schedule → Prop where
  | setPeriod {next : Instant} {p : Duration} (period : Duration) :
    Step ⟨next, p⟩ (.setPeriod period) ⟨next, period⟩
  | tick {next now : Instant} {p : Duration} (h : next ≤ now) :
    Step ⟨next, p⟩ (.polled now (.ready (some next))) ⟨next + p, p⟩
  | early {next now : Instant} {p : Duration} (h : now < next) :
    Step ⟨next, p⟩ (.polled now .pending) ⟨next, p⟩

/-- The answer of a poll at the clock reading `now` when `next` is the next instant due. -/
def answerAt (next now : Instant) : Poll (Option Instant) :=
  if next ≤ now then .ready (some next) else .pending

/-- The items yielded in a history. -/
def yielded : List Tick → List Instant
  | [] => []
  | .polled _ (.ready (some item)) :: h => item :: yielded h
  | _ :: h => yielded h

/-- The period in force after a history that began with the period `p`. -/
def periodAfter : Duration → List Tick → Duration
  | p, [] => p
  | _, .setPeriod p :: h => periodAfter p h
  | p, .polled _ _ :: h => periodAfter p h

/-- The periods in force at the items of a history that began with the period `p`. -/
def periodsAt : Duration → List Tick → List Duration
  | _, [] => []
  | _, .setPeriod p :: h => periodsAt p h
  | p, .polled _ (.ready _) :: h => p :: periodsAt p h
  | p, .polled _ .pending :: h => periodsAt p h

/-- The instants of the ticks that come from a start and a list of periods: each is the start plus
the sum of the periods before it. -/
def ticks (start : Instant) (periods : List Duration) : List Instant :=
  (List.range periods.length).map fun k ↦ start + (periods.take k).sum

theorem getElem?_ticks {start : Instant} {periods : List Duration} {k : ℕ}
    (hk : k < periods.length) :
    (ticks start periods)[k]? = some (start + (periods.take k).sum) := by
  rw [ticks, List.getElem?_map, List.getElem?_range hk]
  rfl

/-- One more period adds one more tick, one full sum after the start. -/
theorem ticks_concat (start : Instant) (periods : List Duration) (p : Duration) :
    ticks start (periods ++ [p]) = ticks start periods ++ [start + periods.sum] := by
  have hold : ∀ k ∈ List.range periods.length,
      start + ((periods ++ [p]).take k).sum = start + (periods.take k).sum := by
    intro k hk
    rw [List.take_append_of_le_length (List.mem_range.1 hk).le]
  rw [ticks, List.length_append, List.length_singleton, List.range_succ, List.map_append,
    List.map_congr_left hold, List.map_singleton, List.take_left]
  rfl

theorem yielded_append (h k : List Tick) : yielded (h ++ k) = yielded h ++ yielded k := by
  induction h using yielded.induct with
  | case1 => rfl
  | case2 now item h ih => rw [List.cons_append, yielded, yielded, ih, List.cons_append]
  | case3 e h hne ih =>
    rw [List.cons_append, yielded, yielded, ih]
    · exact hne
    · exact hne

theorem periodAfter_append (p : Duration) (h k : List Tick) :
    periodAfter p (h ++ k) = periodAfter (periodAfter p h) k := by
  induction p, h using periodAfter.induct with
  | case1 p => rfl
  | case2 p period h ih => exact ih
  | case3 p now answer h ih => exact ih

theorem periodsAt_append (p : Duration) (h k : List Tick) :
    periodsAt p (h ++ k) = periodsAt p h ++ periodsAt (periodAfter p h) k := by
  induction p, h using periodsAt.induct with
  | case1 p => rfl
  | case2 p period h ih => exact ih
  | case3 p now item h ih => exact congrArg (p :: ·) ih
  | case4 p now h ih => exact ih

namespace Schedule

variable {start : Instant} {p₀ : Duration} {h : List Tick} {σ : Schedule}

/-- **What a schedule knows of its history**: the period is the one in force, the next instant lies
one sum of periods after the start, and the items are the ticks before it. -/
theorem of_leads (hl : Leads Step ⟨start, p₀⟩ h σ) :
    σ.period = periodAfter p₀ h ∧ σ.next = start + (periodsAt p₀ h).sum ∧
      yielded h = ticks start (periodsAt p₀ h) := by
  induction hl with
  | nil => exact ⟨rfl, rfl, rfl⟩
  | @snoc h u t e _ hR ih =>
    obtain ⟨hperiod, hnext, hitems⟩ := ih
    rw [periodAfter_append, periodsAt_append, yielded_append, ← hperiod, hitems]
    cases hR with
    | setPeriod period =>
      show _ ∧ _ = start + (periodsAt p₀ h ++ []).sum ∧
        ticks start (periodsAt p₀ h) ++ [] = ticks start (periodsAt p₀ h ++ [])
      rw [List.append_nil, List.append_nil]
      exact ⟨rfl, hnext, rfl⟩
    | @tick next now p hle =>
      have hnext : next = start + (periodsAt p₀ h).sum := hnext
      show _ ∧ next + p = start + (periodsAt p₀ h ++ [p]).sum ∧
        ticks start (periodsAt p₀ h) ++ [next] = ticks start (periodsAt p₀ h ++ [p])
      rw [ticks_concat, List.sum_append, List.sum_singleton, ← hnext]
      exact ⟨rfl, by rw [hnext, Nat.add_assoc], rfl⟩
    | early hlt =>
      show _ ∧ _ = start + (periodsAt p₀ h ++ []).sum ∧
        ticks start (periodsAt p₀ h) ++ [] = ticks start (periodsAt p₀ h ++ [])
      rw [List.append_nil, List.append_nil]
      exact ⟨rfl, hnext, rfl⟩

/-- The answer of a poll is the one the schedule prescribes. -/
theorem answer_of_step {now : Instant} {answer : Poll (Option Instant)} {σ τ : Schedule}
    (h : Step σ (.polled now answer) τ) : answer = answerAt σ.next now := by
  cases h with
  | tick hle => rw [answerAt, if_pos hle]
  | early hlt => rw [answerAt, if_neg (not_le.2 hlt)]

end Schedule

/-! ### The schedule of a timer -/

namespace Periodic

/-- The schedule a periodic timer keeps. -/
def schedule (p : Periodic) : Schedule := ⟨p.timer.expiry, p.period⟩

/-- **What `poll_next` can do**: yield the expiry, move it one period on and have given up the
entry; or be pending before the expiry, which stays. -/
theorem pollNext_cases {p p' : Periodic} {q q' : TimerQueue W} {now : Instant} {waker : W}
    {r : Poll (Option Instant)} {log : Option String}
    (h : p.pollNext q now waker = some (r, p', q', log)) :
    Schedule.Step p.schedule (.polled now r) p'.schedule ∧
      (p'.timer.expiry ≠ p.timer.expiry → q' = p.timer.drop q ∧ p'.timer.key = none) := by
  obtain ⟨⟨r', t', q₁, log₁⟩, hpoll, heq⟩ := Option.map_eq_some_iff.1 h
  rcases Timer.poll_cases hpoll with ⟨rfl, hle, rfl, hq, -⟩ | ⟨rfl, hlt, hrest⟩
  · cases heq
    have hid : (p.timer.release q).1.timerId = none := by
      rcases p.timer with ⟨e, - | id⟩ <;> rfl
    exact ⟨.tick hle, fun _ ↦ ⟨hq, by rw [Timer.key, hid]; rfl⟩⟩
  · cases heq
    -- a pending poll leaves the expiry alone, whether it registers or modifies
    have hexp : t'.expiry = p.timer.expiry := by
      rcases hrest with ⟨id, -, -, rfl, -⟩ | ⟨id, -, rfl, -⟩ <;> rfl
    have hstep : Schedule.Step p.schedule (.polled now .pending) ⟨p.timer.expiry, p.period⟩ :=
      .early hlt
    rw [← hexp] at hstep
    exact ⟨hstep, fun hne ↦ absurd hexp hne⟩

/-- A poll that is due returns, and so does any other while fewer than `USIZE_MAX` timers with its
expiry are pending. -/
theorem isSome_pollNext (p : Periodic) (q : TimerQueue W) (now : Instant) (waker : W)
    (h : now < p.timer.expiry → q.entriesAt p.timer.expiry < USIZE_MAX) :
    (p.pollNext q now waker).isSome := by
  rw [pollNext, Option.isSome_map]
  by_cases hle : p.timer.expiry ≤ now
  · rw [Timer.poll, if_pos hle]
    rfl
  · exact p.timer.isSome_poll q now waker (h (not_le.1 hle))

end Periodic

/-- What a step does to the periodic timer `i`. -/
def TimerAct.tick (s : TimerState W) (a : TimerAct W) (i : ℕ) : List Tick :=
  match a with
  | .setPeriod j period => if j = i then [.setPeriod period] else []
  | .poll j now waker =>
    if j = i then
      match s.live j with
      | some ⟨.periodic p, _, _⟩ =>
        ((p.pollNext s.queue now waker).map fun r ↦ Tick.polled now r.1).toList
      | _ => []
    else []
  | _ => []

/-- The machine of the timers of one thread, with the history of each periodic timer. -/
def TimerState.recording : Machine (Logged (TimerState W) ℕ Tick) (TimerAct W) :=
  TimerState.machine.logged fun s a ↦ a.tick s

section Step

variable {s t : TimerState W} {a : TimerAct W} {i : ℕ} {p : Periodic}

/-- The value named `i` is a periodic timer. -/
def TimerState.IsPeriodic (s : TimerState W) (i : ℕ) (p : Periodic) : Prop :=
  ∃ last clears, s.live i = some ⟨.periodic p, last, clears⟩

/-- **What one step does to a periodic timer** that it does not drop. Either the timer is left
alone, or its schedule makes the step that its history records; the expiry changes only when the
entry has been given up. -/
theorem TimerState.periodic_step (hs : s.step a = some t) (hp : s.IsPeriodic i p)
    (ha : a ≠ .drop i) :
    ∃ p', t.IsPeriodic i p' ∧
      (a.tick s i = [] ∧ p'.schedule = p.schedule ∨
        ∃ e, a.tick s i = [e] ∧ Schedule.Step p.schedule e p'.schedule) ∧
      (p'.timer.expiry ≠ p.timer.expiry →
        t.queue = p.timer.drop s.queue ∧ p'.timer.key = none) := by
  obtain ⟨last, clears, hl⟩ := hp
  -- what is done to the other timers is nothing to this one
  have hkeep : ∀ {j : ℕ} {l : Option (LiveTimer W)}, i ≠ j →
      Function.update s.live j l i = some ⟨.periodic p, last, clears⟩ := by
    intro j l hne
    rw [Function.update_of_ne hne, hl]
  cases step_cases hs
  case create j o hj _ =>
    have hne : i ≠ j := by rintro rfl; rw [hl] at hj; cases hj
    exact ⟨p, ⟨last, clears, hkeep hne⟩, Or.inl ⟨rfl, rfl⟩, fun h ↦ absurd rfl h⟩
  case poll j now waker l rdy o q logged hj hclock hpoll =>
    rcases eq_or_ne i j with rfl | hne
    · rw [hl] at hj
      cases hj
      obtain ⟨⟨r, p', q₁, log₁⟩, hnext, heq⟩ := Option.map_eq_some_iff.1 hpoll
      cases heq
      obtain ⟨hstep, hchange⟩ := Periodic.pollNext_cases hnext
      have htick : (TimerAct.poll i now waker).tick s i = [.polled now r] := by
        simp [TimerAct.tick, hl, hnext]
      exact ⟨p', ⟨_, _, Function.update_self _ _ _⟩, Or.inr ⟨_, htick, hstep⟩, hchange⟩
    · have htick : (TimerAct.poll j now waker).tick s i = [] := if_neg hne.symm
      exact ⟨p, ⟨last, clears, hkeep hne⟩, Or.inl ⟨htick, rfl⟩, fun h ↦ absurd rfl h⟩
  case setPeriod j period p₁ last₁ clears₁ hj =>
    rcases eq_or_ne i j with rfl | hne
    · rw [hl] at hj
      cases hj
      exact ⟨p.setPeriod period, ⟨last, clears, Function.update_self _ _ _⟩,
        Or.inr ⟨_, if_pos rfl, .setPeriod period⟩, fun h ↦ absurd rfl h⟩
    · exact ⟨p, ⟨last, clears, hkeep hne⟩, Or.inl ⟨if_neg hne.symm, rfl⟩, fun h ↦ absurd rfl h⟩
  case drop j l _ =>
    have hne : i ≠ j := by rintro rfl; exact ha rfl
    exact ⟨p, ⟨last, clears, hkeep hne⟩, Or.inl ⟨rfl, rfl⟩, fun h ↦ absurd rfl h⟩
  case wait now _ =>
    exact ⟨p, ⟨last, now :: clears, by simp [hl, noteClear]⟩, Or.inl ⟨rfl, rfl⟩,
      fun h ↦ absurd rfl h⟩

end Step

/-! ### Every run -/

/-- The history of the periodic timer `i` has led from its first schedule to the one it has. -/
structure PeriodicInv (i : ℕ) (start : Instant) (p₀ : Duration)
    (s : Logged (TimerState W) ℕ Tick) : Prop where
  timers : TimerInv s.state
  leads : ∃ p, s.state.IsPeriodic i p ∧ Leads Schedule.Step ⟨start, p₀⟩ (s.log i) p.schedule

namespace PeriodicInv

variable {i : ℕ} {start : Instant} {p₀ : Duration} {s t : Logged (TimerState W) ℕ Tick}

/-- A new timer has its first schedule and no history. -/
theorem create {s₀ : TimerState W} (h : TimerInv s₀)
    (hs : TimerState.recording.step ⟨s₀, fun _ ↦ []⟩
      (.create i (.periodic (.periodicAt start p₀))) = some t) : PeriodicInv i start p₀ t := by
  obtain ⟨u, hu, rfl⟩ := Machine.step_logged_eq_some.1 hs
  have hu : s₀.step (.create i (.periodic (.periodicAt start p₀))) = some u := hu
  refine ⟨h.step hu, .periodicAt start p₀, ⟨none, [], ?_⟩, .nil⟩
  cases TimerState.step_cases hu
  exact Function.update_self _ _ _

theorem step (h : PeriodicInv i start p₀ s) {a : TimerAct W} (ha : a ≠ .drop i)
    (hs : TimerState.recording.step s a = some t) : PeriodicInv i start p₀ t := by
  obtain ⟨u, hu, rfl⟩ := Machine.step_logged_eq_some.1 hs
  obtain ⟨p, hp, hleads⟩ := h.leads
  obtain ⟨p', hp', hschedule, -⟩ := TimerState.periodic_step hu hp ha
  refine ⟨h.timers.step hu, p', hp', ?_⟩
  show Leads Schedule.Step ⟨start, p₀⟩ (s.log i ++ a.tick s.state i) p'.schedule
  rcases hschedule with ⟨htick, heq⟩ | ⟨e, htick, hstep⟩
  · rw [htick, List.append_nil, heq]
    exact hleads
  · rw [htick]
    exact hleads.snoc hstep

/-- A periodic timer that is polled answers what its schedule prescribes. -/
theorem poll (h : PeriodicInv i start p₀ s) {now : Instant} {next : Instant} {waker : W}
    (hnext : next = start + (periodsAt p₀ (s.log i)).sum) (hclock : s.state.clock ≤ now)
    (hfree : now < next → s.state.queue.entriesAt next < USIZE_MAX) :
    ∃ t, TimerState.recording.step s (.poll i now waker) = some t ∧
      t.log i = s.log i ++ [.polled now (answerAt next now)] := by
  obtain ⟨p, hp, hleads⟩ := h.leads
  have hexp : p.timer.expiry = next := (Schedule.of_leads hleads).2.1.trans hnext.symm
  rw [← hexp] at hfree
  obtain ⟨⟨r, p', q', log⟩, hr⟩ := Option.isSome_iff_exists.1
    (p.isSome_pollNext s.state.queue now waker hfree)
  obtain ⟨last, clears, hl⟩ := hp
  have hanswer := Schedule.answer_of_step (Periodic.pollNext_cases hr).1
  have hanswer : r = answerAt next now := by rwa [← hexp]
  have hstep : ∃ u, s.state.step (.poll i now waker) = some u := by
    simp [TimerState.step, hl, hclock, TimerOwner.poll, hr]
  obtain ⟨u, hu⟩ := hstep
  refine ⟨_, Machine.step_logged_eq_some.2 ⟨u, hu, rfl⟩, ?_⟩
  show s.log i ++ (TimerAct.poll i now waker).tick s.state i = _
  simp [TimerAct.tick, hl, hr, hanswer]

/-- When the expiry changes the old entry is gone, and every entry that is left belongs to the timer
that refers to it. -/
theorem no_orphan (h : PeriodicInv i start p₀ s) {a : TimerAct W} {u : TimerState W}
    {l l' : LiveTimer W} (hs : s.state.step a = some u) (hl : s.state.live i = some l)
    (hl' : u.live i = some l') (hne : l'.timer.expiry ≠ l.timer.expiry) :
    (∀ k, s.state.keyOf i = some k → k ∉ u.queue.timers) ∧
      ∀ k ∈ u.queue.timers, ∃ j, u.keyOf j = some k := by
  obtain ⟨p, ⟨last, clears, hp⟩, -⟩ := h.leads
  rw [hp] at hl
  cases hl
  have ha : a ≠ .drop i := by
    rintro rfl
    cases TimerState.step_cases hs
    exact absurd (hl'.symm.trans (Function.update_self _ _ _)) (by simp)
  obtain ⟨p', ⟨last', clears', hp'⟩, -, hchange⟩ :=
    TimerState.periodic_step hs ⟨last, clears, hp⟩ ha
  rw [hp'] at hl'
  cases hl'
  obtain ⟨hqueue, -⟩ := hchange hne
  refine ⟨fun k hk hmem ↦ ?_, fun k hmem ↦ ?_⟩
  · have hk : p.timer.key = some k := by rwa [TimerState.keyOf, hp] at hk
    obtain ⟨w, hw⟩ := BTreeMap.mem_iff_exists.1 hmem
    rw [hqueue, Timer.getElem?_drop, if_pos hk] at hw
    cases hw
  · obtain ⟨w, hw⟩ := BTreeMap.mem_iff_exists.1 hmem
    obtain ⟨j, m, hm, hk, -⟩ := (h.timers.step hs).owned hw
    exact ⟨j, by rw [TimerState.keyOf, hm, Option.bind_some, hk]⟩

end PeriodicInv

/-- **Periodic timers keep an exact schedule.** Let a periodic timer be created in any reachable
state and whatever be done after that, short of dropping it. Then the `k`-th item it has yielded,
counted from zero, is the start plus the first `k` of the periods in force when an item was yielded;
each poll was answered with the next instant of that schedule if it was due, and with `Pending`
otherwise, and the next poll will be; and at every change of its expiry the old entry is no longer
in the queue, in which every entry is the one that some live timer refers to.

`Periodic::periodic` is the case of a start one period from now. -/
theorem periodic_keeps_schedule {pre as : List (TimerAct W)} {i : ℕ} {start : Instant}
    {p₀ : Duration} {s₀ : TimerState W} {s : Logged (TimerState W) ℕ Tick}
    (hpre : TimerState.machine.run .init pre = some s₀)
    (hrun : TimerState.recording.run ⟨s₀, fun _ ↦ []⟩
      (.create i (.periodic (.periodicAt start p₀)) :: as) = some s) (hdrop : .drop i ∉ as) :
    (yielded (s.log i)).length = (periodsAt p₀ (s.log i)).length ∧
      (∀ k < (yielded (s.log i)).length,
        (yielded (s.log i))[k]? = some (start + ((periodsAt p₀ (s.log i)).take k).sum)) ∧
      (∀ before now answer after, s.log i = before ++ .polled now answer :: after →
        answer = answerAt (start + (periodsAt p₀ before).sum) now) ∧
      (∀ now next waker, next = start + (periodsAt p₀ (s.log i)).sum → s.state.clock ≤ now →
        (now < next → s.state.queue.entriesAt next < USIZE_MAX) →
        ∃ t, TimerState.recording.step s (.poll i now waker) = some t ∧
          t.log i = s.log i ++ [.polled now (answerAt next now)]) ∧
      ∀ a u l l', s.state.step a = some u → s.state.live i = some l → u.live i = some l' →
        l'.timer.expiry ≠ l.timer.expiry →
        (∀ k, s.state.keyOf i = some k → k ∉ u.queue.timers) ∧
          ∀ k ∈ u.queue.timers, ∃ j, u.keyOf j = some k := by
  obtain ⟨u, hu, hrun⟩ := Machine.run_cons_eq_some _ |>.1 hrun
  have hinv : PeriodicInv i start p₀ s := by
    refine Machine.run_preserves_of_allSteps (C := fun _ a ↦ a ≠ .drop i)
      (fun _ _ _ h ha hs ↦ h.step ha hs) (PeriodicInv.create (TimerInv.of_run hpre) hu) ?_ hrun
    refine Machine.allSteps_of_forall (fun _ a ha ↦ ?_) u
    rintro rfl
    exact hdrop ha
  obtain ⟨p, -, hleads⟩ := hinv.leads
  obtain ⟨-, -, hitems⟩ := Schedule.of_leads hleads
  have hlen : (yielded (s.log i)).length = (periodsAt p₀ (s.log i)).length := by
    rw [hitems, ticks, List.length_map, List.length_range]
  refine ⟨hlen, fun k hk ↦ ?_, fun before now answer after heq ↦ ?_, fun now next waker hnext ↦ ?_,
    fun a v l l' hs hl hl' hne ↦ hinv.no_orphan hs hl hl' hne⟩
  · rw [hlen] at hk
    rw [hitems, getElem?_ticks hk]
  · rw [heq] at hleads
    obtain ⟨σ, τ, hbefore, hstep, -⟩ := hleads.split
    rw [Schedule.answer_of_step hstep, (Schedule.of_leads hbefore).2.1]
  · exact hinv.poll hnext

/-- A timer that starts at 10 with period 5. It is polled early, then late, when two ticks are due
at once; the period is set to zero and to 7 in between. -/
def lateBursts : List (TimerAct ℕ) :=
  [.poll 0 4 80, .wait 12, .poll 0 17 81, .poll 0 17 82, .setPeriod 0 0, .poll 0 20 83,
    .poll 0 20 84, .setPeriod 0 7, .poll 0 30 85, .poll 0 31 86, .poll 0 31 87]

theorem periodic_keeps_schedule_lateBursts :
    ∃ s, TimerState.recording.run ⟨.init, fun _ ↦ []⟩
        (.create 0 (.periodic (.periodicAt 10 5)) :: lateBursts) = some s ∧
      yielded (s.log 0) = [10, 15, 20, 20, 20, 27] ∧
      periodsAt 5 (s.log 0) = [5, 5, 0, 0, 7, 7] ∧
      ∀ k < (yielded (s.log 0)).length,
        (yielded (s.log 0))[k]? = some (10 + ((periodsAt 5 (s.log 0)).take k).sum) := by
  have heval : ((TimerState.recording.run ⟨.init, fun _ ↦ []⟩
      (.create 0 (.periodic (.periodicAt 10 5)) :: lateBursts)).map fun s ↦
        (yielded (s.log 0), periodsAt 5 (s.log 0))) =
      some ([10, 15, 20, 20, 20, 27], [5, 5, 0, 0, 7, 7]) := by decide
  obtain ⟨s, hs, heq⟩ := Option.map_eq_some_iff.1 heval
  have hpre : TimerState.machine.run (TimerState.init : TimerState ℕ) [] = some .init := rfl
  refine ⟨s, hs, congrArg Prod.fst heq, congrArg Prod.snd heq, ?_⟩
  exact (periodic_keeps_schedule hpre hs (by simp [lateBursts])).2.1

end LocalRuntime
