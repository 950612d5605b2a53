import LocalRuntime.Lib.Machine
import LocalRuntime.Time.TimerQueue

/-!
# Timers on the reactor's queue

`Timer` and `Periodic` of `src/time.rs`, and the system they form with the timer queue of their
thread: timers are created, polled and dropped in any order, and `Reactor::wait` clears the expired
entries behind their backs, at clock readings that never go back.

Everything later modules need of a poll is in `Timer.poll_cases` and `TimerOwner.poll_cases`: a
ready poll gives up the timer's ID, and a pending one leaves an entry that was added, or rewritten,
**after** the expiry had been compared with the clock.
-/

namespace LocalRuntime

variable {W : Type*}

/-- One-shot async timer. -/
structure Timer where
  /-- When the timer fires. -/
  expiry : Instant
  /-- The ID of the timer's entry, once it has been registered. -/
  timerId : Option Id

namespace Timer

/-- Timer that expires at a set point in time. -/
def at_ (expiry : Instant) : Timer := ⟨expiry, none⟩

/-- Timer that expires after a set duration. -/
def delay (now : Instant) (delay : Duration) : Timer := at_ (now + delay)

/-- Register the timer, or update the waker of its entry. The last component is what is logged. -/
def register (t : Timer) (q : TimerQueue W) (waker : W) :
    Option (Timer × TimerQueue W × Option String) :=
  match t.timerId with
  | none => (q.register t.expiry waker).map fun p ↦ ({ t with timerId := some p.1 }, p.2, none)
  | some id => some (t, q.modify id t.expiry waker)

/-- Give up the timer's entry: `timer_id.take()` followed by `cancel_timer`. -/
def release (t : Timer) (q : TimerQueue W) : Timer × TimerQueue W :=
  match t.timerId with
  | none => (t, q)
  | some id => ({ t with timerId := none }, q.cancel id t.expiry)

/-- Poll the timer at a clock reading. `none` is a registration that never returns. -/
def poll (t : Timer) (q : TimerQueue W) (now : Instant) (waker : W) :
    Option (Poll Instant × Timer × TimerQueue W × Option String) :=
  if t.expiry ≤ now then
    let p := t.release q
    some (.ready t.expiry, p.1, p.2, none)
  else (t.register q waker).map fun p ↦ (.pending, p)

/-- The queue after the timer is dropped. -/
def drop (t : Timer) (q : TimerQueue W) : TimerQueue W := (t.release q).2

/-- The key under which the timer looks for its entry. -/
def key (t : Timer) : Option TimerKey := t.timerId.map (timerKey t.expiry)

end Timer

/-- Periodic async timer that fires at an interval. -/
structure Periodic where
  timer : Timer
  period : Duration

namespace Periodic

/-- Timer that fires periodically. -/
def periodic (now : Instant) (period : Duration) : Periodic := ⟨Timer.delay now period, period⟩

/-- Timer that fires periodically, starting from a set point in time. -/
def periodicAt (start : Instant) (period : Duration) : Periodic := ⟨Timer.at_ start, period⟩

/-- Change the period of the timer, effective after the next time it fires. -/
def setPeriod (p : Periodic) (period : Duration) : Periodic := { p with period }

/-- The next tick: a ready poll moves the expiry one period on. -/
def pollNext (p : Periodic) (q : TimerQueue W) (now : Instant) (waker : W) :
    Option (Poll (Option Instant) × Periodic × TimerQueue W × Option String) :=
  (p.timer.poll q now waker).map fun
    | (.ready expiry, timer, rest) =>
      (.ready (some expiry), { p with timer := { timer with expiry := expiry + p.period } }, rest)
    | (.pending, timer, rest) => (.pending, { p with timer }, rest)

end Periodic

/-! ### The system of the timers of one thread -/

/-- A value that owns a timer. -/
inductive TimerOwner where
  | timer (t : Timer)
  | periodic (p : Periodic)

namespace TimerOwner

/-- The timer of an owner. -/
def toTimer : TimerOwner → Timer
  | timer t => t
  | periodic p => p.timer

/-- Poll the owner: `Timer::poll`, or `Periodic::poll_next`. The Boolean says whether the answer was
ready. -/
def poll (o : TimerOwner) (q : TimerQueue W) (now : Instant) (waker : W) :
    Option (Bool × TimerOwner × TimerQueue W × Option String) :=
  match o with
  | timer t => (t.poll q now waker).map fun p ↦ (p.1.isReady, timer p.2.1, p.2.2)
  | periodic p => (p.pollNext q now waker).map fun r ↦ (r.1.isReady, periodic r.2.1, r.2.2)

end TimerOwner

/-- A live timer with the history that says whether it is pending. -/
structure LiveTimer (W : Type*) where
  owner : TimerOwner
  /-- The latest poll: whether it was ready, and its waker. -/
  lastPoll : Option (Bool × W)
  /-- The clock readings of the `clear_expired` calls since the latest poll. -/
  clears : List Instant

/-- The timer of a live timer value. -/
def LiveTimer.timer (l : LiveTimer W) : Timer := l.owner.toTimer

/-- The timer is **pending** with the given waker: its latest poll returned pending, and its expiry
was later than the reading of every `clear_expired` since. -/
def LiveTimer.PendingWith (l : LiveTimer W) (w : W) : Prop :=
  l.lastPoll = some (false, w) ∧ ∀ c ∈ l.clears, c < l.timer.expiry

/-- The state of the timers of one thread. -/
structure TimerState (W : Type*) where
  /-- The latest clock reading. -/
  clock : Instant
  queue : TimerQueue W
  /-- The live values that own a timer, by name. -/
  live : ℕ → Option (LiveTimer W)
  /-- What has been logged. -/
  log : List String

/-- What can happen to the timers of one thread. -/
inductive TimerAct (W : Type*) where
  /-- `Timer::at`, `Timer::delay`, `Periodic::periodic` or `Periodic::periodic_at`. -/
  | create (i : ℕ) (o : TimerOwner)
  | poll (i : ℕ) (now : Instant) (waker : W)
  | setPeriod (i : ℕ) (period : Duration)
  | drop (i : ℕ)
  /-- `Reactor::wait` reaches `clear_expired`. -/
  | wait (now : Instant)

namespace TimerState

/-- A thread without timers. -/
def init : TimerState W := ⟨0, .new, fun _ ↦ none, []⟩

/-- Record that `clear_expired` ran at a clock reading. -/
def noteClear (now : Instant) (l : LiveTimer W) : LiveTimer W :=
  { l with clears := now :: l.clears }

/-- The step function. Readings of the clock never go back, and a new timer has no ID. -/
def step (s : TimerState W) : TimerAct W → Option (TimerState W)
  | .create i o =>
    match s.live i, o.toTimer.timerId with
    | none, none => some { s with live := Function.update s.live i (some ⟨o, none, []⟩) }
    | _, _ => none
  | .poll i now waker =>
    match s.live i with
    | none => none
    | some l =>
      if s.clock ≤ now then
        (l.owner.poll s.queue now waker).map fun r ↦
          { clock := now
            queue := r.2.2.1
            live := Function.update s.live i (some ⟨r.2.1, some (r.1, waker), []⟩)
            log := s.log ++ r.2.2.2.toList }
      else none
  | .setPeriod i period =>
    match s.live i with
    | some ⟨.periodic p, last, clears⟩ =>
      some { s with live := Function.update s.live i
                      (some ⟨.periodic (p.setPeriod period), last, clears⟩) }
    | _ => none
  | .drop i =>
    match s.live i with
    | none => none
    | some l => some { s with
        queue := l.timer.drop s.queue
        live := Function.update s.live i none }
  | .wait now =>
    if s.clock ≤ now then
      some { s with
        clock := now
        queue := (s.queue.clearExpired now).2
        live := fun i ↦ (s.live i).map (noteClear now) }
    else none

/-- The machine of the timers of one thread. -/
def machine : Machine (TimerState W) (TimerAct W) := ⟨step⟩

/-- A live timer after one has been replaced. -/
theorem live_update_cases {live : ℕ → Option (LiveTimer W)} {i j : ℕ} {l : Option (LiveTimer W)}
    {m : LiveTimer W} (h : Function.update live i l j = some m) :
    j = i ∧ l = some m ∨ j ≠ i ∧ live j = some m := by
  rcases eq_or_ne j i with rfl | hne
  · rw [Function.update_self] at h
    exact Or.inl ⟨rfl, h⟩
  · rw [Function.update_of_ne hne] at h
    exact Or.inr ⟨hne, h⟩

/-- Every step of the machine. -/
inductive Step (s : TimerState W) : TimerAct W → TimerState W → Prop where
  | create {i : ℕ} {o : TimerOwner} (hi : s.live i = none) (ho : o.toTimer.timerId = none) :
      Step s (.create i o) { s with live := Function.update s.live i (some ⟨o, none, []⟩) }
  | poll {i : ℕ} {now : Instant} {waker : W} {l : LiveTimer W} {rdy : Bool} {o : TimerOwner}
      {q : TimerQueue W} {logged : Option String} (hl : s.live i = some l) (hclock : s.clock ≤ now)
      (hpoll : l.owner.poll s.queue now waker = some (rdy, o, q, logged)) :
      Step s (.poll i now waker)
        { clock := now
          queue := q
          live := Function.update s.live i (some ⟨o, some (rdy, waker), []⟩)
          log := s.log ++ logged.toList }
  | setPeriod {i : ℕ} {period : Duration} {p : Periodic} {last : Option (Bool × W)}
      {clears : List Instant} (hl : s.live i = some ⟨.periodic p, last, clears⟩) :
      Step s (.setPeriod i period)
        { s with
          live := Function.update s.live i (some ⟨.periodic (p.setPeriod period), last, clears⟩) }
  | drop {i : ℕ} {l : LiveTimer W} (hl : s.live i = some l) :
      Step s (.drop i) { s with
        queue := l.timer.drop s.queue
        live := Function.update s.live i none }
  | wait {now : Instant} (hclock : s.clock ≤ now) :
      Step s (.wait now) { s with
        clock := now
        queue := (s.queue.clearExpired now).2
        live := fun i ↦ (s.live i).map (noteClear now) }

theorem step_cases {s t : TimerState W} {a : TimerAct W} (h : s.step a = some t) : Step s a t := by
  cases a with
  | create i o =>
    simp only [step] at h
    split at h
    next hi ho =>
      cases h
      exact .create hi ho
    · cases h
  | poll i now waker =>
    simp only [step] at h
    split at h
    · cases h
    next l hl =>
      split at h
      next hclock =>
        obtain ⟨⟨rdy, o, q, logged⟩, hpoll, rfl⟩ := Option.map_eq_some_iff.1 h
        exact .poll hl hclock hpoll
      · cases h
  | setPeriod i period =>
    simp only [step] at h
    split at h
    next p last clears hl =>
      cases h
      exact .setPeriod hl
    · cases h
  | drop i =>
    simp only [step] at h
    split at h
    · cases h
    next l hl =>
      cases h
      exact .drop hl
  | wait now =>
    simp only [step] at h
    split at h
    next hclock =>
      cases h
      exact .wait hclock
    · cases h

end TimerState

/-! ### What one poll does -/

namespace Timer

@[simp] theorem key_release (t : Timer) (q : TimerQueue W) : (t.release q).1.key = none := by
  rcases t with ⟨expiry, - | id⟩ <;> rfl

theorem expiry_of_key_eq_some {t : Timer} {k : TimerKey} (h : t.key = some k) :
    k.expiry = t.expiry := by
  obtain ⟨id, -, rfl⟩ := Option.map_eq_some_iff.1 h
  rfl

/-- Giving up an entry removes what is stored under the timer's key and nothing else. -/
theorem getElem?_drop (t : Timer) (q : TimerQueue W) (k : TimerKey) :
    (t.drop q).timers[k]? = if t.key = some k then none else q.timers[k]? := by
  rcases t with ⟨expiry, - | id⟩
  · rfl
  · show (q.cancel id expiry).timers[k]? = _
    rw [TimerQueue.getElem?_cancel]
    simp only [key, Option.map_some, Option.some.injEq, eq_comm]

/-- **What a poll can do**: be ready and give up the entry; or be pending before the expiry, and
then either register under a new ID or modify the entry under the ID it has. -/
theorem poll_cases {t t' : Timer} {q q' : TimerQueue W} {now : Instant} {waker : W}
    {r : Poll Instant} {log : Option String} (h : t.poll q now waker = some (r, t', q', log)) :
    (r = .ready t.expiry ∧ t.expiry ≤ now ∧ t' = (t.release q).1 ∧ q' = t.drop q ∧ log = none) ∨
      (r = .pending ∧ now < t.expiry ∧
        ((∃ id, t.timerId = none ∧ q.register t.expiry waker = some (id, q') ∧
            t' = { t with timerId := some id } ∧ log = none) ∨
          ∃ id, t.timerId = some id ∧ t' = t ∧ q.modify id t.expiry waker = (q', log))) := by
  unfold poll at h
  split at h
  next hexp =>
    cases h
    exact Or.inl ⟨rfl, hexp, rfl, rfl, rfl⟩
  next hexp =>
    obtain ⟨⟨t₁, q₁, log₁⟩, hreg, heq⟩ := Option.map_eq_some_iff.1 h
    cases heq
    refine Or.inr ⟨rfl, not_le.1 hexp, ?_⟩
    unfold register at hreg
    split at hreg
    next hid =>
      obtain ⟨⟨id, q₂⟩, hq, heq⟩ := Option.map_eq_some_iff.1 hreg
      cases heq
      exact Or.inl ⟨id, hid, hq, rfl, rfl⟩
    next id hid =>
      obtain ⟨rfl, hmod⟩ := Prod.mk.inj (Option.some.inj hreg)
      exact Or.inr ⟨id, hid, rfl, hmod⟩

/-- Polling returns while fewer than `USIZE_MAX` timers with the same expiry are pending. -/
theorem isSome_poll (t : Timer) (q : TimerQueue W) (now : Instant) (waker : W)
    (h : q.entriesAt t.expiry < USIZE_MAX) : (t.poll q now waker).isSome := by
  unfold poll
  split
  · rfl
  · rcases hid : t.timerId with - | id
    · obtain ⟨id, q', hreg⟩ := q.exists_register_eq_some t.expiry waker h
      simp [register, hid, hreg]
    · simp [register, hid]

end Timer

namespace TimerOwner

/-- A poll of an owner is a poll of its timer: a ready one leaves a timer without a key, and a
pending one leaves what the timer's own poll left. -/
theorem poll_cases {o o' : TimerOwner} {q q' : TimerQueue W} {now : Instant} {waker : W}
    {rdy : Bool} {log : Option String} (h : o.poll q now waker = some (rdy, o', q', log)) :
    (rdy = true ∧ o'.toTimer.key = none ∧ q' = o.toTimer.drop q ∧ log = none) ∨
      (rdy = false ∧ now < o.toTimer.expiry ∧
        ((∃ id, o.toTimer.key = none ∧ q.register o.toTimer.expiry waker = some (id, q') ∧
            o'.toTimer = { o.toTimer with timerId := some id } ∧ log = none) ∨
          ∃ id, o.toTimer.timerId = some id ∧ o'.toTimer = o.toTimer ∧
            q.modify id o.toTimer.expiry waker = (q', log))) := by
  have key_none : ∀ {t : Timer}, t.timerId = none → t.key = none := fun ht ↦ by
    rw [Timer.key, ht]; rfl
  rcases o with t | p
  · obtain ⟨⟨r, t', q₁, log₁⟩, hpoll, heq⟩ := Option.map_eq_some_iff.1 h
    cases heq
    rcases Timer.poll_cases hpoll with ⟨rfl, -, rfl, hq, hlog⟩ | ⟨rfl, hlt, ⟨id, hid, hrest⟩ | hmod⟩
    · exact Or.inl ⟨rfl, Timer.key_release t q, hq, hlog⟩
    · exact Or.inr ⟨rfl, hlt, Or.inl ⟨id, key_none hid, hrest⟩⟩
    · exact Or.inr ⟨rfl, hlt, Or.inr hmod⟩
  · obtain ⟨⟨r, p', q₁, log₁⟩, hnext, heq⟩ := Option.map_eq_some_iff.1 h
    cases heq
    obtain ⟨⟨r', t', q₂, log₂⟩, hpoll, heq⟩ := Option.map_eq_some_iff.1 hnext
    rcases Timer.poll_cases hpoll with ⟨rfl, -, rfl, hq, hlog⟩ | ⟨rfl, hlt, ⟨id, hid, hrest⟩ | hmod⟩
    · cases heq
      -- the expiry has moved on, but the ID is gone
      have hid : (p.timer.release q).1.timerId = none := by
        rcases p.timer with ⟨e, - | id⟩ <;> rfl
      exact Or.inl ⟨rfl, key_none hid, hq, hlog⟩
    · cases heq
      exact Or.inr ⟨rfl, hlt, Or.inl ⟨id, key_none hid, hrest⟩⟩
    · cases heq
      exact Or.inr ⟨rfl, hlt, Or.inr hmod⟩

theorem isSome_poll (o : TimerOwner) (q : TimerQueue W) (now : Instant) (waker : W)
    (h : q.entriesAt o.toTimer.expiry < USIZE_MAX) : (o.poll q now waker).isSome := by
  rcases o with t | p
  · simpa [poll] using t.isSome_poll q now waker h
  · simpa [poll, Periodic.pollNext] using p.timer.isSome_poll q now waker h

end TimerOwner

end LocalRuntime
