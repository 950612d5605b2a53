import LocalRuntime.Reactor.Timeouts
import LocalRuntime.Reactor.Wait
import LocalRuntime.Time.Expiry

/-!
# Waiting for deadlines

Why the timeouts are rounded **up**. The loop of `block_on` sleeps for what is left until the first
timer, in the unit of its backend. If it were woken a moment before the timer is due,
`clear_expired` would find nothing, and the loop would go round again, with a shorter and shorter
timeout, until the moment has passed.

`Sleeps` collects what a backend promises about the time it sleeps, in terms of what it asks of the
kernel: never less than the duration, up to the longest one that fits its type. `DeadlineOnly` is a
wait that nothing but its deadline can end: no event source, no notification and no error, and a
kernel that does not report a deadline before it has come. Then every such wait fires a timer, so a
thread whose reactor has `n` timers goes round at most `n` times (`waits_fire_timers`).
-/

namespace LocalRuntime

variable {T N W : Type}

/-! ### How long a backend sleeps -/

/-- A backend whose sleep is not shorter than it should be. -/
class Sleeps (T : Type) extends Timeout T where
  /-- The time that the kernel is asked to let pass. -/
  sleeps : Duration → Duration
  /-- The longest time that the kernel can be asked for. -/
  longest : Duration
  min_le_sleeps : ∀ d, min d longest ≤ sleeps d

/-- Milliseconds, in an `i32`. -/
instance : Sleeps PollTimeout where
  sleeps d := 1000000 * (PollTimeout.timeout (some d)).toNat
  longest := 1000000 * I32_MAX.toNat
  min_le_sleeps d := by
    have hmin (n : ℕ) : min n (1000000 * (2147483647 : ℤ).toNat) ≤
        1000000 * (min (((n / 1000000 : ℕ) : ℤ) + 1) 2147483647).toNat := by omega
    rcases Nat.eq_zero_or_pos d with rfl | hd
    · exact (min_le_left _ _).trans (Nat.zero_le _)
    · rw [PollTimeout.timeout_of_pos hd]
      exact hmin d

/-- Seconds in an `i64`, and nanoseconds. -/
instance : Sleeps TimerFd where
  sleeps d :=
    let value := (TimerFd.itimerspec (some d)).itValue
    1000000000 * value.tvSec.toNat + value.tvNsec.toNat
  longest := 1000000000 * I64_MAX.toNat
  min_le_sleeps d := by
    have hmin (n : ℕ) : min n (1000000000 * (9223372036854775807 : ℤ).toNat) ≤
        1000000000 * (min ((n / 1000000000 : ℕ) : ℤ) 9223372036854775807).toNat +
          ((max (n % 1000000000) 1 : ℕ) : ℤ).toNat := by omega
    rw [TimerFd.itValue_eq]
    exact hmin d

/-! ### Waits that only a deadline ends -/

/-- The wait is not ended by an event source, a notification or an error; and the kernel does not
come back without an event before the time it was asked for has passed, nor at all if it was not
asked for any. -/
structure DeadlineOnly [Sleeps T] (r : Reactor (PollPoller T) N W) (env : WaitEnv (PollPoller T)) :
    Prop where
  clock : env.now ≤ env.after
  not_notified : r.notifier.isNotified = false
  settime : env.poll.settime = none
  answer : ∃ revents, env.poll.answer = .ok revents ∧ ¬ PollPoller.SourceReady revents r.filters
  kernel : ∃ d, r.timerQueue.nextTimeout env.now = some d ∧
    (d = 0 ∨ env.now + Sleeps.sleeps T d ≤ env.after)

namespace Reactor

variable [Sleeps T] [EventNotifier N] {r : Reactor (PollPoller T) N W}
    {env : WaitEnv (PollPoller T)}

/-- What is left of such a wait, whether it calls the poller or not. -/
theorem wait_of_deadlineOnly (h : DeadlineOnly r env) :
    (r.wait env).timersWoken = (r.timerQueue.clearExpired env.after).1 ∧
      (r.wait env).reactor.timerQueue = (r.timerQueue.clearExpired env.after).2 ∧
      (r.wait env).ioWoken = [] := by
  obtain ⟨revents, hanswer, hready⟩ := h.answer
  rw [wait]
  split
  · exact ⟨rfl, rfl, rfl⟩
  · have hnone : PollPoller.yields revents r.filters r.poller = none := by
      rw [PollPoller.yields, if_pos (PollPoller.yieldReady_eventFds_eq_nil_iff.2 hready)]
    have hpoll := PollPoller.poll_eq h.settime hanswer r.poller (r.timerQueue.nextTimeout env.now)
      r.filters
    rw [hnone] at hpoll
    rcases hres : EventPoller.poll env.poll r.poller (r.timerQueue.nextTimeout env.now) r.filters
      with ⟨res, p⟩
    obtain rfl : res = .ok none := by
      rw [← hpoll]
      exact (congrArg Prod.fst hres).symm
    rw [waitPolling, hres]
    exact ⟨rfl, rfl, rfl⟩

/-- The arithmetic of a sleep: what was slept is what was needed, unless it was the longest
sleep. -/
theorem expiry_le_of_slept {now after expiry d slept longest : ℕ} (hclock : now ≤ after)
    (hd : d = expiry - now) (hmin : min d longest ≤ slept) (hslept : d = 0 ∨ now + slept ≤ after)
    (hlong : after < now + longest) : expiry ≤ after := by
  omega

/-- **A deadline does not come early**: unless the backend could not ask for a time as long as the
first timer needs, the wait fires a timer. -/
theorem timersWoken_ne_nil (h : DeadlineOnly r env)
    (hlong : env.after < env.now + Sleeps.longest T) : (r.wait env).timersWoken ≠ [] := by
  obtain ⟨d, hd, hsleep⟩ := h.kernel
  obtain ⟨k, w, hk, hdk, -⟩ := TimerQueue.nextTimeout_eq_some hd
  have hle : k.expiry ≤ env.after :=
    expiry_le_of_slept h.clock hdk (Sleeps.min_le_sleeps d) hsleep hlong
  rw [(wait_of_deadlineOnly h).1, TimerQueue.clearExpired_wakes]
  exact fun hnil ↦ List.ne_nil_of_mem (TimerQueue.mem_due.2 ⟨hk, hle⟩) (List.map_eq_nil_iff.1 hnil)

end Reactor

/-! ### How many entries there are -/

namespace TimerQueue

variable {q q' : TimerQueue W}

theorem size_eq_length_filter {now : Instant} :
    (q.clearExpired now).2.timers.size =
      (q.timers.toList.filter fun entry ↦ !decide (entry.1.expiry ≤ now)).length := by
  rw [← Std.TreeMap.length_toList]
  refine congrArg List.length (BTreeMap.toList_eq_filter
    (p := fun k ↦ !decide (TimerKey.expiry k ≤ now)) fun k ↦ ?_)
  rw [getElem?_clearExpired]
  by_cases hk : k.expiry ≤ now
  · simp [hk]
  · simp [hk]

/-- **No timer is lost**: an entry stays or its waker is invoked. -/
theorem length_wakes_add_size (q : TimerQueue W) (now : Instant) :
    (q.clearExpired now).1.length + (q.clearExpired now).2.timers.size = q.timers.size := by
  rw [clearExpired_wakes, List.length_map, size_eq_length_filter, due, ← Std.TreeMap.length_toList,
    ← List.countP_eq_length_filter, ← List.countP_eq_length_filter]
  rw [List.length_eq_countP_add_countP (p := fun entry : TimerKey × W ↦
    decide (entry.1.expiry ≤ now))]
  simp only [decide_eq_true_eq, decide_not]

theorem size_cancel_le (id : Id) (expiry : Instant) :
    (q.cancel id expiry).timers.size ≤ q.timers.size :=
  Std.TreeMap.size_erase_le

theorem size_modify (id : Id) (expiry : Instant) (waker : W) :
    (q.modify id expiry waker).1.timers.size = q.timers.size := by
  rw [modify]
  split
  next w hw =>
    have hmem : timerKey expiry id ∈ q.timers := BTreeMap.mem_iff_exists.2 ⟨w, hw⟩
    exact Std.TreeMap.size_insert.trans (if_pos hmem)
  next => rfl

/-- A registration adds one entry, however often it has collided before. -/
theorem size_register {expiry : Instant} {waker : W} {id : Id}
    (h : q.register expiry waker = some (id, q')) : q'.timers.size = q.timers.size + 1 := by
  obtain ⟨hfree, hmap⟩ := register_eq_some h
  have hsame : q'.timers.toList = (q.timers.insert (timerKey expiry id) waker).toList := by
    refine BTreeMap.eq_of_pairwise_of_mem_iff BTreeMap.pairwise_toList BTreeMap.pairwise_toList
      fun ⟨k, w⟩ ↦ ?_
    rw [BTreeMap.mem_toList_iff, BTreeMap.mem_toList_iff, hmap k]
    exact Iff.of_eq (congrArg (· = some w) (BTreeMap.getElem?_insert _ _ _).symm)
  have hnot : timerKey expiry id ∉ q.timers := by
    rw [BTreeMap.mem_iff_exists, hfree]
    rintro ⟨w, hw⟩
    cases hw
  rw [← Std.TreeMap.length_toList, hsame, Std.TreeMap.length_toList]
  exact Std.TreeMap.size_insert.trans (if_neg hnot)

end TimerQueue

/-! ### The rounds of a thread -/

namespace Reactor

/-- Register a timer. -/
def registerTimer {P : Type} (r : Reactor P N W) (expiry : Instant) (waker : W) :
    Option (Id × Reactor P N W) :=
  (r.timerQueue.register expiry waker).map fun res ↦ (res.1, { r with timerQueue := res.2 })

/-- Cancel a timer. -/
def cancelTimer {P : Type} (r : Reactor P N W) (id : Id) (expiry : Instant) : Reactor P N W :=
  { r with timerQueue := r.timerQueue.cancel id expiry }

/-- Replace the waker of a timer. -/
def modifyTimer {P : Type} (r : Reactor P N W) (id : Id) (expiry : Instant) (waker : W) :
    Reactor P N W :=
  { r with timerQueue := (r.timerQueue.modify id expiry waker).1 }

end Reactor

/-- What a thread that has nothing but timers does with its reactor. -/
inductive TimerCall (T W : Type) [Timeout T] where
  | register (expiry : Instant) (waker : W)
  | modify (id : Id) (expiry : Instant) (waker : W)
  | cancel (id : Id) (expiry : Instant)
  | wait (env : WaitEnv (PollPoller T))

/-- The reactor of such a thread, with a count of the waits and of the registrations, and the wakers
that have been invoked for timers. -/
structure Rounds (T N W : Type) where
  reactor : Reactor (PollPoller T) N W
  waits : ℕ
  registered : ℕ
  fired : List W

namespace Rounds

variable [Sleeps T] [EventNotifier N]

/-- Before the first call. -/
def start (r : Reactor (PollPoller T) N W) : Rounds T N W := ⟨r, 0, 0, []⟩

/-- One call. -/
def step (s : Rounds T N W) : TimerCall T W → Option (Rounds T N W)
  | .register expiry waker => (s.reactor.registerTimer expiry waker).map fun res ↦
      { s with reactor := res.2, registered := s.registered + 1 }
  | .modify id expiry waker => some { s with reactor := s.reactor.modifyTimer id expiry waker }
  | .cancel id expiry => some { s with reactor := s.reactor.cancelTimer id expiry }
  | .wait env =>
    let out := s.reactor.wait env
    some { s with
      reactor := out.reactor
      waits := s.waits + 1
      fired := s.fired ++ out.timersWoken }

/-- The calls of a thread. -/
def machine : Machine (Rounds T N W) (TimerCall T W) := ⟨step⟩

/-- A wait is ended by its deadline only, and does not take the longest time that there is. -/
def DeadlinesOnly (s : Rounds T N W) : TimerCall T W → Prop
  | .wait env => DeadlineOnly s.reactor env ∧ env.after < env.now + Sleeps.longest T
  | _ => True

/-- Every wait has fired a timer, and every timer that was fired had been registered. -/
structure Paid (size : ℕ) (s : Rounds T N W) : Prop where
  waits : s.waits ≤ s.fired.length
  fired : s.fired.length + s.reactor.timerQueue.timers.size ≤ size + s.registered

theorem Paid.step {size : ℕ} {s t : Rounds T N W} {a : TimerCall T W} (h : s.Paid size)
    (hdead : s.DeadlinesOnly a) (hs : s.step a = some t) : t.Paid size := by
  obtain ⟨hwaits, hfired⟩ := h
  cases a with
  | register expiry waker =>
    obtain ⟨⟨id, r⟩, hreg, rfl⟩ := Option.map_eq_some_iff.1 hs
    obtain ⟨⟨id, q⟩, hq, hr⟩ := Option.map_eq_some_iff.1 hreg
    cases hr
    refine ⟨hwaits, ?_⟩
    show s.fired.length + q.timers.size ≤ size + (s.registered + 1)
    rw [TimerQueue.size_register hq]
    omega
  | modify id expiry waker =>
    cases hs
    refine ⟨hwaits, ?_⟩
    show s.fired.length + (s.reactor.timerQueue.modify id expiry waker).1.timers.size ≤ _
    rw [TimerQueue.size_modify]
    exact hfired
  | cancel id expiry =>
    cases hs
    exact ⟨hwaits, (Nat.add_le_add_left (TimerQueue.size_cancel_le id expiry) _).trans hfired⟩
  | wait env =>
    cases hs
    have hout := Reactor.wait_of_deadlineOnly hdead.1
    have hpos := List.length_pos_of_ne_nil (Reactor.timersWoken_ne_nil hdead.1 hdead.2)
    have hall := s.reactor.timerQueue.length_wakes_add_size env.after
    rw [← hout.1, ← hout.2.1] at hall
    refine ⟨?_, ?_⟩
    · show s.waits + 1 ≤ (s.fired ++ _).length
      rw [List.length_append]
      omega
    · show (s.fired ++ _).length + (s.reactor.wait env).reactor.timerQueue.timers.size ≤ _
      rw [List.length_append, Nat.add_assoc, hall]
      exact hfired

/-- **No wait is wasted.** A thread whose waits are ended by nothing but their deadlines, whatever
timers it registers, modifies and cancels in between, goes round at most once for each timer: every
wait fires at least one, a timer is fired at most once for each registration, and those that are
neither fired nor cancelled are still in the queue. -/
theorem waits_fire_timers {r : Reactor (PollPoller T) N W} {as : List (TimerCall T W)}
    {t : Rounds T N W} (hall : machine.AllSteps DeadlinesOnly (start r) as)
    (hrun : machine.run (start r) as = some t) :
    t.waits ≤ t.fired.length ∧
      t.fired.length + t.reactor.timerQueue.timers.size ≤
        r.timerQueue.timers.size + t.registered := by
  have hinit : (start r).Paid r.timerQueue.timers.size := ⟨le_rfl, (Nat.zero_add _).le⟩
  have h : t.Paid r.timerQueue.timers.size :=
    Machine.run_preserves_of_allSteps (fun _ _ _ hs ha hstep ↦ hs.step ha hstep) hinit hall hrun
  exact ⟨h.waits, h.fired⟩

/-- Two timers, at 1.5 and 1.9 milliseconds. The clock of the backend counts milliseconds. -/
def twoTimers : Reactor (PollPoller PollTimeout) PipeFd ℕ where
  poller := ⟨[], 3, .mk⟩
  eventSources := Std.TreeMap.empty
  timerQueue := ⟨⟨3, by decide⟩,
    ((∅ : BTreeMap TimerKey ℕ).insert (timerKey 1500000 .one) 70).insert
      (timerKey 1900000 ⟨2, by decide⟩) 71⟩
  notifier := .new ⟨3, 4, 0⟩

/-- A wait from one reading of the clock to another, in which the kernel reports nothing. -/
def silentWait (now after : Instant) : WaitEnv (PollPoller PollTimeout) :=
  ⟨now, ⟨none, .ok fun _ ↦ 0#16⟩, after, none⟩

/-- The first wait sleeps for two milliseconds and fires both timers. Then a third one is
registered. -/
def twoWaits : List (TimerCall PollTimeout ℕ) :=
  [.wait (silentWait 0 2000000), .register 6000000 72, .wait (silentWait 2100000 6100000)]

theorem waits_fire_timers_twoTimers :
    ∃ t, machine.run (start twoTimers) twoWaits = some t ∧ t.waits = 2 ∧ t.fired = [70, 71, 72] ∧
      t.waits ≤ t.fired.length ∧
      t.fired.length + t.reactor.timerQueue.timers.size ≤
        twoTimers.timerQueue.timers.size + t.registered := by
  have hready : ¬ PollPoller.SourceReady (fun _ ↦ 0#16) ([] : List (Source × Filter)) := by
    rintro ⟨s, ⟨g, hg, -⟩, -⟩
    cases hg
  have hall : machine.AllSteps DeadlinesOnly (start twoTimers) twoWaits := by
    refine ⟨⟨⟨by decide, rfl, rfl, ⟨_, rfl, hready⟩, ⟨1500000, by decide, Or.inr (by decide)⟩⟩,
      by decide⟩, fun t ht ↦ ⟨trivial, fun u hu ↦ ⟨?_, fun _ _ ↦ trivial⟩⟩⟩
    have hsecond : (machine.run (start twoTimers) (twoWaits.take 2)).map (fun u ↦
        (u.reactor.notifier.isNotified, u.reactor.filters,
          u.reactor.timerQueue.nextTimeout 2100000)) = some (false, [], some 3900000) := by decide
    have hrun : machine.run (start twoTimers) (twoWaits.take 2) = some u :=
      machine.run_cons_eq_some.2 ⟨t, ht, machine.run_cons_eq_some.2 ⟨u, hu, rfl⟩⟩
    rw [hrun] at hsecond
    obtain ⟨hflag, hfilters, hnext⟩ : _ ∧ _ ∧ _ := by
      simpa only [Option.map_some, Option.some.injEq, Prod.mk.injEq] using hsecond
    refine ⟨⟨by decide, hflag, rfl, ⟨_, rfl, ?_⟩, ⟨3900000, hnext, Or.inr (by decide)⟩⟩, by decide⟩
    rw [hfilters]
    exact hready
  have hrun : ((machine.run (start twoTimers) twoWaits).map fun t ↦ (t.waits, t.fired)) =
      some (2, [70, 71, 72]) := by decide
  obtain ⟨t, ht, hout⟩ := Option.map_eq_some_iff.1 hrun
  exact ⟨t, ht, congrArg Prod.fst hout, congrArg Prod.snd hout, waits_fire_timers hall ht⟩

end Rounds

end LocalRuntime
