import LocalRuntime.Time.TimerQueue

/-!
# The reactor

`Reactor` of `src/reactor.rs`, over an arbitrary poller and notifier: the event sources of the
thread with the wakers that wait on them, the timer queue, and the loop body `wait` that turns what
the poller reports into wakes.

Whatever the source leaves to the outside is an argument: a poller operation takes the answer `Env`
of the system calls it makes, a notifier operation takes the error its system call fails with, if
any, and `wait` takes its two readings of the clock. Invoking a waker is recorded, not executed:
each operation returns the wakers it has invoked, in order.

A `Wakeup` carries the fact that it is never enabled without a waker, so the pattern match in
`Wakeup.wake` cannot drop an enabled direction.
-/

namespace LocalRuntime

/-- A raw file descriptor. -/
abbrev Source := ℕ

/-- Type of event that a caller is interested in receiving. -/
inductive Interest where
  | read
  | write
  deriving DecidableEq

/-- The directions asked of, or reported for, an event source. -/
structure Filter where
  read : Bool := false
  write : Bool := false
  deriving DecidableEq

/-- An I/O error: the code of a failed system call, or an error made up by the crate. -/
inductive IoError where
  | errno (code : ℕ)
  | other (msg : String)
  deriving DecidableEq

/-- The ways a call can fail to return normally. -/
inductive Fault where
  | io (err : IoError)
  | panic (msg : String)
  deriving DecidableEq

/-! ### Wakeups -/

variable {P N W : Type}

/-- The waker of one direction of an event source. -/
structure Wakeup (W : Type) where
  enabled : Bool
  waker : Option W
  /-- A direction is only enabled together with a waker. -/
  isSome_of_enabled : enabled = true → waker.isSome = true

namespace Wakeup

/-- A direction nobody has waited on. -/
def default : Wakeup W := ⟨false, none, nofun⟩

/-- Invoke the waker if the direction is enabled, and disable the direction. -/
def wake : Wakeup W → List W × Wakeup W
  | ⟨true, some w, _⟩ => ([w], ⟨false, some w, nofun⟩)
  | u => ([], u)

/-- Enable the direction with a new waker. -/
def enable (_ : Wakeup W) (waker : W) : Wakeup W := ⟨true, some waker, fun _ ↦ rfl⟩

theorem wake_of_enabled {u : Wakeup W} (h : u.enabled = true) :
    ∃ w, u.waker = some w ∧ u.wake.1 = [w] ∧ u.wake.2.enabled = false := by
  rcases u with ⟨- | -, - | w, hw⟩
  · cases h
  · cases h
  · cases hw rfl
  · exact ⟨w, rfl, rfl, rfl⟩

theorem wake_of_not_enabled {u : Wakeup W} (h : u.enabled = false) : u.wake = ([], u) := by
  rcases u with ⟨- | -, - | w, hw⟩
  · rfl
  · rfl
  · cases h
  · cases h

end Wakeup

/-- The two directions of an event source. -/
structure EventData (W : Type) where
  read : Wakeup W
  write : Wakeup W

namespace EventData

/-- A source nobody has waited on. -/
def default : EventData W := ⟨.default, .default⟩

/-- The enabled directions. -/
def filter (d : EventData W) : Filter := ⟨d.read.enabled, d.write.enabled⟩

/-- One direction. -/
def dir (d : EventData W) : Interest → Wakeup W
  | .read => d.read
  | .write => d.write

/-- Enable one direction. -/
def enable (d : EventData W) (interest : Interest) (waker : W) : EventData W :=
  match interest with
  | .read => { d with read := d.read.enable waker }
  | .write => { d with write := d.write.enable waker }

/-- Wake the directions that a report names. -/
def report (d : EventData W) (filter : Filter) : List W × EventData W :=
  let r := if filter.read then d.read.wake else ([], d.read)
  let w := if filter.write then d.write.wake else ([], d.write)
  (r.1 ++ w.1, ⟨r.2, w.2⟩)

/-- Some direction is both enabled and reported. -/
def Hits (d : EventData W) (filter : Filter) : Prop :=
  filter.read = true ∧ d.read.enabled = true ∨ filter.write = true ∧ d.write.enabled = true

/-- A report that names no enabled direction changes nothing. -/
theorem report_of_not_hits {d : EventData W} {filter : Filter} (h : ¬ d.Hits filter) :
    d.report filter = ([], d) := by
  rcases d with ⟨r, w⟩
  rcases filter with ⟨fr, fw⟩
  have hr : (if fr then r.wake else ([], r)) = ([], r) := by
    split
    next hfr =>
      refine Wakeup.wake_of_not_enabled (Bool.eq_false_iff.2 fun he ↦ ?_)
      exact h (Or.inl ⟨hfr, he⟩)
    · rfl
  have hw : (if fw then w.wake else ([], w)) = ([], w) := by
    split
    next hfw =>
      refine Wakeup.wake_of_not_enabled (Bool.eq_false_iff.2 fun he ↦ ?_)
      exact h (Or.inr ⟨hfw, he⟩)
    · rfl
  simp [report, hr, hw]

/-- A report that names an enabled direction invokes a waker. -/
theorem report_of_hits {d : EventData W} {filter : Filter} (h : d.Hits filter) :
    (d.report filter).1 ≠ [] := by
  rcases h with ⟨hf, he⟩ | ⟨hf, he⟩
  · obtain ⟨w, -, hw, -⟩ := Wakeup.wake_of_enabled he
    simp [report, hf, hw]
  · obtain ⟨w, -, hw, -⟩ := Wakeup.wake_of_enabled he
    simp [report, hf, hw]

end EventData

/-! ### Notifiers and pollers -/

/-- Method of notifying the reactor to wake it up. The first argument is the error that the system
call fails with, if it does. -/
class EventNotifier (N : Type) where
  clear : Option IoError → N → Except IoError Unit × N
  notify : Option IoError → N → Except IoError Unit × N

/-- An `EventNotifier` with an atomic flag, so that the notification is only sent once. -/
structure WithFlag (N : Type) where
  inner : N
  isNotified : Bool

namespace WithFlag

/-- A notifier without a notification. -/
def new (inner : N) : WithFlag N := ⟨inner, false⟩

/-- The second half of `clear`. -/
def storeFalse (n : WithFlag N) : WithFlag N := { n with isNotified := false }

/-- Keep wakers from sending notifications. -/
def setToNotified (n : WithFlag N) : WithFlag N := { n with isNotified := true }

variable [EventNotifier N]

/-- The first half of `clear`. -/
def clearInner (n : WithFlag N) (err : Option IoError) : Except IoError Unit × WithFlag N :=
  let res := EventNotifier.clear err n.inner
  (res.1, { n with inner := res.2 })

/-- Clear the inner notifier first and the flag afterwards, also when the inner notifier failed. -/
def clear (n : WithFlag N) (err : Option IoError) : Except IoError Unit × WithFlag N :=
  let res := n.clearInner err
  (res.1, res.2.storeFalse)

/-- The second half of `notify`, after the flag has been claimed. -/
def notifyInner (n : WithFlag N) (err : Option IoError) : Except IoError Unit × WithFlag N :=
  let res := EventNotifier.notify err n.inner
  (res.1, { n with inner := res.2 })

/-- Claim the flag, and notify only if it was clear. -/
def notify (n : WithFlag N) (err : Option IoError) : Except IoError Unit × WithFlag N :=
  if n.isNotified then (.ok (), n) else n.setToNotified.notifyInner err

end WithFlag

/-- The poller behind a reactor. `Env` is what the system calls of one operation answer. -/
class EventPoller (P : Type) where
  Env : Type
  register : Env → P → Source → Except IoError Unit × P
  modify : Env → P → Source → Filter → Except IoError Unit × P
  deregister : Env → P → Source → Except IoError Unit × P
  poll : Env → P → Option Duration → List (Source × Filter) →
    Except IoError (Option (List (Source × Filter))) × P

/-! ### The reactor -/

/-- The event sources of a reactor. -/
abbrev EventSources (W : Type) := BTreeMap Source (EventData W)

/-- The reactor of a thread. -/
structure Reactor (P N W : Type) where
  poller : P
  eventSources : EventSources W
  timerQueue : TimerQueue W
  notifier : WithFlag N

/-- What happens outside while `wait` runs: the clock reading of `next_timeout`, the answer to the
poller, the clock reading of `clear_expired`, and the error of clearing the notifier. -/
structure WaitEnv (P : Type) [EventPoller P] where
  now : Instant
  poll : EventPoller.Env P
  after : Instant
  clear : Option IoError

/-- The outcome of `wait`: how it ended, the reactor it left, and the wakers it invoked for I/O
events and for expired timers. -/
structure WaitOut (P N W : Type) where
  result : Except Fault Unit
  reactor : Reactor P N W
  ioWoken : List W
  timersWoken : List W

namespace Reactor

section Events

variable [EventPoller P]

/-- Register a new event source. A source that is already there is restored, and the call fails. -/
def registerEvent (r : Reactor P N W) (env : EventPoller.Env P) (source : Source) :
    Except IoError Unit × Reactor P N W :=
  match EventPoller.register env r.poller source with
  | (.error err, poller) => (.error err, { r with poller })
  | (.ok (), poller) =>
    match r.eventSources.replace source .default with
    | (some prev, sources) =>
      (.error (.other "event source already registered in reactor"),
        { r with poller, eventSources := sources.insert source prev })
    | (none, sources) => (.ok (), { r with poller, eventSources := sources })

/-- Deregister an event source. -/
def deregisterEvent (r : Reactor P N W) (env : EventPoller.Env P) (source : Source) :
    Except Fault Unit × Reactor P N W :=
  match r.eventSources[source]? with
  | none => (.error (.panic "deregistering non-existent event source"), r)
  | some _ =>
    let res := EventPoller.deregister env r.poller source
    (res.1.mapError .io, { r with
      poller := res.2
      eventSources := r.eventSources.erase source })

/-- Enable one direction of a registered event source. -/
def enableEvent (r : Reactor P N W) (env : EventPoller.Env P) (source : Source)
    (interest : Interest) (waker : W) : Except Fault Unit × Reactor P N W :=
  match r.eventSources[source]? with
  | none => (.error (.panic "enabling non-existent event source"), r)
  | some data =>
    let data := data.enable interest waker
    let res := EventPoller.modify env r.poller source data.filter
    (res.1.mapError .io, { r with
      poller := res.2
      eventSources := r.eventSources.insert source data })

/-- Check if an event is ready since the last time the direction was enabled. -/
def isEventReady (r : Reactor P N W) (source : Source) (interest : Interest) : Except Fault Bool :=
  match r.eventSources[source]? with
  | none => .error (.panic "checking non-existent event source")
  | some data => .ok !(data.dir interest).enabled

end Events

/-- What the poller is asked: every registered source with its enabled directions. -/
def filters (r : Reactor P N W) : List (Source × Filter) :=
  r.eventSources.toList.map fun entry ↦ (entry.1, entry.2.filter)

/-- The loop of `wait` over the reported events. -/
def deliver : List (Source × Filter) → EventSources W →
    Except Fault Unit × List W × EventSources W
  | [], sources => (.ok (), [], sources)
  | (source, filter) :: rest, sources =>
    match sources[source]? with
    | none => (.error (.panic "called `Option::unwrap()` on a `None` value"), [], sources)
    | some data =>
      let res := data.report filter
      let out := deliver rest (sources.insert source res.2)
      (out.1, res.1 ++ out.2.1, out.2.2)

section Wait

variable [EventPoller P] [EventNotifier N]

/-- The end of `wait`, common to its two branches: clear the expired timers, then the notifier. A
failure to clear the notifier is only logged. -/
def cleanUp (r : Reactor P N W) (env : WaitEnv P) (ioWoken : List W) : WaitOut P N W :=
  let timers := r.timerQueue.clearExpired env.after
  { result := .ok ()
    reactor := { r with timerQueue := timers.2, notifier := (r.notifier.clear env.clear).2 }
    ioWoken
    timersWoken := timers.1 }

/-- `wait` by way of the poller: a poller error returns at once; otherwise the flag is set and the
reported events are delivered. -/
def waitPolling (r : Reactor P N W) (env : WaitEnv P) (timeout : Option Duration) :
    WaitOut P N W :=
  match EventPoller.poll env.poll r.poller timeout r.filters with
  | (.error err, poller) => ⟨.error (.io err), { r with poller }, [], []⟩
  | (.ok revents, poller) =>
    let out := deliver (revents.getD []) r.eventSources
    let r := { r with
      poller
      notifier := r.notifier.setToNotified
      eventSources := out.2.2 }
    match out.1 with
    | .error fault => ⟨.error fault, r, out.2.1, []⟩
    | .ok () => r.cleanUp env out.2.1

omit [EventPoller P] [EventNotifier N] in
/-- The test of `wait` for not calling the poller: the first timer is due, or a notification is
there already. -/
def skipsPoll (r : Reactor P N W) (now : Instant) : Bool :=
  r.timerQueue.nextTimeout now == some 0 || r.notifier.isNotified

/-- Wait for an event on the reactor. -/
def wait (r : Reactor P N W) (env : WaitEnv P) : WaitOut P N W :=
  if r.skipsPoll env.now then r.cleanUp env []
  else r.waitPolling env (r.timerQueue.nextTimeout env.now)

end Wait

end Reactor

end LocalRuntime
