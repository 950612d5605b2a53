import LocalRuntime.Reactor.Events
import LocalRuntime.Lib.Machine

/-!
# Async I/O objects

`Async` of `src/io.rs` over the reactor of its thread: construction, the guard that deregisters the
descriptor, and the two ways of polling an operation, `poll_event` (which `poll_event_mut` repeats
for a mutable borrow, and which every read, write, accept, send and receive goes through) and
`wait_for_event_ready` (which `readable` and `writable` go through).

The closure of `poll_event` is code of the caller, which may create, poll and drop other objects; so
a poll is cut in two there. What the system calls answer comes with each action.

The operations are tracked with what has happened behind their backs: the wakers that `wait` has
invoked since their last poll, and what the poller has reported since their first.
-/

namespace LocalRuntime

variable {P N W α : Type}

namespace Async

variable [EventPoller P]

/-- Register the descriptor. The guard that will deregister it is made after the registration has
succeeded. -/
def withoutNonblocking (r : Reactor P N W) (env : EventPoller.Env P) (source : Source) :
    Except IoError Source × Reactor P N W :=
  match r.registerEvent env source with
  | (.error err, r) => (.error err, r)
  | (.ok (), r) => (.ok source, r)

/-- Set the descriptor to non-blocking mode, and register it. -/
def new (r : Reactor P N W) (nonblocking : Except IoError Unit) (env : EventPoller.Env P)
    (source : Source) : Except IoError Source × Reactor P N W :=
  match nonblocking with
  | .error err => (.error err, r)
  | .ok () => withoutNonblocking r env source

/-- The destructor of `GuardedSource`. An error of the deregistration is only logged; the first
component is the message of a panic. -/
def drop (r : Reactor P N W) (env : EventPoller.Env P) (source : Source) :
    Option String × Reactor P N W :=
  match r.deregisterEvent env source with
  | (.error (.panic msg), r) => (some msg, r)
  | (.error (.io _), r) | (.ok (), r) => (none, r)

/-- Enable the event and return pending, or the error of enabling it. -/
def enable (r : Reactor P N W) (env : EventPoller.Env P) (source : Source) (interest : Interest)
    (waker : W) : Poll (Except Fault α) × Reactor P N W :=
  match r.enableEvent env source interest waker with
  | (.error fault, r) => (.ready (.error fault), r)
  | (.ok (), r) => (.pending, r)

/-- `poll_event`, from the return of the closure on. -/
def pollEvent (r : Reactor P N W) (env : EventPoller.Env P) (source : Source) (interest : Interest)
    (waker : W) (res : Except IoError α) : Poll (Except Fault α) × Reactor P N W :=
  match res with
  | .ok n => (.ready (.ok n), r)
  | .error err =>
    if err = wouldBlock then enable r env source interest waker else (.ready (.error (.io err)), r)

/-- A poll of `wait_for_event_ready`. -/
def waitForEventReady (r : Reactor P N W) (env : EventPoller.Env P) (source : Source)
    (interest : Interest) (waker : W) (firstCall : Bool) :
    Poll (Except Fault Unit) × Reactor P N W :=
  if firstCall then enable r env source interest waker
  else
    match r.isEventReady source interest with
    | .error fault => (.ready (.error fault), r)
    | .ok true => (.ready (.ok ()), r)
    | .ok false => enable r env source interest waker

/-! ### What each of them does -/

variable {r : Reactor P N W} {env : EventPoller.Env P} {s : Source} {d : Interest} {w : W}

/-- A construction that fails changes no entry of the event sources; one that succeeds adds a
descriptor that was not there. -/
theorem withoutNonblocking_cases (r : Reactor P N W) (env : EventPoller.Env P) (s : Source) :
    (∃ err, (withoutNonblocking r env s).1 = .error err ∧
      ∀ t : Source, (withoutNonblocking r env s).2.eventSources[t]? = r.eventSources[t]?) ∨
    (withoutNonblocking r env s).1 = .ok s ∧ s ∉ r.eventSources ∧
      (withoutNonblocking r env s).2.eventSources = r.eventSources.insert s .default := by
  rw [withoutNonblocking]
  rcases r.registerEvent_cases env s with ⟨err, hres, hsame⟩ | ⟨hres, hs, hsources⟩
  · rcases hregister : r.registerEvent env s with ⟨res, r'⟩
    rw [hregister] at hres hsame
    obtain rfl : res = .error err := hres
    exact Or.inl ⟨err, rfl, hsame⟩
  · rcases hregister : r.registerEvent env s with ⟨res, r'⟩
    rw [hregister] at hres hsources
    obtain rfl : res = .ok () := hres
    exact Or.inr ⟨rfl, hs, hsources⟩

theorem new_cases (r : Reactor P N W) (nonblocking : Except IoError Unit) (env : EventPoller.Env P)
    (s : Source) :
    (∃ err, (new r nonblocking env s).1 = .error err ∧
      ∀ t : Source, (new r nonblocking env s).2.eventSources[t]? = r.eventSources[t]?) ∨
    (new r nonblocking env s).1 = .ok s ∧ s ∉ r.eventSources ∧
      (new r nonblocking env s).2.eventSources = r.eventSources.insert s .default := by
  rcases nonblocking with err | ⟨⟩
  · exact Or.inl ⟨err, rfl, fun t ↦ rfl⟩
  · exact withoutNonblocking_cases r env s

/-- Dropping the guard of a registered descriptor takes it out. -/
theorem drop_of_mem (hs : s ∈ r.eventSources) :
    (drop r env s).1 = none ∧ (drop r env s).2.eventSources = r.eventSources.erase s := by
  rw [drop]
  rcases r.deregisterEvent_cases env s with ⟨hnot, -⟩ | ⟨-, hpanic, hsources⟩
  · exact absurd hs hnot
  · rcases hderegister : r.deregisterEvent env s with ⟨res, r'⟩
    rw [hderegister] at hpanic hsources
    rcases res with (err | msg) | ⟨⟩
    · exact ⟨rfl, hsources⟩
    · exact absurd rfl (hpanic msg)
    · exact ⟨rfl, hsources⟩

/-- What a poll of an operation does: it does not panic, it changes only what its own direction asks
for, and if it is pending that is its waker. -/
structure Polls (r : Reactor P N W) (s : Source) (d : Interest) (w : W)
    (res : Poll (Except Fault α) × Reactor P N W) : Prop where
  not_panic : ∀ msg, res.1 ≠ .ready (.error (.panic msg))
  mem_iff : ∀ t, t ∈ res.2.eventSources ↔ t ∈ r.eventSources
  asks_of_ne : ∀ t e, ¬ (t = s ∧ e = d) →
    Reactor.asks res.2.eventSources t e = Reactor.asks r.eventSources t e
  asks_of_pending : res.1 = .pending → Reactor.asks res.2.eventSources s d = some w

omit [EventPoller P] in
/-- A poll that returns without having reached the reactor. -/
theorem Polls.refl {out : Except Fault α} (hout : ∀ msg, out ≠ .error (.panic msg)) :
    Polls r s d w (.ready out, r) :=
  ⟨by simpa using hout, fun _ ↦ Iff.rfl, fun _ _ _ ↦ rfl, by simp⟩

theorem polls_enable (hs : s ∈ r.eventSources) :
    Polls r s d w (enable r env s d w : Poll (Except Fault α) × Reactor P N W) := by
  rcases r.enableEvent_cases env s d w with ⟨hnot, -⟩ | ⟨data, hdata, hpanic, hsources⟩
  · exact absurd hs hnot
  rcases henable : r.enableEvent env s d w with ⟨res, r'⟩
  rw [henable] at hpanic hsources
  have hmem (t : Source) : t ∈ r'.eventSources ↔ t ∈ r.eventSources := by
    rw [show r'.eventSources = _ from hsources, Reactor.mem_insert, or_iff_right_of_imp]
    exact fun hts ↦ hts ▸ hs
  have hasks (t : Source) (e : Interest) : Reactor.asks r'.eventSources t e =
      if t = s ∧ e = d then some w else Reactor.asks r.eventSources t e := by
    rw [show r'.eventSources = _ from hsources, Reactor.asks_insert, EventData.asks_enable]
    rcases eq_or_ne t s with rfl | hne
    · simp only [if_true, true_and, eq_comm (a := e), Reactor.asks_of_eq hdata]
    · simp only [hne, if_false, false_and]
  have hpolls {out : Poll (Except Fault α)} (hout : ∀ msg, out ≠ .ready (.error (.panic msg))) :
      Polls r s d w (out, r') :=
    ⟨hout, hmem, fun t e hne ↦ by rw [hasks, if_neg hne], fun _ ↦ by rw [hasks, if_pos ⟨rfl, rfl⟩]⟩
  rw [enable, henable]
  rcases res with fault | ⟨⟩
  · exact hpolls fun msg heq ↦ hpanic msg (by simpa using heq)
  · exact hpolls (by simp)

theorem polls_pollEvent (hs : s ∈ r.eventSources) (res : Except IoError α) :
    Polls r s d w (pollEvent r env s d w res) := by
  rcases res with err | n
  · rw [pollEvent]
    split
    · exact polls_enable hs
    · exact .refl (by simp)
  · exact .refl (by simp)

/-- The event is ready exactly if the direction asks for nothing, and then the wait is over. -/
theorem polls_waitForEventReady (hs : s ∈ r.eventSources) (firstCall : Bool) :
    Polls r s d w (waitForEventReady r env s d w firstCall) ∧
      ((waitForEventReady r env s d w firstCall).1 = .ready (.ok ()) →
        firstCall = false ∧ Reactor.asks r.eventSources s d = none) := by
  have henable : Polls r s d w (enable r env s d w : Poll (Except Fault Unit) × Reactor P N W) ∧
      (enable r env s d w : Poll (Except Fault Unit) × Reactor P N W).1 ≠ .ready (.ok ()) := by
    refine ⟨polls_enable hs, ?_⟩
    rw [enable]
    split
    · simp
    · simp
  obtain ⟨data, hdata⟩ := BTreeMap.mem_iff_exists.1 hs
  rw [waitForEventReady, r.isEventReady_eq s d hdata]
  rcases firstCall with - | -
  · rcases hasks : Reactor.asks r.eventSources s d with - | w'
    · exact ⟨.refl (by simp), fun _ ↦ ⟨rfl, rfl⟩⟩
    · exact ⟨henable.1, fun heq ↦ absurd heq henable.2⟩
  · exact ⟨henable.1, fun heq ↦ absurd heq henable.2⟩

end Async

/-! ### The objects of a thread -/

/-- How far the poll of an operation has got, with the waker that it was given. -/
inductive IoPhase (W : Type) where
  /-- The closure of `poll_event` is being called. -/
  | attempting (w : W)
  /-- The last poll has returned pending. -/
  | pending (w : W)

/-- An operation that has been polled and has not finished. -/
structure IoOp (W : Type) where
  async : ℕ
  interest : Interest
  /-- It is one of `readable` and `writable`. -/
  isReady : Bool
  phase : IoPhase W
  /-- The wakers that `wait` has invoked since the last poll returned pending. -/
  woken : List W
  /-- What the poller has reported since the first poll. -/
  reports : List (Source × Filter)

/-- The reactor of a thread, the descriptors of the `Async` values that are alive, the operations on
them, and the panics that they have run into. -/
structure Io (P N W : Type) where
  reactor : Reactor P N W
  asyncs : ℕ → Option Source
  ops : ℕ → Option (IoOp W)
  panics : List String

/-- What happens on the thread. -/
inductive IoAct (P N W : Type) [EventPoller P] where
  | new (i : ℕ) (s : Source) (nonblocking : Except IoError Unit) (env : EventPoller.Env P)
  | withoutNonblocking (i : ℕ) (s : Source) (env : EventPoller.Env P)
  /-- An `Async` is dropped, or taken apart by `into_inner`; both drop its guard. -/
  | drop (i : ℕ) (env : EventPoller.Env P)
  /-- The first poll of an operation on `poll_event`, and another one: the closure is called. -/
  | start (o i : ℕ) (d : Interest) (w : W)
  | attempt (o : ℕ) (w : W)
  /-- The closure returns. -/
  | ret (o : ℕ) (res : Except IoError Unit) (env : EventPoller.Env P)
  /-- The first poll of `readable` or `writable`, and another one. -/
  | startReady (o i : ℕ) (d : Interest) (w : W) (env : EventPoller.Env P)
  | pollReady (o : ℕ) (w : W) (env : EventPoller.Env P)
  /-- An operation is dropped while it is pending. -/
  | dropOp (o : ℕ)
  | wait (env : WaitEnv P)
  /-- A change of the timers and the notifier. -/
  | elsewhere (timerQueue : TimerQueue W) (notifier : WithFlag N)

namespace Io

/-- A thread without `Async` values. -/
def init (poller : P) (timerQueue : TimerQueue W) (notifier : WithFlag N) : Io P N W :=
  ⟨⟨poller, ∅, timerQueue, notifier⟩, fun _ ↦ none, fun _ ↦ none, []⟩

/-- The outcome of a construction. -/
def construct (m : Io P N W) (i : ℕ) (res : Except IoError Source × Reactor P N W) : Io P N W :=
  match res.1 with
  | .error _ => { m with reactor := res.2 }
  | .ok s => { m with reactor := res.2, asyncs := Function.update m.asyncs i (some s) }

/-- The outcome of dropping an `Async`. Its operations end with it; one whose closure is running
keeps it borrowed, which is not enforced here. -/
def release (m : Io P N W) (i : ℕ) (res : Option String × Reactor P N W) : Io P N W where
  reactor := res.2
  asyncs := Function.update m.asyncs i none
  ops o := (m.ops o).filter fun op ↦ op.async ≠ i
  panics := res.1.toList ++ m.panics

/-- The panic in the outcome of a poll. -/
def panicOf {α : Type} : Except Fault α → List String
  | .error (.panic msg) => [msg]
  | .error (.io _) | .ok _ => []

/-- The outcome of a poll. -/
def polled (m : Io P N W) (o : ℕ) (op : IoOp W) (w : W)
    (res : Poll (Except Fault Unit) × Reactor P N W) : Io P N W :=
  match res.1 with
  | .pending => { m with
      reactor := res.2
      ops := Function.update m.ops o (some { op with phase := .pending w, woken := [] }) }
  | .ready out => { m with
      reactor := res.2
      ops := Function.update m.ops o none
      panics := panicOf out ++ m.panics }

section Polled

variable {m : Io P N W} {o c : ℕ} {op : IoOp W} {w : W}
  {res : Poll (Except Fault Unit) × Reactor P N W}

theorem asyncs_polled : (m.polled o op w res).asyncs = m.asyncs := by
  rcases res with ⟨- | out, r⟩
  · rfl
  · rfl

theorem ops_polled (hc : c ≠ o) : (m.polled o op w res).ops c = m.ops c := by
  rcases res with ⟨- | out, r⟩
  · exact Function.update_of_ne hc _ _
  · exact Function.update_of_ne hc _ _

end Polled

section Step

variable [EventPoller P] [EventNotifier N]

/-- What the poller reports to a `wait`. -/
def reported (r : Reactor P N W) (env : WaitEnv P) : List (Source × Filter) :=
  match r.answer env with
  | some (.ok l) => l
  | some (.error _) | none => []

/-- The outcome of a `wait`. -/
def waited (m : Io P N W) (env : WaitEnv P) : Io P N W :=
  let out := m.reactor.wait env
  { m with
    reactor := out.reactor
    ops := fun o ↦ (m.ops o).map fun op ↦ { op with
      woken := out.ioWoken ++ op.woken
      reports := reported m.reactor env ++ op.reports } }

/-- The step of an action. -/
def step (m : Io P N W) : IoAct P N W → Option (Io P N W)
  | .new i s nonblocking env =>
    match m.asyncs i with
    | none => some (m.construct i (Async.new m.reactor nonblocking env s))
    | some _ => none
  | .withoutNonblocking i s env =>
    match m.asyncs i with
    | none => some (m.construct i (Async.withoutNonblocking m.reactor env s))
    | some _ => none
  | .drop i env =>
    match m.asyncs i with
    | none => none
    | some s => some (m.release i (Async.drop m.reactor env s))
  | .start o i d w =>
    match m.ops o, m.asyncs i with
    | none, some _ => some
        { m with ops := Function.update m.ops o (some ⟨i, d, false, .attempting w, [], []⟩) }
    | _, _ => none
  | .attempt o w =>
    match m.ops o with
    | some op =>
      match op.isReady, op.phase with
      | false, .pending _ =>
        some { m with ops := Function.update m.ops o (some { op with phase := .attempting w }) }
      | _, _ => none
    | none => none
  | .ret o res env =>
    match m.ops o with
    | some op =>
      match op.phase, m.asyncs op.async with
      | .attempting w, some s =>
        some (m.polled o op w (Async.pollEvent m.reactor env s op.interest w res))
      | _, _ => none
    | none => none
  | .startReady o i d w env =>
    match m.ops o, m.asyncs i with
    | none, some s => some (m.polled o ⟨i, d, true, .pending w, [], []⟩ w
        (Async.waitForEventReady m.reactor env s d w true))
    | _, _ => none
  | .pollReady o w env =>
    match m.ops o with
    | some op =>
      match op.isReady, m.asyncs op.async with
      | true, some s =>
        some (m.polled o op w (Async.waitForEventReady m.reactor env s op.interest w false))
      | _, _ => none
    | none => none
  | .dropOp o =>
    match m.ops o with
    | some op =>
      match op.phase with
      | .pending _ => some { m with ops := Function.update m.ops o none }
      | .attempting _ => none
    | none => none
  | .wait env => some (m.waited env)
  | .elsewhere timerQueue notifier =>
    some { m with reactor := { m.reactor with timerQueue, notifier } }

/-- The machine of the I/O of a thread. -/
def machine (P N W : Type) [EventPoller P] [EventNotifier N] : Machine (Io P N W) (IoAct P N W) :=
  ⟨step⟩

/-- Every step of the machine. -/
inductive Step (m : Io P N W) : IoAct P N W → Io P N W → Prop where
  | new {i : ℕ} {s : Source} {nonblocking : Except IoError Unit} {env : EventPoller.Env P}
      (hi : m.asyncs i = none) : Step m (.new i s nonblocking env)
        (m.construct i (Async.new m.reactor nonblocking env s))
  | withoutNonblocking {i : ℕ} {s : Source} {env : EventPoller.Env P} (hi : m.asyncs i = none) :
      Step m (.withoutNonblocking i s env)
        (m.construct i (Async.withoutNonblocking m.reactor env s))
  | drop {i : ℕ} {s : Source} {env : EventPoller.Env P} (hi : m.asyncs i = some s) :
      Step m (.drop i env) (m.release i (Async.drop m.reactor env s))
  | start {o i : ℕ} {s : Source} {d : Interest} {w : W} (ho : m.ops o = none)
      (hi : m.asyncs i = some s) : Step m (.start o i d w)
        { m with ops := Function.update m.ops o (some ⟨i, d, false, .attempting w, [], []⟩) }
  | attempt {o : ℕ} {op : IoOp W} {w w' : W} (ho : m.ops o = some op) (hready : op.isReady = false)
      (hphase : op.phase = .pending w') : Step m (.attempt o w)
        { m with ops := Function.update m.ops o (some { op with phase := .attempting w }) }
  | ret {o : ℕ} {op : IoOp W} {s : Source} {w : W} {res : Except IoError Unit}
      {env : EventPoller.Env P} (ho : m.ops o = some op) (hphase : op.phase = .attempting w)
      (hi : m.asyncs op.async = some s) : Step m (.ret o res env)
        (m.polled o op w (Async.pollEvent m.reactor env s op.interest w res))
  | startReady {o i : ℕ} {s : Source} {d : Interest} {w : W} {env : EventPoller.Env P}
      (ho : m.ops o = none) (hi : m.asyncs i = some s) : Step m (.startReady o i d w env)
        (m.polled o ⟨i, d, true, .pending w, [], []⟩ w
          (Async.waitForEventReady m.reactor env s d w true))
  | pollReady {o : ℕ} {op : IoOp W} {s : Source} {w : W} {env : EventPoller.Env P}
      (ho : m.ops o = some op) (hready : op.isReady = true) (hi : m.asyncs op.async = some s) :
      Step m (.pollReady o w env)
        (m.polled o op w (Async.waitForEventReady m.reactor env s op.interest w false))
  | dropOp {o : ℕ} {op : IoOp W} {w : W} (ho : m.ops o = some op) (hphase : op.phase = .pending w) :
      Step m (.dropOp o) { m with ops := Function.update m.ops o none }
  | wait {env : WaitEnv P} : Step m (.wait env) (m.waited env)
  | elsewhere {timerQueue : TimerQueue W} {notifier : WithFlag N} :
      Step m (.elsewhere timerQueue notifier)
        { m with reactor := { m.reactor with timerQueue, notifier } }

theorem step_cases {m m' : Io P N W} {a : IoAct P N W} (h : m.step a = some m') : Step m a m' := by
  rcases a with ⟨i, s, nonblocking, env⟩ | ⟨i, s, env⟩ | ⟨i, env⟩ | ⟨o, i, d, w⟩ | ⟨o, w⟩ |
    ⟨o, res, env⟩ | ⟨o, i, d, w, env⟩ | ⟨o, w, env⟩ | o | env | ⟨timerQueue, notifier⟩
  · simp only [step] at h
    split at h
    next hi =>
      obtain rfl := Option.some.inj h
      exact .new hi
    next => exact absurd h (by simp)
  · simp only [step] at h
    split at h
    next hi =>
      obtain rfl := Option.some.inj h
      exact .withoutNonblocking hi
    next => exact absurd h (by simp)
  · simp only [step] at h
    split at h
    next => exact absurd h (by simp)
    next s hi =>
      obtain rfl := Option.some.inj h
      exact .drop hi
  · simp only [step] at h
    split at h
    next s ho hi =>
      obtain rfl := Option.some.inj h
      exact .start ho hi
    next => exact absurd h (by simp)
  · simp only [step] at h
    split at h
    next op ho =>
      split at h
      next hready hphase =>
        obtain rfl := Option.some.inj h
        exact .attempt ho hready hphase
      next => exact absurd h (by simp)
    next => exact absurd h (by simp)
  · simp only [step] at h
    split at h
    next op ho =>
      split at h
      next w s hphase hi =>
        obtain rfl := Option.some.inj h
        exact .ret ho hphase hi
      next => exact absurd h (by simp)
    next => exact absurd h (by simp)
  · simp only [step] at h
    split at h
    next s ho hi =>
      obtain rfl := Option.some.inj h
      exact .startReady ho hi
    next => exact absurd h (by simp)
  · simp only [step] at h
    split at h
    next op ho =>
      split at h
      next s hready hi =>
        obtain rfl := Option.some.inj h
        exact .pollReady ho hready hi
      next => exact absurd h (by simp)
    next => exact absurd h (by simp)
  · simp only [step] at h
    split at h
    next op ho =>
      split at h
      next w hphase =>
        obtain rfl := Option.some.inj h
        exact .dropOp ho hphase
      next => exact absurd h (by simp)
    next => exact absurd h (by simp)
  · obtain rfl := Option.some.inj h
    exact .wait
  · obtain rfl := Option.some.inj h
    exact .elsewhere

end Step

/-! ### The event sources mirror the objects -/

/-- The event sources are the descriptors of the `Async` values that are alive, each of one of them;
the operations are on `Async` values that are alive; and nothing has panicked. -/
structure MirrorInv (m : Io P N W) : Prop where
  mem_iff : ∀ s, s ∈ m.reactor.eventSources ↔ ∃ i, m.asyncs i = some s
  injective : ∀ i j s, m.asyncs i = some s → m.asyncs j = some s → i = j
  alive : ∀ o op, m.ops o = some op → ∃ s, m.asyncs op.async = some s
  panics : m.panics = []

section Mirror

variable [EventPoller P] [EventNotifier N] {m m' : Io P N W} {i o : ℕ} {s : Source}

omit [EventPoller P] [EventNotifier N] in
theorem MirrorInv.mem (h : MirrorInv m) (hi : m.asyncs i = some s) : s ∈ m.reactor.eventSources :=
  (h.mem_iff s).2 ⟨i, hi⟩

omit [EventPoller P] [EventNotifier N] in
/-- Another `Async` gets a descriptor that is not there yet. -/
theorem MirrorInv.construct (h : MirrorInv m) (hi : m.asyncs i = none)
    {res : Except IoError Source × Reactor P N W}
    (hres : (∃ err, res.1 = .error err ∧
        ∀ t : Source, res.2.eventSources[t]? = m.reactor.eventSources[t]?) ∨
      res.1 = .ok s ∧ s ∉ m.reactor.eventSources ∧
        res.2.eventSources = m.reactor.eventSources.insert s .default) :
    MirrorInv (m.construct i res) := by
  rcases res with ⟨out, r⟩
  rcases hres with ⟨err, hout, hsame⟩ | ⟨hout, hs, hsources⟩
  · obtain rfl : out = .error err := hout
    exact ⟨fun t ↦ (Reactor.mem_congr hsame).trans (h.mem_iff t), h.injective, h.alive, h.panics⟩
  · obtain rfl : out = .ok s := hout
    have hnew (j : ℕ) (t : Source) : Function.update m.asyncs i (some s) j = some t ↔
        j = i ∧ t = s ∨ m.asyncs j = some t := by
      rcases eq_or_ne j i with rfl | hne
      · rw [Function.update_self, hi]
        simp [eq_comm]
      · simp [hne]
    have hfresh (j : ℕ) : m.asyncs j ≠ some s := fun hj ↦ hs (h.mem hj)
    refine ⟨fun t ↦ ?_, fun j k t hj hk ↦ ?_, fun o op ho ↦ ?_, h.panics⟩
    · show t ∈ r.eventSources ↔ ∃ j, Function.update m.asyncs i (some s) j = some t
      rw [show r.eventSources = _ from hsources, Reactor.mem_insert, h.mem_iff]
      simp only [hnew, exists_or, exists_eq_left]
    · rcases (hnew j t).1 hj with ⟨rfl, rfl⟩ | hj'
      · rcases (hnew k t).1 hk with ⟨rfl, -⟩ | hk'
        · rfl
        · exact absurd hk' (hfresh k)
      · rcases (hnew k t).1 hk with ⟨rfl, rfl⟩ | hk'
        · exact absurd hj' (hfresh j)
        · exact h.injective j k t hj' hk'
    · obtain ⟨t, ht⟩ := h.alive o op ho
      exact ⟨t, (hnew _ t).2 (Or.inr ht)⟩

omit [EventPoller P] [EventNotifier N] in
/-- The guard of an `Async` takes its own descriptor out. -/
theorem MirrorInv.release (h : MirrorInv m) (hi : m.asyncs i = some s)
    {res : Option String × Reactor P N W} (hpanic : res.1 = none)
    (hsources : res.2.eventSources = m.reactor.eventSources.erase s) :
    MirrorInv (m.release i res) := by
  have hold (j : ℕ) (t : Source) : Function.update m.asyncs i none j = some t ↔
      j ≠ i ∧ m.asyncs j = some t := by
    rcases eq_or_ne j i with rfl | hne
    · simp
    · simp [hne]
  refine ⟨fun t ↦ ?_, fun j k t hj hk ↦ ?_, fun o op ho ↦ ?_, ?_⟩
  · show t ∈ res.2.eventSources ↔ ∃ j, Function.update m.asyncs i none j = some t
    rw [hsources, Reactor.mem_erase, h.mem_iff]
    constructor
    · rintro ⟨hne, j, hj⟩
      refine ⟨j, (hold j t).2 ⟨?_, hj⟩⟩
      rintro rfl
      exact hne (Option.some.inj (hj.symm.trans hi))
    · rintro ⟨j, hj⟩
      obtain ⟨hne, hj⟩ := (hold j t).1 hj
      exact ⟨fun hts ↦ hne (h.injective j i s (hts ▸ hj) hi), j, hj⟩
  · exact h.injective j k t ((hold j t).1 hj).2 ((hold k t).1 hk).2
  · obtain ⟨ho, hne⟩ := Option.filter_eq_some_iff.1 ho
    obtain ⟨t, ht⟩ := h.alive o op ho
    exact ⟨t, (hold _ t).2 ⟨by simpa using hne, ht⟩⟩
  · show res.1.toList ++ m.panics = []
    rw [hpanic, h.panics]
    rfl

omit [EventPoller P] [EventNotifier N] in
/-- Whatever changes only the operations. -/
theorem MirrorInv.of_ops (h : MirrorInv m) {ops : ℕ → Option (IoOp W)}
    (hops : ∀ o op, ops o = some op → ∃ s, m.asyncs op.async = some s) :
    MirrorInv { m with ops } :=
  ⟨h.mem_iff, h.injective, hops, h.panics⟩

omit [EventPoller P] [EventNotifier N] in
theorem MirrorInv.alive_update (h : MirrorInv m) {new : Option (IoOp W)}
    (hnew : ∀ op, new = some op → ∃ s, m.asyncs op.async = some s) (o : ℕ) (j : ℕ) (op : IoOp W)
    (hj : Function.update m.ops o new j = some op) : ∃ s, m.asyncs op.async = some s := by
  rcases eq_or_ne j o with rfl | hne
  · rw [Function.update_self] at hj
    exact hnew op hj
  · rw [Function.update_of_ne hne] at hj
    exact h.alive j op hj

omit [EventPoller P] [EventNotifier N] in
/-- A poll does not panic and leaves the same event sources. -/
theorem MirrorInv.polled (h : MirrorInv m) {op : IoOp W} {w : W} (hi : m.asyncs op.async = some s)
    {res : Poll (Except Fault Unit) × Reactor P N W}
    (hres : Async.Polls m.reactor s op.interest w res) : MirrorInv (m.polled o op w res) := by
  rcases res with ⟨- | out, r⟩
  · refine ⟨fun t ↦ (hres.mem_iff t).trans (h.mem_iff t), h.injective, ?_, h.panics⟩
    refine h.alive_update (fun op' heq ↦ ?_) o
    obtain rfl := Option.some.inj heq
    exact ⟨s, hi⟩
  · refine ⟨fun t ↦ (hres.mem_iff t).trans (h.mem_iff t), h.injective, ?_, ?_⟩
    · exact h.alive_update (by simp) o
    · show panicOf out ++ m.panics = []
      rw [h.panics, List.append_nil]
      rcases out with (err | msg) | ⟨⟩
      · rfl
      · exact absurd rfl (hres.not_panic msg)
      · rfl

theorem MirrorInv.waited (h : MirrorInv m) (env : WaitEnv P) : MirrorInv (m.waited env) := by
  refine ⟨fun s ↦ ?_, h.injective, fun o op ho ↦ ?_, h.panics⟩
  · show s ∈ (m.reactor.wait env).reactor.eventSources ↔ ∃ i, m.asyncs i = some s
    rw [← h.mem_iff]
    rcases m.reactor.wait_cases env with ⟨-, -, hsources, -⟩ | ⟨err, -, -, ⟨poller, hreactor⟩, -⟩ |
      ⟨l, -, -, hsources, -⟩
    · rw [hsources]
    · rw [hreactor]
    · rw [hsources]
      exact Reactor.mem_deliver
  · obtain ⟨op', ho', rfl⟩ := Option.map_eq_some_iff.1 ho
    exact h.alive o op' ho'

/-- **Every step keeps the event sources and the objects together.** -/
theorem MirrorInv.step (h : MirrorInv m) {a : IoAct P N W} (hstep : m.step a = some m') :
    MirrorInv m' := by
  rcases step_cases hstep with hi | hi | hi | ⟨ho, hi⟩ | ⟨ho, hready, hphase⟩ | ⟨ho, hphase, hi⟩ |
    ⟨ho, hi⟩ | ⟨ho, hready, hi⟩ | ⟨ho, hphase⟩ | - | -
  · exact h.construct hi (Async.new_cases _ _ _ _)
  · exact h.construct hi (Async.withoutNonblocking_cases _ _ _)
  · obtain ⟨hpanic, hsources⟩ := Async.drop_of_mem (h.mem hi)
    exact h.release hi hpanic hsources
  · refine h.of_ops (h.alive_update (fun op heq ↦ ?_) _)
    obtain rfl := Option.some.inj heq
    exact ⟨_, hi⟩
  · refine h.of_ops (h.alive_update (fun op heq ↦ ?_) _)
    obtain rfl := Option.some.inj heq
    obtain ⟨s, hs⟩ := h.alive _ _ ho
    exact ⟨s, hs⟩
  · exact h.polled hi (Async.polls_pollEvent (h.mem hi) _)
  · exact h.polled hi (Async.polls_waitForEventReady (h.mem hi) true).1
  · exact h.polled hi (Async.polls_waitForEventReady (h.mem hi) false).1
  · exact h.of_ops (h.alive_update (by simp) _)
  · exact h.waited _
  · exact ⟨h.mem_iff, h.injective, h.alive, h.panics⟩

omit [EventPoller P] [EventNotifier N] in
theorem MirrorInv.init (poller : P) (timerQueue : TimerQueue W) (notifier : WithFlag N) :
    MirrorInv (Io.init poller timerQueue notifier) :=
  ⟨fun s ↦ by simp [Io.init], by simp [Io.init], by simp [Io.init], rfl⟩

/-- What holds of the event sources and the `Async` values of a thread at every moment. -/
structure Mirrors (m : Io P N W) : Prop where
  /-- The event sources are the descriptors of the `Async` values that are alive. -/
  mem_iff : ∀ s, s ∈ m.reactor.eventSources ↔ ∃ i, m.asyncs i = some s
  /-- No two of them have the same one. -/
  injective : ∀ i j s, m.asyncs i = some s → m.asyncs j = some s → i = j
  /-- A construction that fails changes no entry. -/
  withoutNonblocking_error : ∀ env s err,
    (Async.withoutNonblocking m.reactor env s).1 = .error err → ∀ t : Source,
      (Async.withoutNonblocking m.reactor env s).2.eventSources[t]? = m.reactor.eventSources[t]?
  new_error : ∀ nonblocking env s err, (Async.new m.reactor nonblocking env s).1 = .error err →
    ∀ t : Source,
      (Async.new m.reactor nonblocking env s).2.eventSources[t]? = m.reactor.eventSources[t]?
  /-- On a descriptor that an `Async` has already, it does fail. -/
  withoutNonblocking_duplicate : ∀ env i s, m.asyncs i = some s →
    ∃ err, (Async.withoutNonblocking m.reactor env s).1 = .error err
  /-- No call has panicked, and none would on an `Async` that is alive. -/
  panics : m.panics = []
  calls : ∀ i s, m.asyncs i = some s → ∀ msg,
    (∀ env, (m.reactor.deregisterEvent env s).1 ≠ .error (.panic msg)) ∧
    (∀ env d w, (m.reactor.enableEvent env s d w).1 ≠ .error (.panic msg)) ∧
    ∀ d, m.reactor.isEventReady s d ≠ .error (.panic msg)

/-- **The event sources of the reactor mirror the `Async` values that are alive**, through any
constructions, drops, polls and waits. -/
theorem mirrors_of_run (poller : P) (timerQueue : TimerQueue W) (notifier : WithFlag N)
    (acts : List (IoAct P N W)) (m : Io P N W)
    (hrun : (machine P N W).run (Io.init poller timerQueue notifier) acts = some m) :
    Mirrors m := by
  have hinv : MirrorInv m :=
    Machine.run_preserves (I := MirrorInv) (fun _ _ _ h hstep ↦ h.step hstep)
      (.init poller timerQueue notifier) hrun
  refine ⟨hinv.mem_iff, hinv.injective, fun env s err herr ↦ ?_,
    fun nonblocking env s err herr ↦ ?_, fun env i s hi ↦ ?_, hinv.panics,
    fun i s hi msg ↦ ⟨fun env ↦ ?_, fun env d w ↦ ?_, fun d ↦ ?_⟩⟩
  · rcases Async.withoutNonblocking_cases m.reactor env s with ⟨-, -, hsame⟩ | ⟨hok, -⟩
    · exact hsame
    · exact absurd herr (by simp [hok])
  · rcases Async.new_cases m.reactor nonblocking env s with ⟨-, -, hsame⟩ | ⟨hok, -⟩
    · exact hsame
    · exact absurd herr (by simp [hok])
  · rcases Async.withoutNonblocking_cases m.reactor env s with ⟨err, herr, -⟩ | ⟨-, hnot, -⟩
    · exact ⟨err, herr⟩
    · exact absurd (hinv.mem hi) hnot
  · rcases m.reactor.deregisterEvent_cases env s with ⟨hnot, -⟩ | ⟨-, hpanic, -⟩
    · exact absurd (hinv.mem hi) hnot
    · exact hpanic msg
  · rcases m.reactor.enableEvent_cases env s d w with ⟨hnot, -⟩ | ⟨-, -, hpanic, -⟩
    · exact absurd (hinv.mem hi) hnot
    · exact hpanic msg
  · obtain ⟨data, hdata⟩ := BTreeMap.mem_iff_exists.1 (hinv.mem hi)
    rw [m.reactor.isEventReady_eq s d hdata]
    simp

/-- A descriptor is wrapped, once more in vain, waited on until it is readable, and given up. -/
def wrapTwice : List (IoAct (PollPoller TimerFd) EventFd ℕ) :=
  [.new 0 5 (.ok ()) (Reactor.readableEnv []), .new 1 5 (.ok ()) (Reactor.readableEnv []),
    .startReady 0 0 .read 7 (Reactor.readableEnv []), .wait ⟨0, Reactor.readableEnv [5], 0, none⟩,
    .pollReady 0 8 (Reactor.readableEnv []), .drop 0 (Reactor.readableEnv [])]

theorem mirrors_of_run_wrapTwice :
    ∃ m, (machine (PollPoller TimerFd) EventFd ℕ).run
        (Io.init ⟨[], 3, ⟨4, TimerFd.itimerspec none⟩⟩ .new (.new ⟨3, 0⟩)) wrapTwice = some m ∧
      (m.ops 0).isNone = true ∧ Mirrors m := by
  obtain ⟨m, hrun, hops⟩ : ∃ m, (machine (PollPoller TimerFd) EventFd ℕ).run
      (Io.init ⟨[], 3, ⟨4, TimerFd.itimerspec none⟩⟩ .new (.new ⟨3, 0⟩)) wrapTwice = some m ∧
        (m.ops 0).isNone = true := ⟨_, rfl, rfl⟩
  exact ⟨m, hrun, hops, mirrors_of_run _ _ _ wrapTwice m hrun⟩

end Mirror

end Io

end LocalRuntime
