import LocalRuntime.Reactor.Basic

/-!
# The Unix poller

`PollPoller` of `src/reactor/unix.rs` with its two notifiers (`EventFd`, `PipeFd`) and its two ways
of waiting for a deadline (`PollTimeout`, `TimerFd`).

The kernel is a parameter of each call. To `poll(2)` it answers with an error or with the returned
events of every descriptor; the return value of the call is then the number of polled descriptors
whose returned events are not empty. The events a descriptor may report are not restricted.

The array handed to `poll(2)` holds the user's sources first and the poller's own descriptors — the
notifier and, for a `TimerFd`, the timer — last. `poll_eq` says what comes back out of it: nothing
if no source is ready, and otherwise **every** ready entry of the array, the poller's own included.
-/

namespace LocalRuntime

variable {P N T W : Type}

/-! ### Poll flags -/

/-- The event mask of `poll(2)`. -/
abbrev PollFlags := BitVec 16

namespace PollFlags

def IN : PollFlags := 0x1#16
def PRI : PollFlags := 0x2#16
def OUT : PollFlags := 0x4#16
def ERR : PollFlags := 0x8#16
def HUP : PollFlags := 0x10#16

/-- No event. -/
def isEmpty (f : PollFlags) : Bool := f == 0#16

/-- Some event in common. -/
def intersects (f g : PollFlags) : Bool := !isEmpty (f &&& g)

end PollFlags

open PollFlags

/-- The events that make a source readable. -/
def readFlags : PollFlags := IN ||| HUP ||| ERR ||| PRI

/-- The events that make a source writable. -/
def writeFlags : PollFlags := OUT ||| HUP ||| ERR

/-- The events to poll for. -/
def Filter.pollflags (f : Filter) : PollFlags :=
  (if f.read then readFlags else 0#16) ||| (if f.write then writeFlags else 0#16)

/-- The directions that returned events stand for. -/
def Filter.ofRevents (revents : PollFlags) : Filter :=
  ⟨intersects revents readFlags, intersects revents writeFlags⟩

theorem isEmpty_pollflags (f : Filter) : f.pollflags.isEmpty = !(f.read || f.write) := by
  rcases f with ⟨- | -, - | -⟩ <;> decide

theorem isEmpty_eq_false_of_intersects {f g : PollFlags} (h : intersects f g = true) :
    f.isEmpty = false := by
  rw [Bool.eq_false_iff]
  intro he
  rw [isEmpty, beq_iff_eq] at he
  rw [he] at h
  simp [intersects, isEmpty] at h

/-! ### Deadlines -/

/-- `Duration::as_millis`. -/
def asMillis (d : Duration) : ℕ := d / 1000000

/-- `Duration::as_secs`. -/
def asSecs (d : Duration) : ℕ := d / 1000000000

/-- `Duration::subsec_nanos`. -/
def subsecNanos (d : Duration) : ℕ := d % 1000000000

/-- `i32::MAX`. -/
def I32_MAX : ℤ := 2 ^ 31 - 1

/-- `i64::MAX`. -/
def I64_MAX : ℤ := 2 ^ 63 - 1

/-- Convert to a signed integer, or saturate: `try_into().unwrap_or(MAX)`. -/
def tryIntoOr (n : ℕ) (max : ℤ) : ℤ := if (n : ℤ) ≤ max then n else max

/-- Method of handling timeouts on the poller. The first argument of `setTimeout` is the error its
system call fails with, if any; the result is the timeout to pass to `poll(2)`. -/
class Timeout (T : Type) where
  setTimeout : Option IoError → T → Option Duration → Except IoError ℤ × T
  maybeFd : T → Option Source
  /-- Only a failing system call makes `setTimeout` fail. -/
  exists_setTimeout_none : ∀ t d, ∃ ms t', setTimeout none t d = (.ok ms, t') ∧
    maybeFd t' = maybeFd t

/-- Use the timeout argument of `poll(2)`. -/
inductive PollTimeout where
  | mk

/-- Round a duration up to milliseconds, or -1 if there is no timeout. -/
def PollTimeout.timeout (duration : Option Duration) : ℤ :=
  (duration.map fun d ↦
    min (tryIntoOr (asMillis d) I32_MAX + if d > 0 then 1 else 0) I32_MAX).getD (-1)

instance : Timeout PollTimeout where
  setTimeout _ t duration := (.ok (PollTimeout.timeout duration), t)
  maybeFd _ := none
  exists_setTimeout_none t _ := ⟨_, t, rfl, rfl⟩

/-- Seconds and nanoseconds. -/
structure Timespec where
  tvSec : ℤ
  tvNsec : ℤ
  deriving DecidableEq

/-- The setting of a timer. -/
structure Itimerspec where
  itInterval : Timespec
  itValue : Timespec
  deriving DecidableEq

/-- Linux timerfd, with the setting it is armed with. -/
structure TimerFd where
  fd : Source
  armed : Itimerspec

/-- The setting for a timeout. A duration of zero is at least one nanosecond, since a setting of
zero disarms the timer. -/
def TimerFd.itimerspec (duration : Option Duration) : Itimerspec where
  itInterval := ⟨0, 0⟩
  itValue :=
    { tvSec := (duration.map fun d ↦ tryIntoOr (asSecs d) I64_MAX).getD 0
      tvNsec := (duration.map fun d ↦ ((max (subsecNanos d) 1 : ℕ) : ℤ)).getD 0 }

instance : Timeout TimerFd where
  setTimeout err t duration :=
    match err with
    | some e => (.error e, t)
    | none => (.ok (-1), { t with armed := TimerFd.itimerspec duration })
  maybeFd t := some t.fd
  exists_setTimeout_none _ _ := ⟨_, _, rfl, rfl⟩

/-! ### Notifiers -/

/-- Linux eventfd: a counter that a write adds to and a read sets to zero. -/
structure EventFd where
  fd : Source
  counter : ℕ

/-- The largest value of an eventfd counter, `u64::MAX - 1`. -/
def EVENTFD_MAX : ℕ := 2 ^ 64 - 2

/-- `EAGAIN`. -/
def wouldBlock : IoError := .errno 11

/-- A read of an eventfd that is at zero would block, which is not an error here; neither is the
state changed by a read or write that fails. -/
instance : EventNotifier EventFd where
  clear err n :=
    match err with
    | some e => (if e = wouldBlock then .ok () else .error e, n)
    | none => (.ok (), { n with counter := 0 })
  notify err n :=
    match err with
    | some e => (.error e, n)
    | none => if n.counter + 1 ≤ EVENTFD_MAX then (.ok (), { n with counter := n.counter + 1 })
      else (.error wouldBlock, n)

/-- Unix pipe, with the number of bytes in it. -/
structure PipeFd where
  read : Source
  write : Source
  bytes : ℕ

/-- The capacity of a pipe. -/
def PIPE_CAPACITY : ℕ := 65536

/-- Reading takes at most eight bytes out of the pipe. -/
instance : EventNotifier PipeFd where
  clear err n :=
    match err with
    | some e => (if e = wouldBlock then .ok () else .error e, n)
    | none => (.ok (), { n with bytes := n.bytes - 8 })
  notify err n :=
    match err with
    | some e => (.error e, n)
    | none => if n.bytes + 1 ≤ PIPE_CAPACITY then (.ok (), { n with bytes := n.bytes + 1 })
      else (.error wouldBlock, n)

/-- A notifier behind a descriptor that can be polled. -/
class NotifierFd (N : Type) extends EventNotifier N where
  /-- There is something to read from the descriptor. -/
  readable : N → Bool
  /-- A write that the kernel does not refuse leaves something to read. If the descriptor is full it
  is readable already. -/
  readable_notify : ∀ n, readable (notify none n).2 = true

instance : NotifierFd EventFd where
  readable n := decide (0 < n.counter)
  readable_notify n := by
    simp only [EventNotifier.notify]
    split
    · exact decide_eq_true (Nat.succ_pos n.counter)
    next hfull =>
      have hpos : 0 < EVENTFD_MAX := by decide
      exact decide_eq_true (show 0 < n.counter by omega)

instance : NotifierFd PipeFd where
  readable n := decide (0 < n.bytes)
  readable_notify n := by
    simp only [EventNotifier.notify]
    split
    · exact decide_eq_true (Nat.succ_pos n.bytes)
    next hfull =>
      have hpos : 0 < PIPE_CAPACITY := by decide
      exact decide_eq_true (show 0 < n.bytes by omega)

/-! ### The poller -/

/-- An entry of the array handed to `poll(2)`. -/
structure PollFd where
  fd : Source
  events : PollFlags
  revents : PollFlags

/-- The poller. Of the notifier it only uses the descriptor. -/
structure PollPoller (T : Type) where
  pollfds : List PollFd
  notifierFd : Source
  timeout : T

/-- The kernel's answers during one call: the error of setting the timer, if any, and the error or
the returned events of `poll(2)`. -/
structure PollEnv where
  settime : Option IoError
  answer : Except IoError (Source → PollFlags)

/-- `poll(2)`: fill in the returned events and count the entries that have some. -/
def sysPoll (answer : Except IoError (Source → PollFlags)) (pollfds : List PollFd) :
    Except IoError (ℕ × List PollFd) :=
  answer.map fun revents ↦
    let polled := pollfds.map fun pfd ↦ { pfd with revents := revents pfd.fd }
    (polled.countP fun pfd ↦ !pfd.revents.isEmpty, polled)

namespace PollPoller

/-- The entries of the event sources that are asked for something. -/
def eventFds (eventSources : List (Source × Filter)) : List PollFd :=
  eventSources.filterMap fun entry ↦
    if entry.2.pollflags.isEmpty then none else some ⟨entry.1, entry.2.pollflags, 0#16⟩

/-- What is yielded for an entry. -/
def yielded (pfd : PollFd) : Source × Filter := (pfd.fd, .ofRevents pfd.revents)

/-- What is yielded for the ready entries of an array. -/
def yieldReady (pollfds : List PollFd) : List (Source × Filter) :=
  (pollfds.filter fun pfd ↦ !pfd.revents.isEmpty).map yielded

/-- The `match` on the return value of `poll(2)`, for an array whose first `eventLen` entries are
the event sources: nothing on a timeout; nothing if the one or two ready entries are the poller's
own; otherwise every ready entry. -/
def collect (n eventLen : ℕ) (polled : List PollFd) : Option (List (Source × Filter)) :=
  if n = 0 then none
  else if (n = 1 ∨ n = 2) ∧
      ((polled.drop eventLen).filter fun pfd ↦ !pfd.revents.isEmpty).length = n then none
  else some (yieldReady polled)

variable [Timeout T]

/-- The poller's own entries: the notifier and, if there is one, the timer. -/
def ownFds (notifierFd : Source) (timeout : T) : List PollFd :=
  ⟨notifierFd, readFlags, 0#16⟩ ::
    (Timeout.maybeFd timeout).toList.map fun fd ↦ ⟨fd, readFlags, 0#16⟩

/-- `PollPoller::poll`. -/
def poll (env : PollEnv) (p : PollPoller T) (timeout : Option Duration)
    (eventSources : List (Source × Filter)) :
    Except IoError (Option (List (Source × Filter))) × PollPoller T :=
  match Timeout.setTimeout env.settime p.timeout timeout with
  | (.error err, t) => (.error err, { p with pollfds := [], timeout := t })
  | (.ok _pollTimeout, t) =>
    let events := eventFds eventSources
    let pollfds := events ++ ownFds p.notifierFd t
    match sysPoll env.answer pollfds with
    | .error err => (.error err, { p with pollfds, timeout := t })
    | .ok (n, polled) =>
      (.ok (collect n events.length polled), { p with pollfds := polled, timeout := t })

end PollPoller

/-- Registration is a no-op for `poll(2)`. -/
instance [Timeout T] : EventPoller (PollPoller T) where
  Env := PollEnv
  register _ p _ := (.ok (), p)
  modify _ p _ _ := (.ok (), p)
  deregister _ p _ := (.ok (), p)
  poll := PollPoller.poll

/-! ### What one call yields -/

namespace PollPoller

/-- An array with the returned events filled in. -/
def fill (revents : Source → PollFlags) (pollfds : List PollFd) : List PollFd :=
  pollfds.map fun pfd ↦ { pfd with revents := revents pfd.fd }

theorem yieldReady_append (l₁ l₂ : List PollFd) :
    yieldReady (l₁ ++ l₂) = yieldReady l₁ ++ yieldReady l₂ := by
  rw [yieldReady, List.filter_append, List.map_append]
  rfl

theorem length_yieldReady (l : List PollFd) :
    (yieldReady l).length = (l.filter fun pfd ↦ !pfd.revents.isEmpty).length :=
  List.length_map _

/-- **The shortcut, exactly.** With at most two entries of the poller's own, nothing is yielded if
no event source is ready; if one is, every ready entry is yielded, the poller's own included. -/
theorem collect_append {events own : List PollFd} (hown : own.length ≤ 2) :
    collect ((events ++ own).countP fun pfd ↦ !pfd.revents.isEmpty) events.length (events ++ own) =
      if yieldReady events = [] then none else some (yieldReady events ++ yieldReady own) := by
  have hcount : ((events ++ own).countP fun pfd ↦ !pfd.revents.isEmpty) =
      (yieldReady events).length + (yieldReady own).length := by
    rw [List.countP_append, List.countP_eq_length_filter, List.countP_eq_length_filter,
      length_yieldReady, length_yieldReady]
  have hle : (yieldReady own).length ≤ 2 := by
    rw [length_yieldReady]
    exact (List.length_filter_le _ _).trans hown
  rw [collect, hcount, List.drop_left, ← length_yieldReady, yieldReady_append]
  by_cases hS : yieldReady events = []
  · rw [if_pos hS, hS, List.length_nil, Nat.zero_add]
    split
    · rfl
    next h0 => rw [if_pos ⟨by omega, rfl⟩]
  · have hpos : 0 < (yieldReady events).length := List.length_pos_iff.2 hS
    rw [if_neg hS, if_neg (by omega), if_neg (by omega)]

variable [Timeout T]

theorem length_ownFds_le (notifierFd : Source) (timeout : T) :
    (ownFds notifierFd timeout).length ≤ 2 := by
  rcases h : Timeout.maybeFd timeout with - | fd <;> simp [ownFds, h]

/-- What a call yields, for the returned events: nothing if no event source is ready, and otherwise
every ready entry. -/
def yields (revents : Source → PollFlags) (srcs : List (Source × Filter)) (p : PollPoller T) :
    Option (List (Source × Filter)) :=
  if yieldReady (fill revents (eventFds srcs)) = [] then none
  else some (yieldReady (fill revents (eventFds srcs)) ++
    yieldReady (fill revents (ownFds p.notifierFd p.timeout)))

/-- **What a call yields** when the kernel answers. -/
theorem poll_eq {env : PollEnv} {revents : Source → PollFlags} (hset : env.settime = none)
    (hans : env.answer = .ok revents) (p : PollPoller T) (timeout : Option Duration)
    (srcs : List (Source × Filter)) :
    (poll env p timeout srcs).1 = .ok (yields revents srcs p) := by
  obtain ⟨ms, t, ht, hfd⟩ := Timeout.exists_setTimeout_none p.timeout timeout
  have hown : ownFds p.notifierFd t = ownFds p.notifierFd p.timeout := by rw [ownFds, hfd]; rfl
  rw [yields, ← hown]
  have hle : (fill revents (ownFds p.notifierFd t)).length ≤ 2 := by
    rw [fill, List.length_map]
    exact length_ownFds_le _ _
  rw [← collect_append hle]
  simp only [poll, hset, ht, hans, sysPoll, Except.map, fill, List.map_append, List.length_map]

omit [Timeout T] in
/-- What is yielded for an array: the descriptors in it with returned events, each with its own. -/
theorem mem_yieldReady_fill {revents : Source → PollFlags} {pollfds : List PollFd} {s : Source}
    {f : Filter} :
    (s, f) ∈ yieldReady (fill revents pollfds) ↔
      (∃ pfd ∈ pollfds, pfd.fd = s) ∧ (revents s).isEmpty = false ∧
        f = .ofRevents (revents s) := by
  constructor
  · intro h
    obtain ⟨filled, hfilled, heq⟩ := List.mem_map.1 h
    obtain ⟨hmem, hready⟩ := List.mem_filter.1 hfilled
    obtain ⟨pfd, hpfd, rfl⟩ := List.mem_map.1 hmem
    obtain ⟨rfl, rfl⟩ := Prod.mk.inj heq
    exact ⟨⟨pfd, hpfd, rfl⟩, by simpa using hready, rfl⟩
  · rintro ⟨⟨pfd, hpfd, rfl⟩, hready, rfl⟩
    refine List.mem_map.2 ⟨{ pfd with revents := revents pfd.fd }, ?_, rfl⟩
    exact List.mem_filter.2 ⟨List.mem_map_of_mem hpfd, by simp [hready]⟩

omit [Timeout T] in
/-- The event sources in the array are those that are asked for something. -/
theorem exists_mem_eventFds {srcs : List (Source × Filter)} {s : Source} :
    (∃ pfd ∈ eventFds srcs, pfd.fd = s) ↔ ∃ g, (s, g) ∈ srcs ∧ g.pollflags.isEmpty = false := by
  constructor
  · rintro ⟨pfd, hpfd, rfl⟩
    obtain ⟨⟨s, g⟩, hg, hsome⟩ := List.mem_filterMap.1 hpfd
    simp only at hsome
    split at hsome
    · cases hsome
    next hne =>
      cases hsome
      exact ⟨g, hg, Bool.eq_false_iff.2 hne⟩
  · rintro ⟨g, hg, hne⟩
    exact ⟨⟨s, g.pollflags, 0#16⟩, List.mem_filterMap.2 ⟨(s, g), hg, by simp [hne]⟩, rfl⟩

theorem exists_mem_ownFds {notifierFd : Source} {timeout : T} {s : Source} :
    (∃ pfd ∈ ownFds notifierFd timeout, pfd.fd = s) ↔
      s = notifierFd ∨ Timeout.maybeFd timeout = some s := by
  rcases h : Timeout.maybeFd timeout with - | fd <;> simp [ownFds, h, eq_comm]

omit [Timeout T] in
/-- Distinct sources are yielded at most once. -/
theorem nodup_yieldReady_eventFds {revents : Source → PollFlags} {srcs : List (Source × Filter)}
    (h : (srcs.map Prod.fst).Nodup) :
    ((yieldReady (fill revents (eventFds srcs))).map Prod.fst).Nodup := by
  have hfds : ((eventFds srcs).map PollFd.fd).Sublist (srcs.map Prod.fst) := by
    clear h
    induction srcs with
    | nil => exact List.Sublist.slnil
    | cons entry srcs ih =>
      simp only [eventFds, List.filterMap_cons, List.map_cons]
      split
      next => exact ih.cons _
      next pfd hsome =>
        split at hsome
        · cases hsome
        · cases hsome
          exact ih.cons_cons _
  refine (h.sublist hfds).sublist ?_
  rw [yieldReady, List.map_map, fill, List.filter_map, List.map_map]
  exact List.filter_sublist.map _

end PollPoller

end LocalRuntime
