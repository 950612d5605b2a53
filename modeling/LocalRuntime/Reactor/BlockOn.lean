import LocalRuntime.Lib.Machine
import LocalRuntime.Reactor.Wait

/-!
# Blocking on a future

The loop of `block_on` against any number of threads that call `WithFlag::notify`, cut at every
access to the flag and to the notifier's descriptor.

`Reactor.wait` is atomic; here it is a sequence of steps (compute the timeout, read the flag, enter
the kernel, return from it, set the flag, deliver, expire, clear the descriptor, clear the flag),
and a notification can come between any two of them. `run_wait` connects the two: the steps of the
loop, with nothing in between, compute what `Reactor.wait` computes.

A call of `notify` is two steps: it claims the flag, and if it got it, writes to the descriptor
later. The number of calls between the two is `writers`. The write itself is taken to reach the
descriptor; reading it when it is cleared may fail in any way.

The future may use the reactor while it is polled, which is an arbitrary change of event sources,
timers and poller, and may call `block_on` itself, which stacks the enclosing call on `outer`.

The wakers that `deliver` and `clearExpired` invoke are only recorded. When one of them is the
notifier's own, what it does is a call of `notify` like any other: the step `notify` is enabled in
every state, so that the runs in which it comes right after are among the runs of the machine.

## The protocol

The future was polled with the flag clear, or the flag has been set for a reason that still holds.
From the start of a poll to the reading of the flag nobody clears it, so a notification in that time
is seen there; from that reading on nobody clears the descriptor until the kernel returns, so the
first notification in that time has a writer on its way or has left something to read.
-/

namespace LocalRuntime

namespace BlockOn

variable {P N W : Type}

/-- Where the loop is. -/
inductive Pc where
  /-- At the head of the loop, or outside of any call. -/
  | top
  /-- In the poll of the future. -/
  | polling
  /-- In `wait`, about to compute the timeout. -/
  | timeout
  /-- About to test the timeout and to read the flag. -/
  | check (timeout : Option Duration)
  /-- Past the test, about to enter the kernel. -/
  | enter (timeout : Option Duration)
  /-- In the blocking call. -/
  | blocked (timeout : Option Duration)
  /-- Back from the kernel, about to set the flag. -/
  | returned (revents : List (Source × Filter))
  /-- In the loop over the reported events. -/
  | delivering (revents : List (Source × Filter))
  /-- About to clear the expired timers. -/
  | expire
  /-- About to clear the notifier's descriptor. -/
  | clear
  /-- About to clear the flag. -/
  | store
  /-- The `unwrap` in the loop over the reported events failed. -/
  | panicked
  deriving DecidableEq

/-- The reactor of the thread, its loop and the threads that notify it. -/
structure State (P N W : Type) where
  reactor : Reactor P N W
  pc : Pc
  /-- Calls of `notify` that have claimed the flag and not written yet. -/
  writers : ℕ
  /-- A call of `notify` has started since the latest poll of the future began. -/
  woken : Bool
  /-- The same for the enclosing calls of `block_on`, innermost first. -/
  outer : List Bool
  /-- The wakers invoked since `wait` was called. -/
  invoked : List W

variable [EventPoller P]

/-- One step of the loop or of a notifying thread. -/
inductive Act (P W : Type) [EventPoller P] where
  | beginPoll
  /-- The future changes event sources, timers and poller. -/
  | use (poller : P) (sources : EventSources W) (timers : TimerQueue W)
  /-- The future calls `block_on`. -/
  | nest
  | ready
  | pending
  | nextTimeout (now : Instant)
  | isNotified
  | enterPoll
  /-- The kernel returns with an answer. -/
  | leavePoll (env : EventPoller.Env P)
  | setToNotified
  | deliver
  | clearExpired (now : Instant)
  /-- Clear the descriptor, with the error of reading it if any. -/
  | clearInner (err : Option IoError)
  | storeFalse
  /-- A call of `notify` starts with its compare-exchange. -/
  | notify
  /-- A call of `notify` writes to the descriptor. -/
  | write

variable [EventNotifier N]

namespace State

/-- The step of an action. -/
def step (s : State P N W) : Act P W → Option (State P N W)
  | .beginPoll =>
    if s.pc = .top then some { s with pc := .polling, woken := false } else none
  | .use poller eventSources timerQueue =>
    if s.pc = .polling ∨ s.pc = .top then
      some { s with reactor := { s.reactor with poller, eventSources, timerQueue } }
    else none
  | .nest =>
    if s.pc = .polling then some { s with pc := .top, outer := s.woken :: s.outer } else none
  | .ready =>
    if s.pc = .polling then
      match s.outer with
      | [] => some { s with pc := .top }
      | woken :: outer => some { s with woken, outer }
    else none
  | .pending =>
    if s.pc = .polling then some { s with pc := .timeout, invoked := [] } else none
  | .nextTimeout now =>
    if s.pc = .timeout then some { s with pc := .check (s.reactor.timerQueue.nextTimeout now) }
    else none
  | .isNotified =>
    match s.pc with
    | .check timeout =>
      if timeout == some 0 || s.reactor.notifier.isNotified then some { s with pc := .expire }
      else some { s with pc := .enter timeout }
    | _ => none
  | .enterPoll =>
    match s.pc with
    | .enter timeout => some { s with pc := .blocked timeout }
    | _ => none
  | .leavePoll env =>
    match s.pc with
    | .blocked timeout =>
      match EventPoller.poll env s.reactor.poller timeout s.reactor.filters with
      | (.error _, poller) => some { s with pc := .top, reactor := { s.reactor with poller } }
      | (.ok revents, poller) =>
        some { s with pc := .returned (revents.getD []), reactor := { s.reactor with poller } }
    | _ => none
  | .setToNotified =>
    match s.pc with
    | .returned revents => some { s with
        pc := .delivering revents
        reactor := { s.reactor with notifier := s.reactor.notifier.setToNotified } }
    | _ => none
  | .deliver =>
    match s.pc with
    | .delivering [] => some { s with pc := .expire }
    | .delivering ((source, filter) :: revents) =>
      match s.reactor.eventSources[source]? with
      | none => some { s with pc := .panicked }
      | some data =>
        let res := data.report filter
        some { s with
          pc := .delivering revents
          reactor := { s.reactor with eventSources := s.reactor.eventSources.insert source res.2 }
          invoked := s.invoked ++ res.1 }
    | _ => none
  | .clearExpired now =>
    if s.pc = .expire then
      let res := s.reactor.timerQueue.clearExpired now
      some { s with
        pc := .clear
        reactor := { s.reactor with timerQueue := res.2 }
        invoked := s.invoked ++ res.1 }
    else none
  | .clearInner err =>
    if s.pc = .clear then some { s with
      pc := .store
      reactor := { s.reactor with notifier := (s.reactor.notifier.clearInner err).2 } }
    else none
  | .storeFalse =>
    if s.pc = .store then some { s with
      pc := .top
      reactor := { s.reactor with notifier := s.reactor.notifier.storeFalse } }
    else none
  | .notify =>
    some { s with
      woken := true
      outer := s.outer.map fun _ ↦ true
      writers := if s.reactor.notifier.isNotified then s.writers else s.writers + 1
      reactor := { s.reactor with notifier := s.reactor.notifier.setToNotified } }
  | .write =>
    if 0 < s.writers then some { s with
      writers := s.writers - 1
      reactor := { s.reactor with notifier := (s.reactor.notifier.notifyInner none).2 } }
    else none

end State

/-- The machine of `block_on`. -/
def machine (P N W : Type) [EventPoller P] [EventNotifier N] : Machine (State P N W) (Act P W) :=
  ⟨State.step⟩

/-! ### The steps of `wait` -/

/-- A step that the loop takes by itself, outside the poll of the future. -/
def Act.isLoop : Act P W → Bool
  | .beginPoll | .nextTimeout _ | .isNotified | .enterPoll | .leavePoll _ | .setToNotified
  | .deliver | .clearExpired _ | .clearInner _ | .storeFalse => true
  | _ => false

/-- The loop can go from one state to the other, with no other thread in between. -/
def LoopRun (s t : State P N W) : Prop :=
  ∃ as : List (Act P W), (∀ a ∈ as, a.isLoop = true) ∧ (machine P N W).run s as = some t

namespace LoopRun

variable {s t u : State P N W}

theorem refl (s : State P N W) : LoopRun s s := ⟨[], by simp, rfl⟩

theorem head {a : Act P W} (ha : a.isLoop = true) (hs : s.step a = some t) (h : LoopRun t u) :
    LoopRun s u := by
  obtain ⟨as, has, hrun⟩ := h
  refine ⟨a :: as, List.forall_mem_cons.2 ⟨ha, has⟩, ?_⟩
  exact ((machine P N W).run_cons_eq_some).2 ⟨t, hs, hrun⟩

theorem trans (h : LoopRun s t) (h' : LoopRun t u) : LoopRun s u := by
  obtain ⟨as, has, hrun⟩ := h
  obtain ⟨bs, hbs, hrun'⟩ := h'
  refine ⟨as ++ bs, List.forall_mem_append.2 ⟨has, hbs⟩, ?_⟩
  rw [Machine.run_append, hrun]
  exact hrun'

/-- The loop over the reported events, step by step. -/
theorem deliver {l : List (Source × Filter)} (hpc : s.pc = .delivering l) :
    LoopRun s { s with
      pc := match (Reactor.deliver l s.reactor.eventSources).1 with
        | .ok () => .expire
        | .error _ => .panicked
      reactor := { s.reactor with
        eventSources := (Reactor.deliver l s.reactor.eventSources).2.2 }
      invoked := s.invoked ++ (Reactor.deliver l s.reactor.eventSources).2.1 } := by
  induction l generalizing s with
  | nil =>
    refine head (a := .deliver) rfl ?_ (refl _)
    simp [State.step, hpc, Reactor.deliver]
  | cons p l ih =>
    obtain ⟨source, filter⟩ := p
    rcases hsrc : s.reactor.eventSources[source]? with - | data
    · refine head (a := .deliver) rfl ?_ (refl _)
      simp [State.step, hpc, Reactor.deliver, hsrc]
    · obtain ⟨t, ht⟩ : ∃ t, t = { s with
          pc := .delivering l
          reactor := { s.reactor with
            eventSources := s.reactor.eventSources.insert source (data.report filter).2 }
          invoked := s.invoked ++ (data.report filter).1 } := ⟨_, rfl⟩
      have hstep : s.step .deliver = some t := by simp only [State.step, hpc, hsrc, ht]
      have hrest := ih (s := t) (by rw [ht])
      subst ht
      refine head rfl hstep ?_
      simpa only [Reactor.deliver, hsrc, List.append_assoc] using hrest

/-- The end of `wait`, step by step. -/
theorem cleanUp (hpc : s.pc = .expire) (env : WaitEnv P) (ioWoken : List W) :
    LoopRun s { s with
      pc := .top
      reactor := (s.reactor.cleanUp env ioWoken).reactor
      invoked := s.invoked ++ (s.reactor.cleanUp env ioWoken).timersWoken } := by
  refine head (a := .clearExpired env.after) rfl (by rw [State.step, if_pos hpc]) ?_
  refine head (a := .clearInner env.clear) rfl (by rw [State.step, if_pos rfl]) ?_
  refine head (a := .storeFalse) rfl (by rw [State.step, if_pos rfl]) ?_
  exact refl _

end LoopRun

/-- **The steps of the loop compute `wait`**: with no other thread in between, they leave the
reactor and invoke the wakers that `Reactor.wait` does, and go back to the head of the loop unless
`wait` panics. -/
theorem run_wait (s : State P N W) (env : WaitEnv P) (hpc : s.pc = .timeout) :
    LoopRun s { s with
      pc := match (s.reactor.wait env).result with
        | .error (.panic _) => .panicked
        | _ => .top
      reactor := (s.reactor.wait env).reactor
      invoked := s.invoked ++ (s.reactor.wait env).ioWoken ++
        (s.reactor.wait env).timersWoken } := by
  refine LoopRun.head (a := .nextTimeout env.now) rfl (by rw [State.step, if_pos hpc]) ?_
  by_cases hskip : s.reactor.skipsPoll env.now = true
  · refine LoopRun.head (a := .isNotified) rfl (if_pos hskip) ?_
    rw [Reactor.wait, if_pos hskip]
    simpa [Reactor.cleanUp] using LoopRun.cleanUp (s := { s with pc := .expire }) rfl env []
  · refine LoopRun.head (a := .isNotified) rfl (if_neg hskip) ?_
    refine LoopRun.head (a := .enterPoll) rfl rfl ?_
    rw [Reactor.wait, if_neg hskip, Reactor.waitPolling]
    rcases hpoll : EventPoller.poll env.poll s.reactor.poller
      (s.reactor.timerQueue.nextTimeout env.now) s.reactor.filters with ⟨err | revents, poller⟩
    · refine LoopRun.head (a := .leavePoll env.poll) rfl (by simp only [State.step, hpoll]; rfl) ?_
      simpa using LoopRun.refl _
    · refine LoopRun.head (a := .leavePoll env.poll) rfl (by simp only [State.step, hpoll]; rfl) ?_
      refine LoopRun.head (a := .setToNotified) rfl rfl ?_
      refine (LoopRun.deliver rfl).trans ?_
      rcases hdel : Reactor.deliver (revents.getD []) s.reactor.eventSources
        with ⟨fault | ⟨⟨⟩⟩, woken, sources⟩
      · obtain ⟨msg, rfl⟩ := Reactor.deliver_eq_error (congrArg Prod.fst hdel)
        simpa [hdel] using LoopRun.refl _
      · simpa [hdel, Reactor.cleanUp] using LoopRun.cleanUp (s := { s with
          pc := .expire
          reactor := ⟨poller, sources, s.reactor.timerQueue, s.reactor.notifier.setToNotified⟩
          invoked := s.invoked ++ woken }) rfl env woken

/-! ### The flag and the descriptor -/

/-- From the start of a poll until the kernel returns, nobody clears the flag. -/
def Pc.keepsFlag : Pc → Bool
  | .polling | .timeout | .check _ | .enter _ | .blocked _ => true
  | _ => false

/-- The flag has been found clear and the kernel has not returned. -/
def Pc.asleep : Pc → Bool
  | .enter _ | .blocked _ => true
  | _ => false

/-- What a step does to the flag, the descriptor and the calls that have been woken. Most steps
leave them alone and do not come nearer to the kernel than they were. -/
inductive NotifyStep (s : State P N W) : Act P W → State P N W → Prop where
  | same {a : Act P W} {t : State P N W}
      (hkeeps : t.pc.keepsFlag = true → s.pc.keepsFlag = true)
      (hasleep : t.pc.asleep = true → s.pc.asleep = true)
      (hnotifier : t.reactor.notifier = s.reactor.notifier) (hwriters : t.writers = s.writers)
      (hwoken : t.woken = s.woken) (houter : t.outer = s.outer) : NotifyStep s a t
  | beginPoll : NotifyStep s .beginPoll { s with pc := .polling, woken := false }
  | nest (hpc : s.pc = .polling) :
      NotifyStep s .nest { s with pc := .top, outer := s.woken :: s.outer }
  | ready {woken : Bool} {outer : List Bool} (hpc : s.pc = .polling)
      (houter : s.outer = woken :: outer) : NotifyStep s .ready { s with woken, outer }
  | pass {timeout : Option Duration} (hpc : s.pc = .check timeout)
      (hflag : s.reactor.notifier.isNotified = false) :
      NotifyStep s .isNotified { s with pc := .enter timeout }
  | setToNotified {revents : List (Source × Filter)} : NotifyStep s .setToNotified { s with
      pc := .delivering revents
      reactor := { s.reactor with notifier := s.reactor.notifier.setToNotified } }
  | clearInner {err : Option IoError} : NotifyStep s (.clearInner err) { s with
      pc := .store
      reactor := { s.reactor with notifier := (s.reactor.notifier.clearInner err).2 } }
  | storeFalse : NotifyStep s .storeFalse { s with
      pc := .top
      reactor := { s.reactor with notifier := s.reactor.notifier.storeFalse } }
  | notify : NotifyStep s .notify { s with
      woken := true
      outer := s.outer.map fun _ ↦ true
      writers := if s.reactor.notifier.isNotified then s.writers else s.writers + 1
      reactor := { s.reactor with notifier := s.reactor.notifier.setToNotified } }
  | write : NotifyStep s .write { s with
      writers := s.writers - 1
      reactor := { s.reactor with notifier := (s.reactor.notifier.notifyInner none).2 } }

theorem Pc.asleep_eq_false {pc : Pc} (h : pc.keepsFlag = false) : pc.asleep = false := by
  rcases pc with - | - | - | d | d | d | l | l | - | - | - | -
  case enter | blocked => exact absurd h (by simp [keepsFlag])
  all_goals rfl

/-- A step to where nobody waits for a notification. -/
theorem NotifyStep.of_not_keepsFlag {s t : State P N W} {a : Act P W} (hpc : t.pc.keepsFlag = false)
    (hnotifier : t.reactor.notifier = s.reactor.notifier) (hwriters : t.writers = s.writers)
    (hwoken : t.woken = s.woken) (houter : t.outer = s.outer) : NotifyStep s a t :=
  .same (fun h ↦ absurd h (by simp [hpc])) (fun h ↦ absurd h (by simp [Pc.asleep_eq_false hpc]))
    hnotifier hwriters hwoken houter

theorem notifyStep_of_step {s t : State P N W} {a : Act P W} (hs : s.step a = some t) :
    NotifyStep s a t := by
  rcases a with - | ⟨p, srcs, tq⟩ | - | - | - | now | - | - | env | - | - | now | err | - | - | -
  all_goals simp only [State.step, Option.ite_none_right_eq_some, Option.some.injEq] at hs
  case beginPoll =>
    obtain ⟨-, rfl⟩ := hs
    exact .beginPoll
  case use =>
    obtain ⟨-, rfl⟩ := hs
    exact .same id id rfl rfl rfl rfl
  case nest =>
    obtain ⟨hpc, rfl⟩ := hs
    exact .nest hpc
  case ready =>
    obtain ⟨hpc, hs⟩ := hs
    split at hs
    next =>
      obtain rfl := Option.some.inj hs
      exact .of_not_keepsFlag rfl rfl rfl rfl rfl
    next houter =>
      obtain rfl := Option.some.inj hs
      exact .ready hpc houter
  case pending | nextTimeout =>
    obtain ⟨hpc, rfl⟩ := hs
    exact .same (fun _ ↦ by simp [hpc, Pc.keepsFlag])
      (fun h ↦ absurd h (by simp [Pc.asleep])) rfl rfl rfl rfl
  case isNotified =>
    split at hs
    next timeout hpc =>
      split at hs
      next =>
        obtain rfl := Option.some.inj hs
        exact .of_not_keepsFlag rfl rfl rfl rfl rfl
      next hflag =>
        obtain rfl := Option.some.inj hs
        simp only [Bool.or_eq_true, not_or, Bool.not_eq_true] at hflag
        exact .pass hpc hflag.2
    · exact absurd hs (by simp)
  case enterPoll =>
    split at hs
    next timeout hpc =>
      obtain rfl := Option.some.inj hs
      exact .same (fun _ ↦ by simp [hpc, Pc.keepsFlag])
        (fun _ ↦ by simp [hpc, Pc.asleep]) rfl rfl rfl rfl
    · exact absurd hs (by simp)
  case leavePoll =>
    split at hs
    · split at hs
      · obtain rfl := Option.some.inj hs
        exact .of_not_keepsFlag rfl rfl rfl rfl rfl
      · obtain rfl := Option.some.inj hs
        exact .of_not_keepsFlag rfl rfl rfl rfl rfl
    · exact absurd hs (by simp)
  case setToNotified =>
    split at hs
    · obtain rfl := Option.some.inj hs
      exact .setToNotified
    · exact absurd hs (by simp)
  case deliver =>
    split at hs
    · obtain rfl := Option.some.inj hs
      exact .of_not_keepsFlag rfl rfl rfl rfl rfl
    · split at hs
      · obtain rfl := Option.some.inj hs
        exact .of_not_keepsFlag rfl rfl rfl rfl rfl
      · obtain rfl := Option.some.inj hs
        exact .of_not_keepsFlag rfl rfl rfl rfl rfl
    · exact absurd hs (by simp)
  case clearExpired =>
    obtain ⟨-, rfl⟩ := hs
    exact .of_not_keepsFlag rfl rfl rfl rfl rfl
  case clearInner =>
    obtain ⟨-, rfl⟩ := hs
    exact .clearInner
  case storeFalse =>
    obtain ⟨-, rfl⟩ := hs
    exact .storeFalse
  case notify =>
    subst hs
    exact .notify
  case write =>
    obtain ⟨-, rfl⟩ := hs
    exact .write

/-- The protocol of the flag and the descriptor, for a call that is not nested. -/
structure NotifyInv {P N W : Type} [NotifierFd N] (s : State P N W) : Prop where
  /-- A notification since the poll began is in the flag. -/
  flag_of_woken : s.pc.keepsFlag = true → s.woken = true → s.reactor.notifier.isNotified = true
  /-- A flag that was set after it was read has a descriptor that is readable or will be. -/
  fd_of_flag : s.pc.asleep = true → s.reactor.notifier.isNotified = true →
    NotifierFd.readable s.reactor.notifier.inner = true ∨ 0 < s.writers
  /-- The call is not nested. -/
  outer_eq_nil : s.outer = []

namespace NotifyInv

variable {P N W : Type} [EventPoller P] [NotifierFd N] {s t : State P N W}

omit [EventPoller P] in
/-- Where nobody waits for a notification there is nothing to show. -/
theorem of_not_keepsFlag (hpc : t.pc.keepsFlag = false) (houter : t.outer = []) :
    NotifyInv t := by
  refine ⟨fun h ↦ ?_, fun h ↦ ?_, houter⟩
  · exact absurd h (by simp [hpc])
  · exact absurd h (by simp [Pc.asleep_eq_false hpc])

/-- **One step keeps the protocol**, unless it nests a call. -/
theorem step {a : Act P W} (h : NotifyInv s) (ha : a ≠ .nest) (hs : s.step a = some t) :
    NotifyInv t := by
  have houter := h.outer_eq_nil
  rcases notifyStep_of_step hs with ⟨hkeeps, hasleep, hnotifier, hwriters, hwoken, heq⟩ | - | - |
    ⟨-, hcons⟩ | ⟨hpc, hflag⟩ | - | - | - | - | -
  case same =>
    refine ⟨fun hpc hw ↦ ?_, fun hpc hf ↦ ?_, heq.trans houter⟩
    · exact hnotifier ▸ h.flag_of_woken (hkeeps hpc) (hwoken ▸ hw)
    · rw [hnotifier, hwriters]
      exact h.fd_of_flag (hasleep hpc) (hnotifier ▸ hf)
  case beginPoll =>
    exact ⟨fun _ hw ↦ absurd hw (by simp), fun hpc ↦ absurd hpc (by simp [Pc.asleep]), houter⟩
  case nest => exact absurd rfl ha
  case ready => exact absurd (houter.symm.trans hcons) (by simp)
  case pass =>
    -- the flag is clear, so there was no notification since the poll began
    refine ⟨fun _ ↦ h.flag_of_woken (by simp [hpc, Pc.keepsFlag]), fun _ hf ↦ ?_, houter⟩
    exact absurd hf (by simp [hflag])
  case setToNotified | clearInner | storeFalse => exact of_not_keepsFlag rfl houter
  case notify =>
    refine ⟨fun _ _ ↦ rfl, fun hpc _ ↦ ?_, by simp [houter]⟩
    -- either this call has claimed the flag, or an earlier one has
    by_cases hflag : s.reactor.notifier.isNotified = true
    · rw [if_pos hflag]
      exact h.fd_of_flag hpc hflag
    · exact Or.inr (by simp [hflag])
  case write =>
    refine ⟨fun hpc hw ↦ h.flag_of_woken hpc hw, fun _ _ ↦ Or.inl ?_, houter⟩
    exact NotifierFd.readable_notify _

end NotifyInv

/-! ### The way back to the future -/

/-- How far the loop is from the next poll of the future: the part of `wait` that is left, and the
events left to deliver. -/
def Pc.rank : Pc → ℕ ×ₗ ℕ
  | .polling => toLex (11, 0)
  | .timeout => toLex (10, 0)
  | .check _ => toLex (9, 0)
  | .enter _ => toLex (8, 0)
  | .blocked _ => toLex (7, 0)
  | .returned _ => toLex (6, 0)
  | .delivering revents => toLex (5, revents.length)
  | .expire => toLex (4, 0)
  | .clear => toLex (3, 0)
  | .store => toLex (2, 0)
  | .top => toLex (1, 0)
  | .panicked => toLex (0, 0)

/-- **The loop does not turn without polling the future**: each of its steps begins a poll or comes
closer to the next one. -/
theorem rank_lt_of_isLoop {s t : State P N W} {a : Act P W} (ha : a.isLoop = true)
    (hs : s.step a = some t) : a = .beginPoll ∨ t.pc.rank < s.pc.rank := by
  rcases a with - | ⟨p, srcs, tq⟩ | - | - | - | now | - | - | env | - | - | now | err | - | - | -
  all_goals simp only [State.step, Option.ite_none_right_eq_some, Option.some.injEq] at hs
  case beginPoll => exact Or.inl rfl
  case use | nest | ready | pending | notify | write => exact absurd ha (by simp [Act.isLoop])
  case nextTimeout | clearExpired | clearInner | storeFalse =>
    obtain ⟨hpc, rfl⟩ := hs
    simp [hpc, Pc.rank, Prod.Lex.toLex_lt_toLex]
  case isNotified | enterPoll | setToNotified =>
    refine Or.inr ?_
    split at hs
    next hpc =>
      try split at hs
      all_goals
        obtain rfl := Option.some.inj hs
        simp [hpc, Pc.rank, Prod.Lex.toLex_lt_toLex]
    · exact absurd hs (by simp)
  case leavePoll =>
    refine Or.inr ?_
    split at hs
    next hpc =>
      split at hs
      all_goals
        obtain rfl := Option.some.inj hs
        simp [hpc, Pc.rank, Prod.Lex.toLex_lt_toLex]
    · exact absurd hs (by simp)
  case deliver =>
    refine Or.inr ?_
    split at hs
    next hpc =>
      obtain rfl := Option.some.inj hs
      simp [hpc, Pc.rank, Prod.Lex.toLex_lt_toLex]
    next hpc =>
      split at hs
      all_goals
        obtain rfl := Option.some.inj hs
        simp [hpc, Pc.rank, Prod.Lex.toLex_lt_toLex]
    · exact absurd hs (by simp)

/-- Outside the poll of the future, and short of a panic, the loop has a step to take. -/
theorem exists_isLoop_step {T : Type} [Timeout T] (s : State (PollPoller T) N W)
    (hpoll : s.pc ≠ .polling) (hpanic : s.pc ≠ .panicked) :
    ∃ a : Act (PollPoller T) W, a.isLoop = true ∧ (s.step a).isSome = true := by
  rcases hpc : s.pc with - | - | - | d | d | d | l | (- | ⟨p, l⟩) | - | - | - | -
  · exact ⟨.beginPoll, rfl, by simp [State.step, hpc]⟩
  · exact absurd hpc hpoll
  · exact ⟨.nextTimeout 0, rfl, by simp [State.step, hpc]⟩
  · refine ⟨.isNotified, rfl, ?_⟩
    simp only [State.step, hpc]
    split
    · rfl
    · rfl
  · exact ⟨.enterPoll, rfl, by simp [State.step, hpc]⟩
  · refine ⟨.leavePoll ⟨none, .ok fun _ ↦ 0#16⟩, rfl, ?_⟩
    simp only [State.step, hpc]
    split
    · rfl
    · rfl
  · exact ⟨.setToNotified, rfl, by simp [State.step, hpc]⟩
  · exact ⟨.deliver, rfl, by simp [State.step, hpc]⟩
  · refine ⟨.deliver, rfl, ?_⟩
    simp only [State.step, hpc]
    split
    · rfl
    · rfl
  · exact ⟨.clearExpired 0, rfl, by simp [State.step, hpc]⟩
  · exact ⟨.clearInner none, rfl, by simp [State.step, hpc]⟩
  · exact ⟨.storeFalse, rfl, by simp [State.step, hpc]⟩
  · exact absurd hpc hpanic

/-- A loop that is at its head, with whatever has been left in the flag and the descriptor. -/
theorem NotifyInv.of_top {P N W : Type} [NotifierFd N] {s : State P N W} (hpc : s.pc = .top)
    (houter : s.outer = []) : NotifyInv s :=
  .of_not_keepsFlag (by rw [hpc]; rfl) houter

/-- **`block_on` never sleeps through a wake.** In every state that a call which is not nested can
reach: if the loop is blocked and nothing can be read from the notifier's descriptor, then no call
of `notify` has started since the latest poll of the future began, or one is about to write. The
second part is plain progress of the loop, woken or not: outside the poll of the future it always
has a step to take, each of which begins the next poll or comes closer to it. With the first, a wake
is followed by another poll. -/
theorem blockOn_hears_notify {T N W : Type} [Timeout T] [NotifierFd N]
    (s t : State (PollPoller T) N W) (as : List (Act (PollPoller T) W)) (hpc : s.pc = .top)
    (houter : s.outer = []) (has : Act.nest ∉ as)
    (hrun : (machine (PollPoller T) N W).run s as = some t) :
    (∀ d, t.pc = .blocked d → NotifierFd.readable t.reactor.notifier.inner = false →
      t.woken = false ∨ 0 < t.writers) ∧
    (t.pc ≠ .polling → t.pc ≠ .panicked →
      (∃ a, Act.isLoop a = true ∧ (t.step a).isSome = true) ∧
      ∀ a u, Act.isLoop a = true → t.step a = some u → a = .beginPoll ∨ u.pc.rank < t.pc.rank) := by
  have hinv : NotifyInv t := by
    refine Machine.run_preserves_of_allSteps (C := fun _ a ↦ a ≠ .nest) ?_
      (NotifyInv.of_top hpc houter) (Machine.allSteps_of_forall ?_ s) hrun
    · exact fun _ _ _ h ha hs ↦ h.step ha hs
    · exact fun _ a ha hnest ↦ has (hnest ▸ ha)
  refine ⟨fun d hd hread ↦ ?_, fun hpoll hpanic ↦ ⟨exists_isLoop_step t hpoll hpanic, ?_⟩⟩
  · by_contra hno
    obtain ⟨hwoken, hwriters⟩ := not_or.1 hno
    have hflag := hinv.flag_of_woken (by rw [hd]; rfl) (Bool.eq_true_of_not_eq_false hwoken)
    rcases hinv.fd_of_flag (by rw [hd]; rfl) hflag with hr | hw
    · exact absurd hr (by simp [hread])
    · exact hwriters hw
  · exact fun a u ha hs ↦ rank_lt_of_isLoop ha hs

/-- A thread about to call `block_on` for the first time. -/
def start {T N : Type} (poller : PollPoller T) (notifier : N) : State (PollPoller T) N ℕ where
  reactor := ⟨poller, ∅, .new, .new notifier⟩
  pc := .top
  writers := 0
  woken := false
  outer := []
  invoked := []

/-- The loop goes to sleep, and another thread starts to notify it. -/
def sleepThenNotify {T : Type} [Timeout T] : List (Act (PollPoller T) ℕ) :=
  [.beginPoll, .pending, .nextTimeout 0, .isNotified, .enterPoll, .notify]

/-- Over an eventfd and a timerfd. -/
def linuxStart : State (PollPoller TimerFd) EventFd ℕ :=
  start ⟨[], 3, ⟨4, TimerFd.itimerspec none⟩⟩ ⟨3, 0⟩

/-- Over a pipe and the timeout of `poll(2)`. -/
def pipeStart : State (PollPoller PollTimeout) PipeFd ℕ := start ⟨[], 3, .mk⟩ ⟨3, 4, 0⟩

/-- Both notifiers, asleep with a writer on its way. -/
theorem blockOn_hears_notify_sleepThenNotify :
    (∃ t, (machine (PollPoller TimerFd) EventFd ℕ).run linuxStart sleepThenNotify = some t ∧
      t.pc = .blocked none ∧ NotifierFd.readable t.reactor.notifier.inner = false ∧
      (t.woken = false ∨ 0 < t.writers)) ∧
    ∃ t, (machine (PollPoller PollTimeout) PipeFd ℕ).run pipeStart sleepThenNotify = some t ∧
      t.pc = .blocked none ∧ NotifierFd.readable t.reactor.notifier.inner = false ∧
      (t.woken = false ∨ 0 < t.writers) := by
  have hnest : ∀ {T : Type} [Timeout T],
      (Act.nest : Act (PollPoller T) ℕ) ∉ sleepThenNotify := by
    simp [sleepThenNotify]
  refine ⟨⟨_, rfl, rfl, rfl, ?_⟩, _, rfl, rfl, rfl, ?_⟩
  · exact (blockOn_hears_notify linuxStart _ sleepThenNotify rfl rfl hnest rfl).1 none rfl rfl
  · exact (blockOn_hears_notify pipeStart _ sleepThenNotify rfl rfl hnest rfl).1 none rfl rfl

end BlockOn

end LocalRuntime
