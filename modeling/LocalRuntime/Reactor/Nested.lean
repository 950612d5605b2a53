import LocalRuntime.Reactor.BlockOn

/-!
# Nested calls of `block_on`

All calls of `block_on` on a thread share one reactor, one flag and one descriptor, and the waker of
each of them is the same notifier. A notification while a future is polled is meant for that call
and for all that enclose it; it stays in the flag, which every `wait` reads before it goes to sleep.

The only step that takes it away is the last one of `wait`, `storeFalse`. For the innermost call
this does no harm, since its future is polled next. An enclosing call is still in the poll that has
called `block_on`: its notification is gone, and if that poll returns pending it goes to sleep
(`nested_sleeps`). `NestedInv` shows that this is the only way: as long as no `wait` clears the flag
with an enclosing call woken, every call hears its notifications, at any depth.
-/

namespace LocalRuntime

namespace BlockOn

variable {P N W : Type}

/-- No `wait` clears the flag while an enclosing call has been woken. -/
def ClearsUnwoken [EventPoller P] (s : State P N W) : Act P W → Prop
  | .storeFalse => true ∉ s.outer
  | _ => True

/-- The protocol of the flag and the descriptor at any depth. -/
structure NestedInv [NotifierFd N] (s : State P N W) : Prop where
  flag_of_woken : s.pc.keepsFlag = true → s.woken = true → s.reactor.notifier.isNotified = true
  flag_of_outer : true ∈ s.outer → s.reactor.notifier.isNotified = true
  fd_of_flag : s.pc.asleep = true → s.reactor.notifier.isNotified = true →
    NotifierFd.readable s.reactor.notifier.inner = true ∨ 0 < s.writers

section Steps

variable [NotifierFd N] {s t : State P N W}

/-- Where the innermost call waits for no notification, the enclosing ones have to be shown for. -/
theorem NestedInv.of_not_keepsFlag (hpc : t.pc.keepsFlag = false)
    (houter : true ∈ t.outer → t.reactor.notifier.isNotified = true) : NestedInv t := by
  refine ⟨fun h ↦ ?_, houter, fun h ↦ ?_⟩
  · exact absurd h (by simp [hpc])
  · exact absurd h (by simp [Pc.asleep_eq_false hpc])

/-- **One step keeps the protocol**, unless it takes a notification away from an enclosing call. -/
theorem NestedInv.step [EventPoller P] {a : Act P W} (h : NestedInv s) (ha : ClearsUnwoken s a)
    (hs : s.step a = some t) : NestedInv t := by
  rcases notifyStep_of_step hs with ⟨hkeeps, hasleep, hnotifier, hwriters, hwoken, houter⟩ | - |
    hpc | @⟨woken, outer, hpc, houter⟩ | ⟨hpc, hflag⟩ | - | - | - | - | -
  case same =>
    refine ⟨fun hpc hw ↦ ?_, fun hmem ↦ ?_, fun hpc hf ↦ ?_⟩
    · exact hnotifier ▸ h.flag_of_woken (hkeeps hpc) (hwoken ▸ hw)
    · exact hnotifier ▸ h.flag_of_outer (houter ▸ hmem)
    · rw [hnotifier, hwriters]
      exact h.fd_of_flag (hasleep hpc) (hnotifier ▸ hf)
  case beginPoll =>
    exact ⟨fun _ hw ↦ absurd hw (by simp), h.flag_of_outer,
      fun hpc ↦ absurd hpc (by simp [Pc.asleep])⟩
  case nest =>
    -- the call that becomes an enclosing one is in its poll, where it keeps the flag
    refine .of_not_keepsFlag rfl fun hmem ↦ ?_
    rcases List.mem_cons.1 hmem with hw | hmem
    · exact h.flag_of_woken (by rw [hpc]; rfl) hw.symm
    · exact h.flag_of_outer hmem
  case ready =>
    refine ⟨fun _ hw ↦ h.flag_of_outer ?_, fun hmem ↦ h.flag_of_outer ?_, fun hp ↦ ?_⟩
    · rw [houter, show woken = true from hw]
      exact List.mem_cons_self
    · rw [houter]
      exact List.mem_cons_of_mem _ hmem
    · exact absurd hp (by simp [hpc, Pc.asleep])
  case pass =>
    refine ⟨fun _ ↦ h.flag_of_woken (by rw [hpc]; rfl), h.flag_of_outer, fun _ hf ↦ ?_⟩
    exact absurd hf (by simp [hflag])
  case setToNotified => exact .of_not_keepsFlag rfl fun _ ↦ rfl
  case clearInner => exact .of_not_keepsFlag rfl h.flag_of_outer
  case storeFalse => exact .of_not_keepsFlag rfl fun hmem ↦ absurd hmem ha
  case notify =>
    refine ⟨fun _ _ ↦ rfl, fun _ ↦ rfl, fun hpc _ ↦ ?_⟩
    by_cases hflag : s.reactor.notifier.isNotified = true
    · rw [if_pos hflag]
      exact h.fd_of_flag hpc hflag
    · exact Or.inr (by simp [hflag])
  case write =>
    exact ⟨h.flag_of_woken, h.flag_of_outer, fun _ _ ↦ Or.inl (NotifierFd.readable_notify _)⟩

end Steps

/-- A call hears its notifications. If one has come since its poll began when `wait` tests the flag,
then `wait` does not go to the kernel, whatever the timeout is; and if it comes later, the
descriptor is readable or about to be. -/
structure Hears [EventPoller P] [NotifierFd N] (t : State P N W) : Prop where
  skips : ∀ d, t.pc = .check d → t.woken = true → t.step .isNotified = some { t with pc := .expire }
  wakes : ∀ d, t.pc = .blocked d → NotifierFd.readable t.reactor.notifier.inner = false →
    t.woken = false ∨ 0 < t.writers

theorem NestedInv.hears [EventPoller P] [NotifierFd N] {t : State P N W} (h : NestedInv t) :
    Hears t := by
  refine ⟨fun d hd hwoken ↦ ?_, fun d hd hread ↦ ?_⟩
  · have hflag := h.flag_of_woken (by rw [hd]; rfl) hwoken
    simp only [State.step, hd, hflag, Bool.or_true, if_true]
  · by_contra hno
    obtain ⟨hwoken, hwriters⟩ := not_or.1 hno
    have hflag := h.flag_of_woken (by rw [hd]; rfl) (Bool.eq_true_of_not_eq_false hwoken)
    rcases h.fd_of_flag (by rw [hd]; rfl) hflag with hr | hw
    · exact absurd hr (by simp [hread])
    · exact hwriters hw

/-- **Nested calls hear their notifications as long as none is cleared under an enclosing call**: in
every run, at any depth and in any interleaving with timers, I/O and notifications, in which no
`wait` clears the flag while an enclosing call has been woken since its poll began, every call hears
its notifications in every state. -/
theorem nested_hears {P N W : Type} [EventPoller P] [NotifierFd N] (s : State P N W)
    (as : List (Act P W)) (hpc : s.pc = .top) (houter : s.outer = [])
    (hclears : (machine P N W).AllSteps ClearsUnwoken s as) (t : State P N W)
    (ht : (machine P N W).Visits s as t) : Hears t := by
  have hstart : NestedInv s := .of_not_keepsFlag (by rw [hpc]; rfl) (by simp [houter])
  exact (Machine.visits_preserves_of_allSteps (I := NestedInv)
    (fun _ _ _ h ha hs ↦ h.step ha hs) hstart hclears ht).hears

instance [EventPoller P] (s : State P N W) (a : Act P W) : Decidable (ClearsUnwoken s a) :=
  match a with
  | .storeFalse => inferInstanceAs (Decidable (true ∉ s.outer))
  | .beginPoll | .use .. | .nest | .ready | .pending | .nextTimeout _ | .isNotified | .enterPoll
  | .leavePoll _ | .setToNotified | .deliver | .clearExpired _ | .clearInner _ | .notify | .write =>
    isTrue trivial

/-- The future of the inner call waits for a descriptor, and its `wait` sleeps until that is
readable. Another thread notifies the outer call in the next poll of the inner future. -/
def notifyAfterWait : List (Act (PollPoller TimerFd) ℕ) :=
  [.beginPoll, .nest, .beginPoll, .use Reactor.oneReader.poller Reactor.oneReader.eventSources .new,
    .pending, .nextTimeout 0, .isNotified, .enterPoll, .leavePoll (Reactor.readableEnv [5]),
    .setToNotified, .deliver, .deliver, .clearExpired 0, .clearInner none, .storeFalse, .beginPoll,
    .notify, .ready, .pending, .nextTimeout 0]

/-- The `wait` of the inner call has cleared the flag with the outer call not woken yet, and the
outer one does not go to sleep. -/
theorem nested_hears_notifyAfterWait :
    ∃ t, (machine (PollPoller TimerFd) EventFd ℕ).run linuxStart notifyAfterWait = some t ∧
      t.pc = .check none ∧ t.woken = true ∧ Hears t := by
  obtain ⟨t, hrun, hpc, hwoken⟩ : ∃ t, (machine (PollPoller TimerFd) EventFd ℕ).run linuxStart
      notifyAfterWait = some t ∧ t.pc = .check none ∧ t.woken = true := ⟨_, rfl, rfl, rfl⟩
  refine ⟨t, hrun, hpc, hwoken, ?_⟩
  exact nested_hears linuxStart notifyAfterWait rfl rfl (by decide) t
    ⟨notifyAfterWait, List.prefix_refl _, hrun⟩

/-- Another thread notifies the outer call while the inner one is asleep; the inner `wait` returns
and clears the notifier, and the inner future is ready. -/
def notifyInnerWait : List (Act (PollPoller TimerFd) ℕ) :=
  [.beginPoll, .nest, .beginPoll, .pending, .nextTimeout 0, .isNotified, .enterPoll,
    .notify, .write, .leavePoll (Reactor.readableEnv [3]), .setToNotified, .deliver,
    .clearExpired 0, .clearInner none, .storeFalse, .beginPoll, .ready]

/-- The future of the outer call returns pending, and it waits. -/
def outerWait : List (Act (PollPoller TimerFd) ℕ) :=
  [.pending, .nextTimeout 0, .isNotified, .enterPoll]

/-- **A nested call steals the notification of the enclosing one**: the outer call has been notified
since its poll began, its poll returns pending, and it goes to sleep with nothing to wake it. -/
theorem nested_sleeps :
    ∃ s t, (machine (PollPoller TimerFd) EventFd ℕ).run linuxStart notifyInnerWait = some s ∧
      s.pc = .polling ∧ s.outer = [] ∧ s.woken = true ∧
      (machine (PollPoller TimerFd) EventFd ℕ).run s outerWait = some t ∧ t.pc = .blocked none ∧
      NotifierFd.readable t.reactor.notifier.inner = false ∧ t.writers = 0 :=
  ⟨_, _, rfl, rfl, rfl, rfl, rfl, rfl, rfl, rfl⟩

end BlockOn

end LocalRuntime
