import LocalRuntime.Reactor.BlockOn

/-!
# How many notifications there are

A call of `notify` that finds the flag set writes nothing, so that a thread that is woken many times
between two turns of its loop is notified once. Two things depend on there being few: a pipe has
room for so many bytes, and `PipeFd::clear` reads eight of them, after which `poll(2)` must find
nothing.

What is counted is the **gauge** of the notifier, the notifications that have been written and not
been cleared, and the calls of `notify` that have claimed the flag and not written yet. A turn of
the loop claims the flag at most once, and clears at least one notification if there is one; so with
at most `T` calls in flight the two together never exceed `T + 2` (`GaugeInv`). The flag is what the
argument turns on: between the clearing of the descriptor and that of the flag there is one
notification less to come.
-/

namespace LocalRuntime

/-- A notifier whose notifications can be counted. -/
class Gauge (N : Type) extends NotifierFd N where
  /-- The notifications that have been written and not been cleared. -/
  gauge : N → ℕ
  /-- How many there is room for. -/
  capacity : ℕ
  /-- How many of them one clearing takes. -/
  chunk : ℕ
  readable_iff : ∀ n, readable n = true ↔ 0 < gauge n
  notify_ok : ∀ n, gauge n < capacity → (notify none n).1 = .ok () ∧
    gauge (notify none n).2 = gauge n + 1
  notify_le : ∀ n, gauge (notify none n).2 ≤ gauge n + 1
  clear_none : ∀ n, gauge (clear none n).2 ≤ gauge n - 1
  clear_of_le : ∀ n, gauge n ≤ chunk → gauge (clear none n).2 = 0
  clear_some : ∀ n e, gauge (clear (some e) n).2 = gauge n

instance : Gauge EventFd where
  gauge n := n.counter
  capacity := EVENTFD_MAX
  chunk := EVENTFD_MAX
  readable_iff n := decide_eq_true_iff
  notify_ok n hn := by
    simp only [EventNotifier.notify]
    rw [if_pos (Nat.succ_le_of_lt hn)]
    exact ⟨rfl, rfl⟩
  notify_le n := by
    simp only [EventNotifier.notify]
    split
    · exact le_rfl
    · exact Nat.le_succ _
  clear_none n := Nat.zero_le _
  clear_of_le n _ := rfl
  clear_some n e := rfl

instance : Gauge PipeFd where
  gauge n := n.bytes
  capacity := PIPE_CAPACITY
  chunk := 8
  readable_iff n := decide_eq_true_iff
  notify_ok n hn := by
    simp only [EventNotifier.notify]
    rw [if_pos (Nat.succ_le_of_lt hn)]
    exact ⟨rfl, rfl⟩
  notify_le n := by
    simp only [EventNotifier.notify]
    split
    · exact le_rfl
    · exact Nat.le_succ _
  clear_none n := by
    show n.bytes - 8 ≤ n.bytes - 1
    omega
  clear_of_le n hn := by
    show n.bytes - 8 = 0
    omega
  clear_some n e := rfl

namespace BlockOn

variable {P N W : Type} [EventPoller P]

/-- Only the clearing of the descriptor leads to that of the flag. -/
theorem store_of_step [EventNotifier N] {s t : State P N W} {a : Act P W} (hs : s.step a = some t)
    (ht : t.pc = .store) : s.pc = .store ∨ ∃ err, a = .clearInner err := by
  cases a with
  | clearInner err => exact Or.inr ⟨err, rfl⟩
  | notify =>
    cases hs
    exact Or.inl ht
  | _ => grind [State.step]

variable [Gauge N]

/-- The flag, as a number. -/
def State.flag (s : State P N W) : ℕ := if s.reactor.notifier.isNotified then 1 else 0

/-- The notifications of the descriptor. -/
def State.gauge (s : State P N W) : ℕ := Gauge.gauge s.reactor.notifier.inner

/-- Zero between the clearing of the descriptor and that of the flag, and one elsewhere. -/
def Pc.slack (pc : Pc) : ℕ := if pc = .store then 0 else 1

omit [EventPoller P] [Gauge N] in
theorem State.flag_le_one (s : State P N W) : s.flag ≤ 1 := by
  rw [flag]
  split
  · exact le_rfl
  · exact Nat.zero_le _

theorem Pc.slack_le_one (pc : Pc) : pc.slack ≤ 1 := by
  rw [slack]
  split
  · exact Nat.zero_le _
  · exact le_rfl

/-- At most `T` calls of `notify` are in flight, and reading from the descriptor fails only if there
is nothing to read. -/
def InFlight (T : ℕ) (s : State P N W) : Act P W → Prop
  | .notify => s.writers < T ∨ s.reactor.notifier.isNotified = true
  | .clearInner (some _) => s.gauge = 0
  | _ => True

/-- The notifications, those written and those on their way. -/
structure GaugeInv (T : ℕ) (s : State P N W) : Prop where
  writers : s.writers ≤ T
  gauge : s.gauge + s.writers ≤ T + s.flag + s.pc.slack

namespace GaugeInv

variable {T : ℕ} {s t : State P N W}

omit [EventPoller P] in
/-- A step that leaves the notifier alone, and does not lead between the two clearings. -/
theorem of_same (h : GaugeInv T s) (hnotifier : t.reactor.notifier = s.reactor.notifier)
    (hwriters : t.writers = s.writers) (hpc : t.pc = .store → s.pc = .store) : GaugeInv T t := by
  have hslack : s.pc.slack ≤ t.pc.slack := by
    rw [Pc.slack, Pc.slack]
    split
    · exact Nat.zero_le _
    next hs => rw [if_neg fun ht ↦ hs (hpc ht)]
  have hgauge := h.gauge
  rw [State.gauge, State.flag] at hgauge
  refine ⟨hwriters ▸ h.writers, ?_⟩
  rw [State.gauge, State.flag, hnotifier, hwriters]
  omega

/-- The descriptor is cleared: there is a notification less, or there was none. -/
theorem clearInner (h : GaugeInv T s) {err : Option IoError} (hC : InFlight T s (.clearInner err))
    (hs : s.step (.clearInner err) = some t) : GaugeInv T t := by
  rw [State.step, Option.ite_none_right_eq_some] at hs
  obtain ⟨hpc, heq⟩ := hs
  obtain rfl := Option.some.inj heq
  have hgauge := h.gauge
  have hslack : s.pc.slack = 1 := by
    rw [hpc]
    rfl
  refine ⟨h.writers, ?_⟩
  show Gauge.gauge (EventNotifier.clear err s.reactor.notifier.inner).2 + s.writers ≤ T + s.flag + 0
  have hwriters := h.writers
  cases err with
  | none =>
    have hclear := Gauge.clear_none s.reactor.notifier.inner
    rw [State.gauge] at hgauge
    omega
  | some e =>
    have hempty : Gauge.gauge s.reactor.notifier.inner = 0 := hC
    rw [Gauge.clear_some, hempty]
    omega

/-- The flag is cleared, and one more call can claim it. -/
theorem storeFalse (h : GaugeInv T s) (hs : s.step .storeFalse = some t) : GaugeInv T t := by
  rw [State.step, Option.ite_none_right_eq_some] at hs
  obtain ⟨hpc, heq⟩ := hs
  obtain rfl := Option.some.inj heq
  have hgauge := h.gauge
  have hslack : s.pc.slack = 0 := by
    rw [hpc]
    rfl
  have hflag := s.flag_le_one
  refine ⟨h.writers, ?_⟩
  show s.gauge + s.writers ≤ T + 0 + 1
  omega

/-- **Every step keeps the count**: a call that claims the flag is one more to come, and then the
flag is set. -/
theorem step (h : GaugeInv T s) {a : Act P W} (hC : InFlight T s a) (hs : s.step a = some t) :
    GaugeInv T t := by
  cases a with
  | clearInner err => exact h.clearInner hC hs
  | storeFalse => exact h.storeFalse hs
  | notify =>
    cases hs
    have hgauge := h.gauge
    by_cases hflag : s.reactor.notifier.isNotified = true
    · refine ⟨by simpa [hflag] using h.writers, ?_⟩
      show s.gauge + (if s.reactor.notifier.isNotified then s.writers else s.writers + 1) ≤
        T + 1 + s.pc.slack
      rw [State.flag, if_pos hflag] at hgauge
      rw [if_pos hflag]
      exact hgauge
    · have hwriters := hC.resolve_right hflag
      refine ⟨by simpa [hflag] using hwriters, ?_⟩
      show s.gauge + (if s.reactor.notifier.isNotified then s.writers else s.writers + 1) ≤
        T + 1 + s.pc.slack
      rw [State.flag, if_neg hflag] at hgauge
      rw [if_neg hflag]
      omega
  | write =>
    rw [State.step, Option.ite_none_right_eq_some] at hs
    obtain ⟨hpos, heq⟩ := hs
    obtain rfl := Option.some.inj heq
    have hnotify := Gauge.notify_le s.reactor.notifier.inner
    have hgauge := h.gauge
    refine ⟨(Nat.sub_le _ _).trans h.writers, ?_⟩
    show Gauge.gauge (EventNotifier.notify none s.reactor.notifier.inner).2 + (s.writers - 1) ≤
      T + s.flag + s.pc.slack
    rw [State.gauge] at hgauge
    omega
  | setToNotified =>
    simp only [State.step] at hs
    split at hs
    next revents hpc =>
      obtain rfl := Option.some.inj hs
      have hgauge := h.gauge
      have hslack : s.pc.slack = 1 := by
        rw [hpc]
        rfl
      refine ⟨h.writers, ?_⟩
      show s.gauge + s.writers ≤ T + 1 + 1
      rw [State.flag] at hgauge
      split at hgauge
      · omega
      · omega
    · cases hs
  | _ =>
    -- the other steps leave the notifier and the writers alone
    have hpc (ht : t.pc = .store) : s.pc = .store :=
      (store_of_step hs ht).resolve_right (by rintro ⟨err, heq⟩; cases heq)
    rcases notifyStep_of_step hs with ⟨-, -, hnotifier, hwriters, -, -⟩ | - | - | - | - |
      - | - | - | - | -
    all_goals first | exact h.of_same hnotifier hwriters hpc | exact h.of_same rfl rfl hpc

end GaugeInv

/-- **Notifications do not pile up.** Let at most `T` calls of `notify` be in flight at any time.
Then the notifications that have been written and not cleared, and those on their way, are at most
`T + 2`, however many calls there are. So if there is room for so many a call never fails for want
of it, and if one clearing takes as many, nothing is left after it: for a pipe that is so with six
calls in flight. -/
theorem notifications_bounded {T : ℕ} {s t : State P N W} {as : List (Act P W)}
    (hwriters : s.writers = 0) (hgauge : s.gauge = 0)
    (hall : (machine P N W).AllSteps (InFlight T) s as)
    (hrun : (machine P N W).run s as = some t) :
    t.gauge + t.writers ≤ T + 2 ∧
      (T + 2 ≤ Gauge.capacity N → ∀ u, t.step .write = some u →
        (t.reactor.notifier.notifyInner none).1 = .ok ()) ∧
      (T + 2 ≤ Gauge.chunk N → ∀ u, t.step (.clearInner none) = some u →
        NotifierFd.readable u.reactor.notifier.inner = false) := by
  have hinit : GaugeInv T s := by
    refine ⟨by omega, ?_⟩
    rw [hgauge, hwriters]
    exact Nat.zero_le _
  have hinv : GaugeInv T t :=
    Machine.run_preserves_of_allSteps (M := machine P N W) (I := GaugeInv T)
      (fun _ _ _ h hC hs ↦ h.step hC hs) hinit hall hrun
  have hle : t.gauge + t.writers ≤ T + 2 := by
    have hbound := hinv.gauge
    have hflag := t.flag_le_one
    have hslack := t.pc.slack_le_one
    omega
  refine ⟨hle, fun hcap u hu ↦ ?_, fun hchunk u hu ↦ ?_⟩
  · rw [State.step, Option.ite_none_right_eq_some] at hu
    refine (Gauge.notify_ok t.reactor.notifier.inner ?_).1
    rw [State.gauge] at hle
    omega
  · rw [State.step, Option.ite_none_right_eq_some] at hu
    obtain ⟨-, heq⟩ := hu
    obtain rfl := Option.some.inj heq
    have hzero : Gauge.gauge (EventNotifier.clear none t.reactor.notifier.inner).2 = 0 :=
      Gauge.clear_of_le _ ((Nat.le_add_right _ _).trans (hle.trans hchunk))
    have hiff := Gauge.readable_iff (EventNotifier.clear none t.reactor.notifier.inner).2
    rw [hzero] at hiff
    exact Bool.eq_false_iff.2 fun hread ↦ absurd (hiff.1 hread) (Nat.lt_irrefl 0)

/-- Three wakes while the future is polled, of which one is written, up to the clearing. -/
def threeWakes : List (Act (PollPoller PollTimeout) ℕ) :=
  [.beginPoll, .notify, .notify, .write, .notify, .pending, .nextTimeout 0, .isNotified,
    .clearExpired 0]

theorem notifications_bounded_threeWakes :
    ∃ t, (machine (PollPoller PollTimeout) PipeFd ℕ).run pipeStart threeWakes = some t ∧
      t.pc = .clear ∧ t.gauge = 1 ∧ t.gauge + t.writers ≤ 1 + 2 ∧
      ∀ u, t.step (.clearInner none) = some u →
        NotifierFd.readable u.reactor.notifier.inner = false := by
  obtain ⟨t, hrun, hpc, hgauge⟩ : ∃ t, (machine (PollPoller PollTimeout) PipeFd ℕ).run pipeStart
      threeWakes = some t ∧ t.pc = .clear ∧ t.gauge = 1 := ⟨_, rfl, rfl, rfl⟩
  have hall : (machine (PollPoller PollTimeout) PipeFd ℕ).AllSteps (InFlight 1) pipeStart
      threeWakes := by
    refine ⟨trivial, fun s₁ h₁ ↦ ⟨Or.inl ?_, fun s₂ h₂ ↦ ⟨Or.inr ?_,
      fun s₃ h₃ ↦ ⟨trivial, fun s₄ h₄ ↦
      ⟨Or.inr ?_, fun _ _ ↦ ⟨trivial, fun _ _ ↦ ⟨trivial, fun _ _ ↦ ⟨trivial, fun _ _ ↦
        ⟨trivial, fun _ _ ↦ trivial⟩⟩⟩⟩⟩⟩⟩⟩⟩
    · obtain rfl := Option.some.inj h₁
      decide
    · obtain rfl := Option.some.inj h₁
      obtain rfl := Option.some.inj h₂
      rfl
    · obtain rfl := Option.some.inj h₁
      obtain rfl := Option.some.inj h₂
      obtain rfl := Option.some.inj h₃
      obtain rfl := Option.some.inj h₄
      rfl
  have h := notifications_bounded rfl rfl hall hrun
  exact ⟨t, hrun, hpc, hgauge, h.1, h.2.2 (by decide)⟩

end BlockOn

end LocalRuntime
