import LocalRuntime.Lib.History
import LocalRuntime.Time.Expiry

/-!
# Futures with a timeout

`Timeout` of `src/time.rs`: a future and a timer in one. A poll asks the future first, and only asks
the timer if the future is pending; so a future that is ready at its deadline still wins, and the
entry of the timer stays behind when it does, until the value is dropped.

The future is known by its answers. Whatever it does to the timers of its thread while it is polled
(it may hold timers, or timeouts, of its own) are steps of theirs that come before the step of the
timeout, so the theorem of this module holds for timeouts in timeouts as well.

What a timeout is for is `race`: the answer that a future and a deadline make together. The
histories of the timeouts of a thread lead from state to state by the steps of `Race`
(`TimeoutInv`), and a history of such steps knows whether somebody will hear of the deadline
(`Race.heard`).
-/

namespace LocalRuntime

variable {α W : Type*}

namespace Time

/-- Error returned from `timeout`. -/
inductive TimedOut where
  | mk
  deriving DecidableEq

/-- Future produced by `timeout`. -/
structure Timeout where
  timer : Timer

/-- Run a future with a timeout. -/
def timeout (now : Instant) (timeout : Duration) : Timeout := ⟨Timer.delay now timeout⟩

/-- Run a future until a point in time. -/
def timeoutAt (expiry : Instant) : Timeout := ⟨Timer.at_ expiry⟩

/-- Poll the future, which answers `inner`, and then the timer, unless the future was ready. -/
def Timeout.poll (t : Timeout) (inner : Poll α) (q : TimerQueue W) (now : Instant) (waker : W) :
    Option (Poll (Except TimedOut α) × Timeout × TimerQueue W × Option String) :=
  match inner with
  | .ready out => some (.ready (.ok out), t, q, none)
  | .pending => (t.timer.poll q now waker).map fun r ↦
      (if r.1.isReady then .ready (.error .mk) else .pending, ⟨r.2.1⟩, r.2.2)

/-- The answer that a future and a deadline make together. -/
def race (expiry : Instant) (inner : Poll α) (now : Instant) : Poll (Except TimedOut α) :=
  match inner with
  | .ready out => .ready (.ok out)
  | .pending => if expiry ≤ now then .ready (.error .mk) else .pending

/-! ### Histories -/

/-- What happens to a timeout: it is polled with a waker, when its future answers `inner` and the
clock reads `now`; or `clear_expired` wakes some wakers. -/
inductive RaceEvent (α W : Type*) where
  | polled (inner : Poll α) (now : Instant) (waker : W) (answer : Poll (Except TimedOut α))
  | cleared (now : Instant) (woken : List W)

/-- The event is a poll. -/
def RaceEvent.isPoll : RaceEvent α W → Bool
  | polled .. => true
  | cleared .. => false

/-- What is known of the timer of a timeout: its latest poll, whether it was ready and its waker,
and the clock readings of the clearings since. -/
structure Watch (W : Type*) where
  lastPoll : Option (Bool × W)
  clears : List Instant

/-- Somebody waits for the deadline. -/
def Watch.PendingWith (expiry : Instant) (v : Watch W) (w : W) : Prop :=
  v.lastPoll = some (false, w) ∧ ∀ c ∈ v.clears, c < expiry

/-- What an event does to a timeout with the given expiry. -/
inductive Race (expiry : Instant) : Watch W → RaceEvent α W → Watch W → Prop where
  | won {v : Watch W} {out : α} {now : Instant} {w : W} :
    Race expiry v (.polled (.ready out) now w (.ready (.ok out))) v
  | lost {v : Watch W} {now : Instant} {w : W} (h : expiry ≤ now) :
    Race expiry v (.polled .pending now w (.ready (.error .mk))) ⟨some (true, w), []⟩
  | early {v : Watch W} {now : Instant} {w : W} (h : now < expiry) :
    Race expiry v (.polled .pending now w .pending) ⟨some (false, w), []⟩
  | cleared {v : Watch W} {now : Instant} {woken : List W}
      (h : ∀ w, v.PendingWith expiry w → expiry ≤ now → w ∈ woken) :
    Race expiry v (.cleared now woken) ⟨v.lastPoll, now :: v.clears⟩

namespace Race

variable {expiry : Instant} {u v : Watch W} {h : List (RaceEvent α W)}

theorem answer_eq {inner : Poll α} {now : Instant} {w : W} {answer : Poll (Except TimedOut α)}
    (hr : Race expiry u (.polled inner now w answer) v) : answer = race expiry inner now := by
  cases hr with
  | won => rfl
  | lost hle => rw [race, if_pos hle]
  | early hlt => rw [race, if_neg (not_le.2 hlt)]

/-- Without another poll, the latest one is remembered. -/
theorem lastPoll_eq (hl : Leads (Race expiry) u h v) (hpoll : ∀ e ∈ h, e.isPoll = false) :
    v.lastPoll = u.lastPoll := by
  induction hl with
  | nil => rfl
  | @snoc h u' t e _ hR ih =>
    have hlast := ih fun x hx ↦ hpoll x (List.mem_append_left _ hx)
    have he := hpoll e (by simp)
    cases hR with
    | won => cases he
    | lost => cases he
    | early => cases he
    | cleared => exact hlast

/-- **The deadline is heard of**: as long as a pending timeout is not polled again, the timer waits
with its waker, or the waker has been invoked. -/
theorem heard {w : W} (hl : Leads (Race expiry) u h v) (hu : u.PendingWith expiry w)
    (hpoll : ∀ e ∈ h, e.isPoll = false) :
    v.PendingWith expiry w ∨ ∃ now woken, RaceEvent.cleared now woken ∈ h ∧ w ∈ woken := by
  induction hl with
  | nil => exact Or.inl hu
  | @snoc h u' t e hprev hR ih =>
    have he := hpoll e (by simp)
    rcases ih fun x hx ↦ hpoll x (List.mem_append_left _ hx) with hp | ⟨now, woken, hmem, hw⟩
    · cases hR with
      | won => cases he
      | lost => cases he
      | early => cases he
      | @cleared now woken hwoken =>
        rcases le_or_gt expiry now with hle | hlt
        · exact Or.inr ⟨now, woken, by simp, hwoken w hp hle⟩
        · refine Or.inl ⟨hp.1, fun c hc ↦ ?_⟩
          rcases List.mem_cons.1 hc with rfl | hc
          · exact hlt
          · exact hp.2 c hc
    · exact Or.inr ⟨now, woken, List.mem_append_left _ hmem, hw⟩

end Race

end Time

/-! ### The timeouts of a thread -/

open Time

/-- What can happen to the timers of a thread, some of which belong to timeouts. -/
inductive TimeoutAct (α W : Type*) where
  | create (i : ℕ) (t : Time.Timeout)
  | poll (i : ℕ) (inner : Poll α) (now : Instant) (waker : W)
  | timer (a : TimerAct W)

/-- The action polls or drops the timer `i` by itself. -/
def TimeoutAct.Touches (i : ℕ) (a : TimeoutAct α W) : Prop := ∃ b, a = .timer b ∧ b.issuer = some i

namespace TimerState

/-- The step function. If the future was ready the timer has not been polled. -/
def timeoutStep (s : TimerState W) : TimeoutAct α W → Option (TimerState W)
  | .create i t => s.step (.create i (.timer t.timer))
  | .poll i inner now waker =>
    match s.live i with
    | some ⟨.timer t, _, _⟩ =>
      if s.clock ≤ now then
        (Time.Timeout.poll ⟨t⟩ inner s.queue now waker).map fun r ↦
          if inner.isReady then s
          else
            { clock := now
              queue := r.2.2.1
              live :=
                Function.update s.live i (some ⟨.timer r.2.1.timer, some (r.1.isReady, waker), []⟩)
              log := s.log ++ r.2.2.2.toList }
      else none
    | _ => none
  | .timer a => s.step a

/-- The machine of the timers and timeouts of one thread. -/
def timeouts : Machine (TimerState W) (TimeoutAct α W) := ⟨timeoutStep⟩

/-- What a step adds to the history of the timeout `i`. -/
def raceEvents (s : TimerState W) : TimeoutAct α W → ℕ → List (RaceEvent α W)
  | .poll j inner now waker, i =>
    if j = i then
      match s.live j with
      | some ⟨.timer t, _, _⟩ =>
        ((Time.Timeout.poll ⟨t⟩ inner s.queue now waker).map fun r ↦
          RaceEvent.polled inner now waker r.1).toList
      | _ => []
    else []
  | .timer (.wait now), _ => [.cleared now (s.queue.clearExpired now).1]
  | _, _ => []

/-- The machine with the history of each timeout. -/
def racing : Machine (Logged (TimerState W) ℕ (RaceEvent α W)) (TimeoutAct α W) :=
  timeouts.logged raceEvents

variable {s t : TimerState W} {i : ℕ}

/-- **What a poll of a timeout can do**: leave everything as it was, or poll the timer. -/
theorem timeoutStep_poll {inner : Poll α} {now : Instant} {waker : W}
    (hs : s.timeoutStep (.poll i inner now waker) = some t) :
    (∃ out tm last clears, inner = .ready out ∧ s.live i = some ⟨.timer tm, last, clears⟩ ∧ t = s ∧
      s.raceEvents (.poll i inner now waker) i = [.polled inner now waker (.ready (.ok out))]) ∨
    (∃ tm last clears r tm' q log, inner = .pending ∧ s.live i = some ⟨.timer tm, last, clears⟩ ∧
      s.clock ≤ now ∧ tm.poll s.queue now waker = some (r, tm', q, log) ∧
      s.step (.poll i now waker) = some t ∧
      t.live i = some ⟨.timer tm', some (r.isReady, waker), []⟩ ∧
      s.raceEvents (.poll i inner now waker) i =
        [.polled inner now waker (if r.isReady then .ready (.error .mk) else .pending)]) := by
  simp only [timeoutStep] at hs
  split at hs
  next tm last clears hl =>
    split at hs
    next hclock =>
      cases inner with
      | ready out =>
        refine Or.inl ⟨out, tm, last, clears, rfl, hl, (Option.some.inj hs).symm, ?_⟩
        simp [raceEvents, hl, Time.Timeout.poll]
      | pending =>
        obtain ⟨⟨r, tm', q, log⟩, hpoll, rfl⟩ := Option.map_eq_some_iff.1 hs
        obtain ⟨⟨r', tm₁, q₁, log₁⟩, hpoll', heq⟩ := Option.map_eq_some_iff.1 hpoll
        cases heq
        refine Or.inr ⟨tm, last, clears, r', tm₁, q, log, rfl, hl, hclock, hpoll', ?_, ?_, ?_⟩
        · cases r' with
          | pending => simp [step, hl, hclock, TimerOwner.poll, hpoll', Poll.isReady]
          | ready e => simp [step, hl, hclock, TimerOwner.poll, hpoll', Poll.isReady]
        · cases r' with
          | pending => exact Function.update_self _ _ _
          | ready e => exact Function.update_self _ _ _
        · simp [raceEvents, hl, Time.Timeout.poll, hpoll']
    · cases hs
  · cases hs

/-- A step of the timeouts is a step of the timers, or none. -/
theorem step_of_timeoutStep {a : TimeoutAct α W} (hs : s.timeoutStep a = some t) :
    t = s ∨ ∃ b, s.step b = some t := by
  cases a with
  | create i o => exact Or.inr ⟨.create i (.timer o.timer), hs⟩
  | poll i inner now waker =>
    rcases timeoutStep_poll hs with ⟨_, _, _, _, _, _, rfl, _⟩ |
      ⟨_, _, _, _, _, _, _, _, _, _, _, h, _⟩
    · exact Or.inl rfl
    · exact Or.inr ⟨_, h⟩
  | timer b => exact Or.inr ⟨b, hs⟩

end TimerState

theorem TimerInv.timeoutStep {s t : TimerState W} {a : TimeoutAct α W} (h : TimerInv s)
    (hs : s.timeoutStep a = some t) : TimerInv t := by
  rcases TimerState.step_of_timeoutStep hs with rfl | ⟨b, hb⟩
  · exact h
  · exact h.step hb

namespace TimerState

/-- The timer `i` belongs to a timeout with the given expiry. -/
def IsTimeout (s : TimerState W) (i : ℕ) (expiry : Instant) (v : Watch W) : Prop :=
  ∃ tm : Timer, s.live i = some ⟨.timer tm, v.lastPoll, v.clears⟩ ∧ tm.expiry = expiry

variable {s t : TimerState W} {i : ℕ} {expiry : Instant} {v : Watch W}

/-- What the other timers do is nothing to a timeout, save for `clear_expired`. -/
theorem IsTimeout.of_live_eq (h : s.IsTimeout i expiry v) (hlive : t.live i = s.live i) :
    t.IsTimeout i expiry v := by
  rwa [IsTimeout, hlive]

/-- `clear_expired` wakes the timer of a timeout if its deadline has come. -/
theorem IsTimeout.wait {now : Instant} (hinv : TimerInv s) (h : s.IsTimeout i expiry v)
    (hs : s.step (.wait now) = some t) :
    t.IsTimeout i expiry ⟨v.lastPoll, now :: v.clears⟩ ∧
      Race (α := α) expiry v (.cleared now (s.queue.clearExpired now).1)
        ⟨v.lastPoll, now :: v.clears⟩ := by
  obtain ⟨tm, hl, rfl⟩ := h
  constructor
  · cases step_cases hs
    exact ⟨tm, by simp [hl, noteClear], rfl⟩
  · refine .cleared fun w hw hle ↦ ?_
    obtain ⟨k, hk, hentry⟩ := hinv.exists_entry hl hw
    rw [TimerQueue.clearExpired_wakes]
    refine List.mem_map.2 ⟨(k, w), TimerQueue.mem_due.2 ⟨hentry, ?_⟩, rfl⟩
    rw [Timer.expiry_of_key_eq_some hk]
    exact hle

/-- A poll of a timeout is a step of its race. -/
theorem IsTimeout.poll {inner : Poll α} {now : Instant} {waker : W} (h : s.IsTimeout i expiry v)
    (hs : s.timeoutStep (.poll i inner now waker) = some t) :
    ∃ v' e, t.IsTimeout i expiry v' ∧ s.raceEvents (.poll i inner now waker) i = [e] ∧
      Race expiry v e v' := by
  obtain ⟨tm, hl, rfl⟩ := h
  rcases timeoutStep_poll hs with ⟨out, tm₁, last, clears, rfl, hl₁, rfl, hev⟩ |
    ⟨tm₁, last, clears, r, tm', q, log, rfl, hl₁, hclock, hpoll, hstep, hl', hev⟩
  · exact ⟨v, _, ⟨tm, hl, rfl⟩, hev, .won⟩
  · rw [hl] at hl₁
    cases hl₁
    rcases Timer.poll_cases hpoll with ⟨rfl, hle, rfl, -, -⟩ | ⟨rfl, hlt, hrest⟩
    · refine ⟨⟨some (true, waker), []⟩, _, ⟨_, hl', ?_⟩, hev, .lost hle⟩
      rcases tm with ⟨e, - | id⟩ <;> rfl
    · refine ⟨⟨some (false, waker), []⟩, _, ⟨_, hl', ?_⟩, hev, .early hlt⟩
      rcases hrest with ⟨id, -, -, rfl, -⟩ | ⟨id, -, rfl, -⟩ <;> rfl

/-- **What one step does to a timeout** that it does not touch by itself. -/
theorem race_step {a : TimeoutAct α W} (hinv : TimerInv s) (hs : s.timeoutStep a = some t)
    (h : s.IsTimeout i expiry v) (ha : ¬ a.Touches i) :
    ∃ v', t.IsTimeout i expiry v' ∧ (s.raceEvents a i = [] ∧ v' = v ∨
      ∃ e, s.raceEvents a i = [e] ∧ Race expiry v e v') := by
  -- a step of the timers that is about another one
  have hother : ∀ {j : ℕ} {l : Option (LiveTimer W)}, i ≠ j →
      Function.update s.live j l i = s.live i :=
    fun hne ↦ Function.update_of_ne hne _ _
  have hlive : s.live i ≠ none := by
    obtain ⟨tm, hl, -⟩ := h
    rw [hl]
    exact nofun
  cases a with
  | create j o =>
    have hs : s.step (.create j (.timer o.timer)) = some t := hs
    cases step_cases hs with
    | create hj _ =>
      have hne : i ≠ j := by rintro rfl; exact hlive hj
      exact ⟨v, h.of_live_eq (hother hne), Or.inl ⟨rfl, rfl⟩⟩
  | poll j inner now waker =>
    rcases eq_or_ne j i with rfl | hne
    · obtain ⟨v', e, hv', he, hrace⟩ := h.poll hs
      exact ⟨v', hv', Or.inr ⟨e, he, hrace⟩⟩
    · refine ⟨v, ?_, Or.inl ⟨if_neg hne, rfl⟩⟩
      rcases timeoutStep_poll hs with ⟨_, _, _, _, _, _, rfl, _⟩ |
        ⟨_, _, _, _, _, _, _, _, _, _, _, hstep, _⟩
      · exact h
      · cases step_cases hstep with
        | poll => exact h.of_live_eq (hother hne.symm)
  | timer b =>
    have hs : s.step b = some t := hs
    cases step_cases hs with
    | @create j o hj _ =>
      have hne : i ≠ j := by rintro rfl; exact hlive hj
      exact ⟨v, h.of_live_eq (hother hne), Or.inl ⟨rfl, rfl⟩⟩
    | @poll j now waker l rdy o q logged hl hclock hpoll =>
      have hne : i ≠ j := by rintro rfl; exact ha ⟨_, rfl, rfl⟩
      exact ⟨v, h.of_live_eq (hother hne), Or.inl ⟨rfl, rfl⟩⟩
    | @setPeriod j period p last clears hj =>
      have hne : i ≠ j := by
        rintro rfl
        obtain ⟨tm, hl, -⟩ := h
        rw [hl] at hj
        cases hj
      exact ⟨v, h.of_live_eq (hother hne), Or.inl ⟨rfl, rfl⟩⟩
    | @drop j l hl =>
      have hne : i ≠ j := by rintro rfl; exact ha ⟨_, rfl, rfl⟩
      exact ⟨v, h.of_live_eq (hother hne), Or.inl ⟨rfl, rfl⟩⟩
    | @wait now hclock =>
      obtain ⟨hv', hrace⟩ := h.wait hinv hs
      exact ⟨_, hv', Or.inr ⟨_, rfl, hrace⟩⟩

end TimerState

/-! ### Every run -/

/-- The history of the timeout `i` has led from nothing to what is known of its timer. -/
structure TimeoutInv (i : ℕ) (expiry : Instant) (s : Logged (TimerState W) ℕ (RaceEvent α W)) :
    Prop where
  timers : TimerInv s.state
  leads : ∃ v, s.state.IsTimeout i expiry v ∧ Leads (Race expiry) ⟨none, []⟩ (s.log i) v

namespace TimeoutInv

variable {i : ℕ} {expiry : Instant} {s t : Logged (TimerState W) ℕ (RaceEvent α W)}

theorem create {s₀ : TimerState W} (h : TimerInv s₀)
    (hs : TimerState.racing.step ⟨s₀, fun _ ↦ []⟩ (.create i (timeoutAt expiry)) = some t) :
    TimeoutInv i expiry t := by
  obtain ⟨u, hu, rfl⟩ := Machine.step_logged_eq_some.1 hs
  have hu : s₀.step (.create i (.timer (.at_ expiry))) = some u := hu
  refine ⟨h.step hu, ⟨none, []⟩, ⟨.at_ expiry, ?_, rfl⟩, .nil⟩
  cases TimerState.step_cases hu
  exact Function.update_self _ _ _

theorem step (h : TimeoutInv i expiry s) {a : TimeoutAct α W} (ha : ¬ a.Touches i)
    (hs : TimerState.racing.step s a = some t) : TimeoutInv i expiry t := by
  obtain ⟨u, hu, rfl⟩ := Machine.step_logged_eq_some.1 hs
  obtain ⟨v, hv, hleads⟩ := h.leads
  obtain ⟨v', hv', hrace⟩ := TimerState.race_step h.timers hu hv ha
  refine ⟨h.timers.timeoutStep hu, v', hv', ?_⟩
  show Leads (Race expiry) ⟨none, []⟩ (s.log i ++ s.state.raceEvents a i) v'
  rcases hrace with ⟨hev, rfl⟩ | ⟨e, hev, hrace⟩
  · rw [hev, List.append_nil]
    exact hleads
  · rw [hev]
    exact hleads.snoc hrace

/-- What is left of the latest poll: if it was pending, the timer is in the queue with its waker, or
the waker has been invoked; if it was too late, the timer is not in the queue. -/
theorem latest (h : TimeoutInv i expiry s) {before after : List (RaceEvent α W)} {inner : Poll α}
    {now : Instant} {w : W} {answer : Poll (Except TimedOut α)}
    (heq : s.log i = before ++ .polled inner now w answer :: after)
    (hpoll : ∀ e ∈ after, e.isPoll = false) :
    (answer = .pending →
      (∃ k, s.state.keyOf i = some k ∧ k.expiry = expiry ∧ s.state.queue.timers[k]? = some w) ∨
        ∃ c woken, .cleared c woken ∈ after ∧ w ∈ woken) ∧
      (answer = .ready (.error .mk) → s.state.keyOf i = none) := by
  obtain ⟨v, ⟨tm, hl, rfl⟩, hleads⟩ := h.leads
  rw [heq] at hleads
  obtain ⟨u, u', -, hrace, hafter⟩ := hleads.split
  have hkeyOf : s.state.keyOf i = tm.key := by
    rw [TimerState.keyOf, hl]
    rfl
  refine ⟨?_, ?_⟩
  · rintro rfl
    cases hrace with
    | early hlt =>
      refine (Race.heard hafter ⟨rfl, by simp⟩ hpoll).imp (fun hp ↦ ?_) id
      obtain ⟨k, hk, hentry⟩ := h.timers.exists_entry hl hp
      exact ⟨k, hkeyOf.trans hk, Timer.expiry_of_key_eq_some hk, hentry⟩
  · rintro rfl
    cases hrace with
    | lost hle =>
      have hlast := Race.lastPoll_eq hafter hpoll
      rw [hkeyOf, Option.eq_none_iff_forall_not_mem]
      intro k hk
      obtain ⟨w', hw'⟩ := (h.timers.keyed hl).1 ⟨k, hk⟩
      exact absurd (hlast.symm.trans hw') (by simp)

/-- A timeout that is polled answers what the race prescribes. -/
theorem poll (h : TimeoutInv i expiry s) {inner : Poll α} {now : Instant} {waker : W}
    (hclock : s.state.clock ≤ now)
    (hfree : now < expiry → s.state.queue.entriesAt expiry < USIZE_MAX) :
    ∃ t, TimerState.racing.step s (.poll i inner now waker) = some t ∧
      t.log i = s.log i ++ [.polled inner now waker (race expiry inner now)] := by
  obtain ⟨v, hv, -⟩ := h.leads
  obtain ⟨tm, hl, hexp⟩ := id hv
  have hsome : (tm.poll s.state.queue now waker).isSome := by
    by_cases hle : tm.expiry ≤ now
    · rw [Timer.poll, if_pos hle]
      rfl
    · refine tm.isSome_poll _ _ _ ?_
      rw [hexp] at hle ⊢
      exact hfree (not_le.1 hle)
  obtain ⟨r, hr⟩ := Option.isSome_iff_exists.1 hsome
  obtain ⟨u, hu⟩ : ∃ u, s.state.timeoutStep (.poll i inner now waker) = some u := by
    cases inner with
    | ready out => simp [TimerState.timeoutStep, hl, hclock, Time.Timeout.poll]
    | pending => simp [TimerState.timeoutStep, hl, hclock, Time.Timeout.poll, hr]
  refine ⟨_, Machine.step_logged_eq_some.2 ⟨u, hu, rfl⟩, ?_⟩
  obtain ⟨v', e, -, hev, hrace⟩ := hv.poll hu
  show s.log i ++ s.state.raceEvents (.poll i inner now waker) i = _
  rw [hev]
  -- the event is a poll, with the answer of the race
  rcases TimerState.timeoutStep_poll hu with ⟨_, _, _, _, _, _, _, hev'⟩ |
    ⟨_, _, _, _, _, _, _, _, _, _, _, _, _, hev'⟩
  · rw [hev] at hev'
    obtain rfl := List.singleton_inj.1 hev'
    rw [hrace.answer_eq]
  · rw [hev] at hev'
    obtain rfl := List.singleton_inj.1 hev'
    rw [hrace.answer_eq]

end TimeoutInv

/-- **A timeout is a race with a deadline.** Let a timeout be created in any reachable state, and
let anything happen to it and to the other timers and timeouts of its thread, as long as nobody but
the timeout polls its timer or drops it. Then every poll was answered with the output of its future
if the future was ready, with `TimedOut` if it was not and the clock had reached the expiry, and
with `Pending` otherwise; and the next poll will be. If the latest answer was `Pending`, then the
reactor has the deadline in its queue with the waker of that poll, or it has invoked that waker; if
it was `TimedOut`, the queue has nothing of the timeout. And when the timeout is dropped, whatever
it answered, every entry that is left belongs to somebody else. -/
theorem timeout_races_deadline {pre as : List (TimeoutAct α W)} {i : ℕ} {expiry : Instant}
    {s₀ : TimerState W} {s : Logged (TimerState W) ℕ (RaceEvent α W)}
    (hpre : TimerState.timeouts.run .init pre = some s₀)
    (hrun : TimerState.racing.run ⟨s₀, fun _ ↦ []⟩ (.create i (timeoutAt expiry) :: as) = some s)
    (hown : ∀ a ∈ as, ¬ a.Touches i) :
    (∀ before inner now w answer after, s.log i = before ++ .polled inner now w answer :: after →
      answer = race expiry inner now ∧
        ((∀ e ∈ after, e.isPoll = false) →
          (answer = .pending →
            (∃ k, s.state.keyOf i = some k ∧ k.expiry = expiry ∧
                s.state.queue.timers[k]? = some w) ∨
              ∃ c woken, .cleared c woken ∈ after ∧ w ∈ woken) ∧
          (answer = .ready (.error .mk) → s.state.keyOf i = none))) ∧
      (∀ inner now waker, s.state.clock ≤ now →
        (now < expiry → s.state.queue.entriesAt expiry < USIZE_MAX) →
        ∃ t, TimerState.racing.step s (.poll i inner now waker) = some t ∧
          t.log i = s.log i ++ [.polled inner now waker (race expiry inner now)]) ∧
      ∀ u, s.state.step (.drop i) = some u →
        ∀ k ∈ u.queue.timers, ∃ j, j ≠ i ∧ u.keyOf j = some k := by
  obtain ⟨u, hu, hrun⟩ := Machine.run_cons_eq_some _ |>.1 hrun
  have hinit : TimerInv s₀ :=
    Machine.run_preserves (M := TimerState.timeouts) (I := TimerInv)
      (fun _ _ _ h hs ↦ h.timeoutStep hs) TimerInv.init hpre
  have hinv : TimeoutInv i expiry s :=
    Machine.run_preserves_of_allSteps (C := fun _ a ↦ ¬ a.Touches i)
      (fun _ _ _ h ha hs ↦ h.step ha hs)
      (TimeoutInv.create hinit hu) (Machine.allSteps_of_forall (fun _ a ha ↦ hown a ha) u) hrun
  refine ⟨fun before inner now w answer after heq ↦ ⟨?_, hinv.latest heq⟩,
    fun inner now waker ↦ hinv.poll, fun u hdrop k hk ↦ ?_⟩
  · obtain ⟨v, -, hleads⟩ := hinv.leads
    rw [heq] at hleads
    obtain ⟨_, _, -, hrace, -⟩ := hleads.split
    exact hrace.answer_eq
  · obtain ⟨w, hw⟩ := BTreeMap.mem_iff_exists.1 hk
    obtain ⟨j, m, hm, hkey, -⟩ := (hinv.timers.step hdrop).owned hw
    refine ⟨j, ?_, by rw [TimerState.keyOf, hm, Option.bind_some, hkey]⟩
    rintro rfl
    cases TimerState.step_cases hdrop
    exact absurd (hm.symm.trans (Function.update_self _ _ _)) (by simp)

/-- A timeout at 20 whose future has a timer of its own, at 10. The reactor clears at 12, which
wakes the task for the future, and at 21, for the timeout; the future is still pending then. -/
def slowFuture : List (TimeoutAct ℕ ℕ) :=
  [.timer (.create 1 (.timer (.at_ 10))), .timer (.poll 1 3 70), .poll 0 .pending 4 70,
    .timer (.wait 12), .timer (.poll 1 13 70), .timer (.drop 1), .poll 0 .pending 14 71,
    .timer (.wait 21), .poll 0 .pending 22 72]

theorem timeout_races_deadline_slowFuture :
    ∃ s, TimerState.racing.run ⟨.init, fun _ ↦ []⟩ (.create 0 (timeoutAt 20) :: slowFuture) =
      some s ∧
      s.log 0 = [.polled .pending 4 70 .pending, .cleared 12 [70], .polled .pending 14 71 .pending,
        .cleared 21 [71], .polled .pending 22 72 (.ready (.error .mk))] ∧
      s.state.keyOf 0 = none := by
  obtain ⟨s, hs, hlog⟩ : ∃ s, TimerState.racing.run ⟨.init, fun _ ↦ []⟩
      (.create 0 (timeoutAt 20) :: slowFuture) = some s ∧ s.log 0 = [.polled .pending 4 70 .pending,
        .cleared 12 [70], .polled .pending 14 71 .pending, .cleared 21 [71],
        .polled .pending 22 72 (.ready (.error .mk))] := ⟨_, rfl, rfl⟩
  have hown : ∀ a ∈ slowFuture, ¬ a.Touches 0 := by
    simp [slowFuture, TimeoutAct.Touches, TimerAct.issuer]
  have hpre : (TimerState.timeouts (α := ℕ)).run (TimerState.init : TimerState ℕ) [] =
    some .init := rfl
  refine ⟨s, hs, hlog, ?_⟩
  have hlast :=
    (timeout_races_deadline hpre hs hown).1 [.polled .pending 4 70 .pending, .cleared 12 [70],
      .polled .pending 14 71 .pending, .cleared 21 [71]] .pending 22 72 (.ready (.error .mk))
      [] hlog
  exact (hlast.2 (by simp)).2 rfl

end LocalRuntime
