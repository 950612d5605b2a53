import LocalRuntime.Time.Timer

/-!
# The timer queue is the set of pending timers

A timer knows its entry only through the pair of its expiry and the ID it was given, and the ID
counter wraps, so nothing in a single operation says that the entry found under that pair is the
timer's own. Two facts of the whole run do:

* an entry is only added **after** the expiry has been compared with the clock, and clearing removes
  everything up to a reading of the same clock, so a key that has been cleared never comes back
  (`TimerInv.cleared`);
* `Periodic` rewrites the expiry only when the poll was ready, and a ready poll gives up the ID.

The invariant `TimerInv` collects what follows from them. Its field `entry` says that a timer whose
key has not been cleared owns the entry under that key, `owned` that there are no other entries, and
`inj` that two such timers never share a key.
-/

namespace LocalRuntime

variable {W : Type*}

namespace LiveTimer

/-- No `clear_expired` since the latest poll has reached the timer's expiry. -/
def Fresh (l : LiveTimer W) : Prop := ∀ c ∈ l.clears, c < l.timer.expiry

theorem exists_le_of_not_fresh {l : LiveTimer W} (h : ¬ l.Fresh) :
    ∃ c ∈ l.clears, l.timer.expiry ≤ c := by
  simpa [Fresh] using h

end LiveTimer

/-- The invariant of the timers of one thread. -/
structure TimerInv (s : TimerState W) : Prop where
  /-- Recorded clearings lie in the past. -/
  past : ∀ {i : ℕ} {l : LiveTimer W}, s.live i = some l → ∀ c ∈ l.clears, c ≤ s.clock
  /-- No entry is as early as a recorded clearing. -/
  cleared : ∀ {i : ℕ} {l : LiveTimer W}, s.live i = some l → ∀ c ∈ l.clears,
    ∀ {k : TimerKey} {w : W}, s.queue.timers[k]? = some w → c < k.expiry
  /-- A timer has a key exactly while its latest poll was pending. -/
  keyed : ∀ {i : ℕ} {l : LiveTimer W}, s.live i = some l →
    ((∃ k, l.timer.key = some k) ↔ ∃ w, l.lastPoll = some (false, w))
  /-- A timer whose key has not been cleared owns the entry under it. -/
  entry : ∀ {i : ℕ} {l : LiveTimer W} {k : TimerKey} {w : W}, s.live i = some l →
    l.timer.key = some k → l.Fresh → l.lastPoll = some (false, w) → s.queue.timers[k]? = some w
  /-- Every entry is owned. -/
  owned : ∀ {k : TimerKey} {w : W}, s.queue.timers[k]? = some w →
    ∃ i l, s.live i = some l ∧ l.timer.key = some k ∧ l.Fresh
  /-- Keys that have not been cleared are not shared. -/
  inj : ∀ {i j : ℕ} {l m : LiveTimer W} {k : TimerKey}, s.live i = some l → s.live j = some m →
    l.timer.key = some k → m.timer.key = some k → l.Fresh → m.Fresh → i = j
  /-- Nothing has been logged. -/
  quiet : s.log = []

namespace TimerInv

variable {s t : TimerState W} {i : ℕ} {l : LiveTimer W} {k : TimerKey}

theorem init : TimerInv (TimerState.init : TimerState W) where
  past := by intro _ _ h; cases h
  cleared := by intro _ _ h; cases h
  keyed := by intro _ _ h; cases h
  entry := by intro _ _ _ _ h; cases h
  owned := by
    intro k w h
    have : (∅ : BTreeMap TimerKey W)[k]? = some w := h
    simp at this
  inj := by intro _ _ _ _ _ h; cases h
  quiet := rfl

/-- Nothing is stored under a key that has been cleared. -/
theorem getElem?_of_not_fresh (h : TimerInv s) (hl : s.live i = some l)
    (hk : l.timer.key = some k) (hstale : ¬ l.Fresh) : s.queue.timers[k]? = none := by
  obtain ⟨c, hc, hle⟩ := LiveTimer.exists_le_of_not_fresh hstale
  rcases hw : s.queue.timers[k]? with - | w
  · rfl
  · have hlt := h.cleared hl c hc hw
    rw [Timer.expiry_of_key_eq_some hk] at hlt
    exact absurd hle (not_le.2 hlt)

/-- **No key is shared** between a timer that owns an entry and any other timer, whether or not the
other one has been cleared. -/
theorem key_ne (h : TimerInv s) {j : ℕ} {m : LiveTimer W} (hl : s.live i = some l)
    (hm : s.live j = some m) (hij : i ≠ j) (hk : m.timer.key = some k) (hfresh : m.Fresh) :
    l.timer.key ≠ some k := by
  intro hk'
  by_cases hl' : l.Fresh
  · exact hij (h.inj hl hm hk' hk hl' hfresh)
  · obtain ⟨w, hw⟩ := (h.keyed hm).1 ⟨k, hk⟩
    have hentry := h.entry hm hk hfresh hw
    rw [h.getElem?_of_not_fresh hl hk' hl'] at hentry
    cases hentry

/-- Giving up the entry of one timer leaves the entry of every other timer. -/
theorem getElem?_drop_of_ne (h : TimerInv s) {j : ℕ} {m : LiveTimer W} (hl : s.live i = some l)
    (hm : s.live j = some m) (hij : i ≠ j) (hk : m.timer.key = some k) (hfresh : m.Fresh) :
    (l.timer.drop s.queue).timers[k]? = s.queue.timers[k]? := by
  rw [Timer.getElem?_drop, if_neg (h.key_ne hl hm hij hk hfresh)]

/-! ### One step -/

/-- The invariant after the timer `i` has given up its entry, whatever has become of `i` itself: it
is gone, or it is left without a key and its latest poll was ready. -/
theorem of_drop (h : TimerInv s) (hl : s.live i = some l) (l' : Option (LiveTimer W))
    {clock : Instant} (hclock : s.clock ≤ clock)
    (hl' : ∀ m, l' = some m → m.timer.key = none ∧ m.clears = [] ∧
      ∃ w, m.lastPoll = some (true, w)) :
    TimerInv { s with
      clock
      queue := l.timer.drop s.queue
      live := Function.update s.live i l' } := by
  have hsub : ∀ {k : TimerKey} {w : W}, (l.timer.drop s.queue).timers[k]? = some w →
      s.queue.timers[k]? = some w ∧ l.timer.key ≠ some k := by
    intro k w hw
    rw [Timer.getElem?_drop] at hw
    split at hw
    · cases hw
    next hne => exact ⟨hw, hne⟩
  have hlive : ∀ {j m}, Function.update s.live i l' j = some m →
      (j = i ∧ l' = some m) ∨ (j ≠ i ∧ s.live j = some m) := TimerState.live_update_cases
  constructor
  · intro j m hm c hc
    rcases hlive hm with ⟨-, hm⟩ | ⟨-, hm⟩
    · simp [(hl' m hm).2.1] at hc
    · exact (h.past hm c hc).trans hclock
  · intro j m hm c hc k w hw
    rcases hlive hm with ⟨-, hm⟩ | ⟨-, hm⟩
    · simp [(hl' m hm).2.1] at hc
    · exact h.cleared hm c hc (hsub hw).1
  · intro j m hm
    rcases hlive hm with ⟨-, hm⟩ | ⟨-, hm⟩
    · obtain ⟨hkey, -, w, hlast⟩ := hl' m hm
      simp [hkey, hlast]
    · exact h.keyed hm
  · intro j m k w hm hk hfresh hlast
    rcases hlive hm with ⟨-, hm⟩ | ⟨hne, hm⟩
    · rw [(hl' m hm).1] at hk; cases hk
    · show (l.timer.drop s.queue).timers[k]? = some w
      rw [h.getElem?_drop_of_ne hl hm hne.symm hk hfresh]
      exact h.entry hm hk hfresh hlast
  · intro k w hw
    obtain ⟨hw, hne⟩ := hsub hw
    obtain ⟨j, m, hm, hk, hfresh⟩ := h.owned hw
    have hji : j ≠ i := by
      rintro rfl
      rw [hl] at hm
      cases hm
      exact hne hk
    exact ⟨j, m, by simpa [hji] using hm, hk, hfresh⟩
  · intro j j' m m' k hm hm' hk hk' hf hf'
    rcases hlive hm with ⟨-, hm⟩ | ⟨-, hm⟩
    · rw [(hl' m hm).1] at hk; cases hk
    · rcases hlive hm' with ⟨-, hm'⟩ | ⟨-, hm'⟩
      · rw [(hl' m' hm').1] at hk'; cases hk'
      · exact h.inj hm hm' hk hk' hf hf'
  · exact h.quiet

/-- The invariant after a pending poll of the timer `i` at `now`, in both of its forms. The queue
maps the timer's key `k` to the waker of the poll and is otherwise as before; that `k` was free, or
was the timer's own, is what the last hypothesis says. -/
theorem of_pending (h : TimerInv s) (hl : s.live i = some l) {o : TimerOwner} {waker : W}
    {now : Instant} {q : TimerQueue W} (hclock : s.clock ≤ now) (hlt : now < l.timer.expiry)
    (hexp : o.toTimer.expiry = l.timer.expiry) (hk : o.toTimer.key = some k)
    (hq : ∀ a, q.timers[a]? = if a = k then some waker else s.queue.timers[a]?)
    (hkey : l.timer.key = none ∧ s.queue.timers[k]? = none ∨ l.timer.key = some k ∧ l.Fresh) :
    TimerInv { s with
      clock := now
      queue := q
      live := Function.update s.live i (some ⟨o, some (false, waker), []⟩) } := by
  have hother : ∀ {j m}, j ≠ i → s.live j = some m → m.timer.key = some k → ¬ m.Fresh := by
    intro j m hji hm hk' hfresh
    rcases hkey with ⟨-, hfree⟩ | ⟨hlk, hlf⟩
    · obtain ⟨w, hw⟩ := (h.keyed hm).1 ⟨k, hk'⟩
      rw [h.entry hm hk' hfresh hw] at hfree
      cases hfree
    · exact h.key_ne hl hm hji.symm hk' hfresh hlk
  have hlive : ∀ {j m}, Function.update s.live i (some ⟨o, some (false, waker), []⟩) j = some m →
      (j = i ∧ m = ⟨o, some (false, waker), []⟩) ∨ (j ≠ i ∧ s.live j = some m) := by
    intro j m hj
    exact (TimerState.live_update_cases hj).imp_left
      (And.imp_right fun heq ↦ (Option.some.inj heq).symm)
  constructor
  · intro j m hm c hc
    rcases hlive hm with ⟨-, rfl⟩ | ⟨-, hm⟩
    · cases hc
    · exact (h.past hm c hc).trans hclock
  · intro j m hm c hc a w hw
    rcases hlive hm with ⟨-, rfl⟩ | ⟨-, hm⟩
    · cases hc
    · change q.timers[a]? = some w at hw
      rw [hq] at hw
      split at hw
      next ha =>
        -- the new entry is later than the clock, which no clearing has passed
        rw [ha, Timer.expiry_of_key_eq_some hk, hexp]
        exact ((h.past hm c hc).trans hclock).trans_lt hlt
      next => exact h.cleared hm c hc hw
  · intro j m hm
    rcases hlive hm with ⟨-, rfl⟩ | ⟨-, hm⟩
    · exact ⟨fun _ ↦ ⟨waker, rfl⟩, fun _ ↦ ⟨k, hk⟩⟩
    · exact h.keyed hm
  · intro j m a w hm ha hfresh hlast
    show q.timers[a]? = some w
    rcases hlive hm with ⟨-, rfl⟩ | ⟨hji, hm⟩
    · obtain rfl : k = a := Option.some.inj (hk.symm.trans ha)
      obtain rfl : waker = w := congrArg Prod.snd (Option.some.inj hlast)
      rw [hq, if_pos rfl]
    · rw [hq, if_neg, h.entry hm ha hfresh hlast]
      rintro rfl
      exact hother hji hm ha hfresh
  · intro a w hw
    change q.timers[a]? = some w at hw
    rw [hq] at hw
    split at hw
    next ha =>
      exact ⟨i, _, Function.update_self _ _ _, by rw [ha]; exact hk, by intro c hc; cases hc⟩
    next ha =>
      obtain ⟨j, m, hm, hmk, hfresh⟩ := h.owned hw
      have hji : j ≠ i := by
        rintro rfl
        rw [hl] at hm
        cases hm
        rcases hkey with ⟨hnone, -⟩ | ⟨hlk, -⟩
        · rw [hnone] at hmk; cases hmk
        · exact ha (Option.some.inj (hmk.symm.trans hlk))
      exact ⟨j, m, by simpa [hji] using hm, hmk, hfresh⟩
  · intro j j' m m' a hm hm' ha ha' hf hf'
    rcases hlive hm with ⟨hj, rfl⟩ | ⟨hj, hm⟩ <;> rcases hlive hm' with ⟨hj', rfl⟩ | ⟨hj', hm'⟩
    · rw [hj, hj']
    · obtain rfl : k = a := Option.some.inj (hk.symm.trans ha)
      exact absurd hf' (hother hj' hm' ha')
    · obtain rfl : k = a := Option.some.inj (hk.symm.trans ha')
      exact absurd hf (hother hj hm ha)
    · exact h.inj hm hm' ha ha' hf hf'
  · exact h.quiet

/-- The invariant after the owner of the timer `i` is replaced by one with the same timer. -/
theorem of_sameTimer (h : TimerInv s) (hl : s.live i = some l) {o : TimerOwner}
    (ho : o.toTimer = l.timer) :
    TimerInv { s with live := Function.update s.live i (some { l with owner := o }) } := by
  -- every live timer after the change agrees with one before it on all the invariant reads
  have hlive : ∀ {j m}, Function.update s.live i (some { l with owner := o }) j = some m →
      ∃ m₀, s.live j = some m₀ ∧ m.timer = m₀.timer ∧ m.clears = m₀.clears ∧
        m.lastPoll = m₀.lastPoll := by
    intro j m hj
    rcases TimerState.live_update_cases hj with ⟨rfl, heq⟩ | ⟨-, hm⟩
    · cases heq
      exact ⟨l, hl, ho, rfl, rfl⟩
    · exact ⟨m, hm, rfl, rfl, rfl⟩
  have hfresh : ∀ {m m₀ : LiveTimer W}, m.timer = m₀.timer → m.clears = m₀.clears → m.Fresh →
      m₀.Fresh := by
    intro m m₀ ht hc hf
    rwa [LiveTimer.Fresh, ht, hc] at hf
  constructor
  · intro j m hm c hc
    obtain ⟨m₀, hm₀, -, hcl, -⟩ := hlive hm
    exact h.past hm₀ c (hcl ▸ hc)
  · intro j m hm c hc a w hw
    obtain ⟨m₀, hm₀, -, hcl, -⟩ := hlive hm
    exact h.cleared hm₀ c (hcl ▸ hc) hw
  · intro j m hm
    obtain ⟨m₀, hm₀, ht, -, hlast⟩ := hlive hm
    rw [ht, hlast]
    exact h.keyed hm₀
  · intro j m a w hm ha hf hlast
    obtain ⟨m₀, hm₀, ht, hcl, hlast₀⟩ := hlive hm
    exact h.entry hm₀ (ht ▸ ha) (hfresh ht hcl hf) (hlast₀ ▸ hlast)
  · intro a w hw
    obtain ⟨j, m, hm, hk, hf⟩ := h.owned hw
    rcases eq_or_ne j i with rfl | hne
    · rw [hl] at hm
      cases hm
      refine ⟨j, _, Function.update_self _ _ _, by rw [LiveTimer.timer, ho]; exact hk, ?_⟩
      intro c hc
      rw [LiveTimer.timer, ho]
      exact hf c hc
    · exact ⟨j, m, by simpa [hne] using hm, hk, hf⟩
  · intro j j' m m' a hm hm' ha ha' hf hf'
    obtain ⟨m₀, hm₀, ht, hcl, -⟩ := hlive hm
    obtain ⟨m₀', hm₀', ht', hcl', -⟩ := hlive hm'
    exact h.inj hm₀ hm₀' (ht ▸ ha) (ht' ▸ ha') (hfresh ht hcl hf) (hfresh ht' hcl' hf')
  · exact h.quiet

/-- The invariant after a new value with a timer without an ID is created. -/
theorem of_create (h : TimerInv s) (hi : s.live i = none) {o : TimerOwner}
    (ho : o.toTimer.timerId = none) :
    TimerInv { s with live := Function.update s.live i (some ⟨o, none, []⟩) } := by
  have hkey : o.toTimer.key = none := by rw [Timer.key, ho]; rfl
  have hlive : ∀ {j m}, Function.update s.live i (some ⟨o, none, []⟩) j = some m →
      m = ⟨o, none, []⟩ ∨ s.live j = some m := by
    intro j m hj
    exact (TimerState.live_update_cases hj).imp (fun heq ↦ (Option.some.inj heq.2).symm) And.right
  constructor
  · intro j m hm c hc
    rcases hlive hm with rfl | hm
    · cases hc
    · exact h.past hm c hc
  · intro j m hm c hc a w hw
    rcases hlive hm with rfl | hm
    · cases hc
    · exact h.cleared hm c hc hw
  · intro j m hm
    rcases hlive hm with rfl | hm
    · simp [LiveTimer.timer, hkey]
    · exact h.keyed hm
  · intro j m a w hm ha hf hlast
    rcases hlive hm with rfl | hm
    · cases hlast
    · exact h.entry hm ha hf hlast
  · intro a w hw
    obtain ⟨j, m, hm, hk, hf⟩ := h.owned hw
    have hji : j ≠ i := by rintro rfl; rw [hi] at hm; cases hm
    exact ⟨j, m, by simpa [hji] using hm, hk, hf⟩
  · intro j j' m m' a hm hm' ha ha' hf hf'
    rcases hlive hm with rfl | hm
    · exact absurd (hkey.symm.trans ha) (by simp)
    · rcases hlive hm' with rfl | hm'
      · exact absurd (hkey.symm.trans ha') (by simp)
      · exact h.inj hm hm' ha ha' hf hf'
  · exact h.quiet

/-- The invariant after `clear_expired` ran at a reading `now` of the clock. -/
theorem of_wait (h : TimerInv s) {now : Instant} (hclock : s.clock ≤ now) :
    TimerInv { s with
      clock := now
      queue := (s.queue.clearExpired now).2
      live := fun i ↦ (s.live i).map (TimerState.noteClear now) } := by
  have hlive : ∀ {j m}, (s.live j).map (TimerState.noteClear now) = some m →
      ∃ m₀, s.live j = some m₀ ∧ m = TimerState.noteClear now m₀ := by
    intro j m hj
    obtain ⟨m₀, hm₀, rfl⟩ := Option.map_eq_some_iff.1 hj
    exact ⟨m₀, hm₀, rfl⟩
  have hsub : ∀ {a : TimerKey} {w : W}, (s.queue.clearExpired now).2.timers[a]? = some w →
      now < a.expiry ∧ s.queue.timers[a]? = some w := by
    intro a w hw
    rw [TimerQueue.getElem?_clearExpired] at hw
    split at hw
    · cases hw
    next hlt => exact ⟨not_le.1 hlt, hw⟩
  have hfresh : ∀ {m : LiveTimer W}, (TimerState.noteClear now m).Fresh →
      now < m.timer.expiry ∧ m.Fresh := by
    intro m hf
    exact ⟨hf now List.mem_cons_self, fun c hc ↦ hf c (List.mem_cons_of_mem _ hc)⟩
  constructor
  · intro j m hm c hc
    obtain ⟨m₀, hm₀, rfl⟩ := hlive hm
    rcases List.mem_cons.1 hc with rfl | hc
    · exact le_rfl
    · exact (h.past hm₀ c hc).trans hclock
  · intro j m hm c hc a w hw
    obtain ⟨m₀, hm₀, rfl⟩ := hlive hm
    obtain ⟨hlt, hw⟩ := hsub hw
    rcases List.mem_cons.1 hc with rfl | hc
    · exact hlt
    · exact h.cleared hm₀ c hc hw
  · intro j m hm
    obtain ⟨m₀, hm₀, rfl⟩ := hlive hm
    exact h.keyed (l := m₀) hm₀
  · intro j m a w hm ha hf hlast
    obtain ⟨m₀, hm₀, rfl⟩ := hlive hm
    obtain ⟨hlt, hf⟩ := hfresh hf
    show (s.queue.clearExpired now).2.timers[a]? = some w
    rw [TimerQueue.getElem?_clearExpired, if_neg]
    · exact h.entry hm₀ ha hf hlast
    · rw [Timer.expiry_of_key_eq_some (t := m₀.timer) ha]
      exact not_le.2 hlt
  · intro a w hw
    obtain ⟨hlt, hw⟩ := hsub hw
    obtain ⟨j, m, hm, hk, hf⟩ := h.owned hw
    refine ⟨j, TimerState.noteClear now m, by simp [hm], hk, fun c hc ↦ ?_⟩
    rcases List.mem_cons.1 hc with rfl | hc
    · rwa [Timer.expiry_of_key_eq_some hk] at hlt
    · exact hf c hc
  · intro j j' m m' a hm hm' ha ha' hf hf'
    obtain ⟨m₀, hm₀, rfl⟩ := hlive hm
    obtain ⟨m₀', hm₀', rfl⟩ := hlive hm'
    exact h.inj hm₀ hm₀' ha ha' (hfresh hf).2 (hfresh hf').2
  · exact h.quiet

/-- A timer that is polled before its expiry and has a key owns the entry under it: a clearing that
reached the expiry would have read a later clock. -/
theorem fresh_of_lt (h : TimerInv s) (hl : s.live i = some l) {now : Instant}
    (hclock : s.clock ≤ now) (hlt : now < l.timer.expiry) : l.Fresh :=
  fun c hc ↦ ((h.past hl c hc).trans hclock).trans_lt hlt

/-- What a poll before the expiry finds and leaves, when the timer already has a key: its own entry,
which then holds the waker of this poll; nothing is logged. -/
theorem modify_spec (h : TimerInv s) (hl : s.live i = some l) {now : Instant} {waker : W} {id : Id}
    {q : TimerQueue W} {log : Option String} (hclock : s.clock ≤ now) (hlt : now < l.timer.expiry)
    (hid : l.timer.timerId = some id) (hmod : s.queue.modify id l.timer.expiry waker = (q, log)) :
    log = none ∧ ∀ a, q.timers[a]? =
      if a = timerKey l.timer.expiry id then some waker else s.queue.timers[a]? := by
  have hk : l.timer.key = some (timerKey l.timer.expiry id) := by rw [Timer.key, hid]; rfl
  obtain ⟨w, hw⟩ := (h.keyed hl).1 ⟨_, hk⟩
  have hentry := h.entry hl hk (h.fresh_of_lt hl hclock hlt) hw
  have hspec : (s.queue.modify id l.timer.expiry waker).2 = none ∧ ∀ a,
      (s.queue.modify id l.timer.expiry waker).1.timers[a]? = if a = timerKey l.timer.expiry id
        then some waker else s.queue.timers[a]? := TimerQueue.modify_of_mem hentry
  rwa [hmod] at hspec

/-- **The invariant is kept by every step.** -/
theorem step (h : TimerInv s) {a : TimerAct W} (hs : s.step a = some t) : TimerInv t := by
  cases TimerState.step_cases hs
  case create i o hi ho => exact h.of_create hi ho
  case poll i now waker l rdy o q logged hl hclock hpoll =>
    rcases TimerOwner.poll_cases hpoll with ⟨rfl, hkey, rfl, rfl⟩ |
      ⟨rfl, hlt, ⟨id, hnone, hreg, ho, rfl⟩ | ⟨id, hid, ho, hmod⟩⟩
    · have := h.of_drop hl (some ⟨o, some (true, waker), []⟩) hclock
        (by intro m hm; cases hm; exact ⟨hkey, rfl, waker, rfl⟩)
      simpa [h.quiet, LiveTimer.timer] using this
    · obtain ⟨hfree, hq⟩ := TimerQueue.register_eq_some hreg
      have := h.of_pending hl hclock hlt (by rw [ho]; rfl) (by rw [ho]; rfl) hq
        (Or.inl ⟨hnone, hfree⟩)
      simpa [h.quiet] using this
    · obtain ⟨rfl, hq⟩ := h.modify_spec hl hclock hlt hid hmod
      have hk : l.timer.key = some (timerKey l.timer.expiry id) := by
        rw [Timer.key, LiveTimer.timer, hid]; rfl
      have := h.of_pending hl hclock hlt (by rw [ho]; rfl) (by rw [ho]; exact hk) hq
        (Or.inr ⟨hk, h.fresh_of_lt hl hclock hlt⟩)
      simpa [h.quiet] using this
  case setPeriod i period p last clears hl =>
    exact h.of_sameTimer (o := .periodic (p.setPeriod period)) hl rfl
  case drop i l hl => exact h.of_drop hl none le_rfl (by intro m hm; cases hm)
  case wait now hclock => exact h.of_wait hclock

/-- The invariant holds in every reachable state. -/
theorem of_run {as : List (TimerAct W)} (hrun : TimerState.machine.run .init as = some s) :
    TimerInv s :=
  Machine.run_preserves (M := TimerState.machine) (fun _ _ _ h hs ↦ h.step hs) TimerInv.init hrun

end TimerInv

/-! ### The queue and the pending timers -/

/-- The timer that an action polls or drops. -/
def TimerAct.issuer : TimerAct W → Option ℕ
  | .poll i _ _ => some i
  | .drop i => some i
  | _ => none

namespace TimerState

/-- The key of a live timer, by name. -/
def keyOf (s : TimerState W) (i : ℕ) : Option TimerKey := (s.live i).bind fun l ↦ l.timer.key

/-- The names of the pending timers. -/
def pending (s : TimerState W) : Set ℕ := {i | ∃ l w, s.live i = some l ∧ l.PendingWith w}

end TimerState

namespace TimerInv

variable {s t : TimerState W} {i : ℕ} {l : LiveTimer W}

/-- The entry of a pending timer. -/
theorem exists_entry (h : TimerInv s) (hl : s.live i = some l) {w : W} (hp : l.PendingWith w) :
    ∃ k, l.timer.key = some k ∧ s.queue.timers[k]? = some w := by
  obtain ⟨k, hk⟩ := (h.keyed hl).2 ⟨w, hp.1⟩
  exact ⟨k, hk, h.entry hl hk hp.2 hp.1⟩

/-- **The keys of the queue are in bijection with the pending timers.** -/
theorem bijOn_keyOf (h : TimerInv s) :
    Set.BijOn s.keyOf s.pending (some '' {k | k ∈ s.queue.timers}) := by
  refine ⟨?_, ?_, ?_⟩
  · rintro i ⟨l, w, hl, hp⟩
    obtain ⟨k, hk, hentry⟩ := h.exists_entry hl hp
    refine ⟨k, BTreeMap.mem_iff_exists.2 ⟨w, hentry⟩, ?_⟩
    rw [TimerState.keyOf, hl, Option.bind_some, hk]
  · rintro i ⟨l, w, hl, hp⟩ j ⟨m, v, hm, hq⟩ heq
    obtain ⟨k, hk, -⟩ := h.exists_entry hl hp
    rw [TimerState.keyOf, TimerState.keyOf, hl, hm, Option.bind_some, Option.bind_some, hk] at heq
    exact h.inj hl hm hk heq.symm hp.2 hq.2
  · rintro - ⟨k, hk, rfl⟩
    obtain ⟨w, hw⟩ := BTreeMap.mem_iff_exists.1 hk
    obtain ⟨i, l, hl, hlk, hfresh⟩ := h.owned hw
    obtain ⟨v, hv⟩ := (h.keyed hl).1 ⟨k, hlk⟩
    refine ⟨i, ⟨l, v, hl, hv, hfresh⟩, ?_⟩
    rw [TimerState.keyOf, hl, Option.bind_some, hlk]

/-- **No timer touches the entry of another**: polling or dropping one timer leaves the entry of
every other pending timer as it was. -/
theorem entry_of_ne (h : TimerInv s) {a : TimerAct W} (hs : s.step a = some t)
    (ha : a.issuer = some i) {j : ℕ} {m : LiveTimer W} {w : W} {k : TimerKey} (hij : i ≠ j)
    (hm : s.live j = some m) (hp : m.PendingWith w) (hk : m.timer.key = some k) :
    t.queue.timers[k]? = some w := by
  -- the timer is untouched, so the invariant after the step still gives it its entry
  suffices hj : t.live j = some m from (h.step hs).entry hj hk hp.2 hp.1
  cases TimerState.step_cases hs
  case poll | drop =>
    cases ha
    simpa [hij.symm] using hm
  case create | setPeriod | wait => cases ha

end TimerInv

/-- **The timer queue is exactly the set of pending timers**, in every reachable state: its keys are
in bijection with the live timers whose latest poll was pending and whose expiry no `clear_expired`
has reached since; each entry holds the waker of that poll; a timer whose latest poll was ready
refers to no entry; polling or dropping one timer leaves the entries of the others alone; `modify`
has logged nothing; and polling returns. -/
theorem timerQueue_pending {as : List (TimerAct W)} {s : TimerState W}
    (hrun : TimerState.machine.run .init as = some s) :
    Set.BijOn s.keyOf s.pending (some '' {k | k ∈ s.queue.timers}) ∧
      (∀ i l w, s.live i = some l → l.PendingWith w →
        ∃ k, s.keyOf i = some k ∧ s.queue.timers[k]? = some w) ∧
      (∀ i l w, s.live i = some l → l.lastPoll = some (true, w) → s.keyOf i = none) ∧
      (∀ a t i j k, s.step a = some t → a.issuer = some i → i ≠ j → j ∈ s.pending →
        s.keyOf j = some k → t.queue.timers[k]? = s.queue.timers[k]?) ∧
      s.log = [] ∧
      (s.queue.timers.size < USIZE_MAX → ∀ i l now waker, s.live i = some l → s.clock ≤ now →
        (s.step (.poll i now waker)).isSome) := by
  have h := TimerInv.of_run hrun
  have keyOf_eq : ∀ {i l}, s.live i = some l → s.keyOf i = l.timer.key := fun hl ↦ by
    rw [TimerState.keyOf, hl, Option.bind_some]
  refine ⟨h.bijOn_keyOf, ?_, ?_, ?_, h.quiet, ?_⟩
  · intro i l w hl hp
    rw [keyOf_eq hl]
    exact h.exists_entry hl hp
  · intro i l w hl hlast
    rw [keyOf_eq hl, Option.eq_none_iff_forall_not_mem]
    intro k hk
    obtain ⟨v, hv⟩ := (h.keyed hl).1 ⟨k, hk⟩
    rw [hlast] at hv
    cases hv
  · rintro a t i j k hs ha hij ⟨m, w, hm, hp⟩ hk
    rw [keyOf_eq hm] at hk
    rw [h.entry_of_ne hs ha hij hm hp hk, h.entry hm hk hp.2 hp.1]
  · intro hsize i l now waker hl hclock
    simp only [TimerState.step, hl, hclock, if_true, Option.isSome_map]
    exact l.owner.isSome_poll s.queue now waker ((s.queue.entriesAt_le_size _).trans_lt hsize)

/-- Two timers with the same expiry, one of them polled twice and the other dropped. -/
def twoTimers : List (TimerAct ℕ) :=
  [.create 0 (.timer (.at_ 5)), .create 1 (.periodic (.periodicAt 5 3)), .poll 0 1 70, .poll 1 2 71,
    .wait 3, .poll 0 4 72, .drop 1]

theorem timerQueue_pending_twoTimers :
    ∃ s, TimerState.machine.run .init twoTimers = some s ∧ s.queue.timers.size = 1 ∧
      s.queue.timers[timerKey 5 Id.one]? = some 72 ∧
      Set.BijOn s.keyOf s.pending (some '' {k | k ∈ s.queue.timers}) := by
  have hrun : ((TimerState.machine.run .init twoTimers).map fun s ↦
      (s.queue.timers.size, s.queue.timers[timerKey 5 Id.one]?)) = some (1, some 72) := by decide
  obtain ⟨s, hs, heq⟩ := Option.map_eq_some_iff.1 hrun
  exact ⟨s, hs, congrArg Prod.fst heq, congrArg Prod.snd heq, (timerQueue_pending hs).1⟩

end LocalRuntime
