import LocalRuntime.Time.PendingTimers

/-!
# Firing the timers that are due

What `Reactor::wait` does to the timers of its thread: `next_timeout` tells how long to sleep, and
`clear_expired` wakes the timers whose time has come.

`TimerQueue.clearExpired_wakes` says what the loop of `clear_expired` invokes: the wakers of the
entries that are due at its reading of the clock, in the order of their keys. Together with the
bijection between the entries and the pending timers this is a statement about timers
(`wait_fires_due`): a wait wakes **exactly** the pending timers whose expiry its reading has
reached, each of them once and the earlier before the later, and these are the timers that are no
longer pending after it.
-/

namespace LocalRuntime

variable {W : Type*}

namespace TimerQueue

/-- The entries that are due at a reading of the clock, in the order of their keys. -/
def due (q : TimerQueue W) (now : Instant) : List (TimerKey × W) :=
  q.timers.toList.filter fun entry ↦ entry.1.expiry ≤ now

theorem mem_due {q : TimerQueue W} {now : Instant} {k : TimerKey} {w : W} :
    (k, w) ∈ q.due now ↔ q.timers[k]? = some w ∧ k.expiry ≤ now := by
  rw [due, List.mem_filter, BTreeMap.mem_toList_iff, decide_eq_true_iff]

/-- The entries that are due come with increasing keys. -/
theorem pairwise_due (q : TimerQueue W) (now : Instant) :
    (q.due now).Pairwise fun a b ↦ a.1 < b.1 :=
  BTreeMap.pairwise_toList.filter _

theorem clearExpiredLoop_wakes {now : Instant} {fuel : ℕ} {q : TimerQueue W}
    (hfuel : q.timers.size ≤ fuel) :
    (clearExpiredLoop now fuel q).1 = (q.due now).map Prod.snd := by
  induction fuel generalizing q with
  | zero =>
    have hnil : q.timers.toList = [] := by
      rw [← List.length_eq_zero_iff, Std.TreeMap.length_toList]
      omega
    rw [clearExpiredLoop, due, hnil]
    rfl
  | succ fuel ih =>
    rw [clearExpiredLoop]
    rcases hlist : q.timers.toList with - | ⟨⟨key, waker⟩, rest⟩
    · have hfirst : q.timers.firstKeyValue = none := by rw [BTreeMap.firstKeyValue, hlist]; rfl
      rw [hfirst, due, hlist]
      rfl
    · have hfirst : q.timers.firstKeyValue = some (key, waker) := by
        rw [BTreeMap.firstKeyValue, hlist]
        rfl
      obtain ⟨hkey, hle⟩ := BTreeMap.firstKeyValue_eq_some hfirst
      rw [hfirst]
      by_cases hexp : key.expiry ≤ now
      · -- the entry is fired, and the loop goes on with the others
        have hsize := BTreeMap.size_erase_lt hkey
        have hrest := ih (q := { q with timers := q.timers.erase key })
          (by show (q.timers.erase key).size ≤ fuel; omega)
        simp only [hexp, if_true, hrest]
        rw [due, due, hlist, BTreeMap.toList_erase_of_toList_eq_cons hlist]
        simp [hexp]
      · -- the first entry is not due, so none is
        simp only [hexp, if_false]
        have hnone : q.due now = [] := by
          refine List.filter_eq_nil_iff.2 fun entry hentry hdue ↦ hexp ?_
          have hmono :=
            TimerKey.expiry_mono (hle entry.1 entry.2 (BTreeMap.mem_toList_iff.1 hentry))
          exact hmono.trans (of_decide_eq_true hdue)
        rw [hnone]
        rfl

/-- **What is invoked**: the wakers of the entries that are due, in the order of their keys. -/
theorem clearExpired_wakes (q : TimerQueue W) (now : Instant) :
    (q.clearExpired now).1 = (q.due now).map Prod.snd :=
  clearExpiredLoop_wakes le_rfl

/-- The timeout is what is left until the earliest entry. -/
theorem nextTimeout_eq_some {q : TimerQueue W} {now : Instant} {d : Duration}
    (h : q.nextTimeout now = some d) :
    ∃ (k : TimerKey) (w : W), q.timers[k]? = some w ∧ d = k.expiry - now ∧
      ∀ (a : TimerKey) (v : W), q.timers[a]? = some v → k.expiry ≤ a.expiry := by
  obtain ⟨⟨k, w⟩, hfirst, rfl⟩ := Option.map_eq_some_iff.1 h
  obtain ⟨hk, hle⟩ := BTreeMap.firstKeyValue_eq_some hfirst
  exact ⟨k, w, hk, rfl, fun a v ha ↦ TimerKey.expiry_mono (hle a v ha)⟩

theorem exists_nextTimeout {q : TimerQueue W} {k : TimerKey} {w : W} (h : q.timers[k]? = some w)
    (now : Instant) : ∃ d, q.nextTimeout now = some d ∧ d ≤ k.expiry - now := by
  rcases hd : q.nextTimeout now with - | d
  · have hnone := BTreeMap.firstKeyValue_eq_none (Option.map_eq_none_iff.1 hd) k
    rw [h] at hnone
    cases hnone
  · obtain ⟨a, v, -, rfl, hle⟩ := nextTimeout_eq_some hd
    exact ⟨_, rfl, Nat.sub_le_sub_right (hle k w h) now⟩

/-- **The timeout is zero exactly when something is due.** -/
theorem nextTimeout_eq_zero_iff {q : TimerQueue W} {now : Instant} :
    q.nextTimeout now = some 0 ↔ q.due now ≠ [] := by
  constructor
  · intro h
    obtain ⟨k, w, hk, hd, -⟩ := nextTimeout_eq_some h
    exact List.ne_nil_of_mem (mem_due.2 ⟨hk, Nat.sub_eq_zero_iff_le.1 hd.symm⟩)
  · intro h
    obtain ⟨⟨k, w⟩, hmem⟩ := List.exists_mem_of_ne_nil _ h
    obtain ⟨hk, hle⟩ := mem_due.1 hmem
    obtain ⟨d, hd, hdle⟩ := exists_nextTimeout hk now
    rw [hd, Nat.le_zero.1 (hdle.trans_eq (Nat.sub_eq_zero_of_le hle))]

end TimerQueue

/-! ### The timers of a thread -/

/-- The timer that owns an entry. -/
theorem TimerInv.exists_owner {s : TimerState W} (h : TimerInv s) {k : TimerKey} {w : W}
    (hk : s.queue.timers[k]? = some w) :
    ∃ i l, s.live i = some l ∧ l.timer.key = some k ∧ l.PendingWith w := by
  obtain ⟨i, l, hl, hkey, hfresh⟩ := h.owned hk
  obtain ⟨v, hv⟩ := (h.keyed hl).1 ⟨k, hkey⟩
  have hentry := h.entry hl hkey hfresh hv
  rw [hk] at hentry
  obtain rfl := Option.some.inj hentry
  exact ⟨i, l, hl, hkey, hv, hfresh⟩

/-- A wait ends the pending of the timers whose expiry its reading has reached. -/
theorem mem_pending_of_wait {s t : TimerState W} {now : Instant}
    (hwait : s.step (.wait now) = some t) (i : ℕ) :
    i ∈ t.pending ↔ ∃ l w, s.live i = some l ∧ l.PendingWith w ∧ now < l.timer.expiry := by
  cases TimerState.step_cases hwait
  constructor
  · rintro ⟨l, w, hl, hlast, hfresh⟩
    obtain ⟨l₀, hl₀, rfl⟩ := Option.map_eq_some_iff.1 hl
    refine ⟨l₀, w, hl₀, ⟨hlast, fun c hc ↦ hfresh c (List.mem_cons_of_mem _ hc)⟩, ?_⟩
    exact hfresh now List.mem_cons_self
  · rintro ⟨l, w, hl, ⟨hlast, hfresh⟩, hlt⟩
    refine ⟨TimerState.noteClear now l, w, by simp [hl], hlast, fun c hc ↦ ?_⟩
    rcases List.mem_cons.1 hc with rfl | hc
    · exact hlt
    · exact hfresh c hc

/-- **A wait fires exactly the timers that are due.** In every reachable state, and at every later
reading of the clock: the wakers that `clear_expired` invokes are those of the pending timers whose
expiry is no later than the reading, one for each, the earlier before the later; these are the
timers that are no longer pending after it; and `next_timeout` at that reading is zero exactly if
there is one. -/
theorem wait_fires_due {as : List (TimerAct W)} {s t : TimerState W} {now : Instant}
    (hrun : TimerState.machine.run .init as = some s) (hwait : s.step (.wait now) = some t) :
    ∃ names : List ℕ,
      (∀ i, i ∈ names ↔ ∃ l w, s.live i = some l ∧ l.PendingWith w ∧ l.timer.expiry ≤ now) ∧
      (names.Pairwise fun i j ↦ i ≠ j ∧ ∀ l m, s.live i = some l → s.live j = some m →
        l.timer.expiry ≤ m.timer.expiry) ∧
      List.Forall₂ (fun i w ↦ ∃ l, s.live i = some l ∧ l.PendingWith w) names
        (s.queue.clearExpired now).1 ∧
      (∀ i, i ∈ t.pending ↔ i ∈ s.pending ∧ i ∉ names) ∧
      (s.queue.nextTimeout now = some 0 ↔ names ≠ []) := by
  have h := TimerInv.of_run hrun
  choose! owner timer hlive hkey hpending using
    fun (k : TimerKey) (w : W) (hk : s.queue.timers[k]? = some w) ↦ h.exists_owner hk
  have hdue (i : ℕ) : i ∈ (s.queue.due now).map (fun entry ↦ owner entry.1 entry.2) ↔
      ∃ l w, s.live i = some l ∧ l.PendingWith w ∧ l.timer.expiry ≤ now := by
    constructor
    · intro hi
      obtain ⟨⟨k, w⟩, hmem, rfl⟩ := List.mem_map.1 hi
      obtain ⟨hk, hle⟩ := TimerQueue.mem_due.1 hmem
      rw [Timer.expiry_of_key_eq_some (hkey k w hk)] at hle
      exact ⟨timer k w hk, w, hlive k w hk, hpending k w hk, hle⟩
    · rintro ⟨l, w, hl, hp, hle⟩
      obtain ⟨k, hk, hentry⟩ := h.exists_entry hl hp
      rw [← Timer.expiry_of_key_eq_some hk] at hle
      -- nobody else owns the entry
      have heq := h.inj hl (hlive k w hentry) hk (hkey k w hentry) hp.2 (hpending k w hentry).2
      exact List.mem_map.2 ⟨(k, w), TimerQueue.mem_due.2 ⟨hentry, hle⟩, heq.symm⟩
  refine ⟨_, hdue, ?_, ?_, fun i ↦ ?_, ?_⟩
  · rw [List.pairwise_map]
    refine (s.queue.pairwise_due now).imp_of_mem ?_
    rintro ⟨k, w⟩ ⟨k', w'⟩ hmem hmem' hlt
    have hk := (TimerQueue.mem_due.1 hmem).1
    have hk' := (TimerQueue.mem_due.1 hmem').1
    constructor
    · intro heq
      have hsame := hkey k' w' hk'
      have hl' := hlive k' w' hk'
      rw [← heq, hlive k w hk] at hl'
      rw [← Option.some.inj hl', hkey k w hk] at hsame
      exact absurd (Option.some.inj hsame) hlt.ne
    · intro l m hl hm
      obtain rfl := Option.some.inj (hlive k w hk ▸ hl)
      obtain rfl := Option.some.inj (hlive k' w' hk' ▸ hm)
      rw [← Timer.expiry_of_key_eq_some (hkey k w hk),
        ← Timer.expiry_of_key_eq_some (hkey k' w' hk')]
      exact TimerKey.expiry_mono hlt.le
  · rw [TimerQueue.clearExpired_wakes, List.forall₂_map_left_iff, List.forall₂_map_right_iff,
      List.forall₂_same]
    rintro ⟨k, w⟩ hmem
    have hk := (TimerQueue.mem_due.1 hmem).1
    exact ⟨timer k w hk, hlive k w hk, hpending k w hk⟩
  · rw [mem_pending_of_wait hwait, hdue]
    constructor
    · rintro ⟨l, w, hl, hp, hlt⟩
      refine ⟨⟨l, w, hl, hp⟩, ?_⟩
      rintro ⟨l', w', hl', -, hle⟩
      obtain rfl := Option.some.inj (hl ▸ hl')
      exact absurd hle (not_le.2 hlt)
    · rintro ⟨⟨l, w, hl, hp⟩, hno⟩
      exact ⟨l, w, hl, hp, not_le.1 fun hle ↦ hno ⟨l, w, hl, hp, hle⟩⟩
  · rw [TimerQueue.nextTimeout_eq_zero_iff, Ne, Ne, List.map_eq_nil_iff]

/-- Two timers that are due, one that is not, and one that has been dropped. -/
def fourTimers : List (TimerAct ℕ) :=
  [.create 0 (.timer (.at_ 9)), .create 1 (.timer (.at_ 5)), .create 2 (.timer (.at_ 7)),
    .create 3 (.timer (.at_ 6)), .poll 0 1 70, .poll 1 1 71, .poll 2 2 72, .poll 3 2 73, .drop 3]

theorem wait_fires_due_fourTimers :
    ∃ s t, TimerState.machine.run .init fourTimers = some s ∧ s.step (.wait 8) = some t ∧
      (s.queue.clearExpired 8).1 = [71, 72] ∧
      ∃ names : List ℕ, List.Forall₂ (fun i w ↦ ∃ l, s.live i = some l ∧ l.PendingWith w) names
        (s.queue.clearExpired 8).1 := by
  have hrun : ((TimerState.machine.run .init fourTimers).map fun s ↦
      (s.queue.clearExpired 8).1) = some [71, 72] := by decide
  obtain ⟨s, hs, hwoken⟩ := Option.map_eq_some_iff.1 hrun
  have hclock : s.clock ≤ 8 := by
    have hle : ((TimerState.machine.run .init fourTimers).all fun s ↦ s.clock ≤ 8) = true := by
      decide
    simpa [hs] using hle
  obtain ⟨t, ht⟩ : ∃ t, s.step (.wait 8) = some t := ⟨_, if_pos hclock⟩
  obtain ⟨names, -, -, hnames, -⟩ := wait_fires_due hs ht
  exact ⟨s, t, hs, ht, hwoken, names, hnames⟩

end LocalRuntime
