import LocalRuntime.Basic
import LocalRuntime.Lib.BTreeMap

/-!
# The timer queue

`TimerQueue` of `src/time.rs`: the wakers of the pending timers, ordered by expiry, each entry keyed
by the pair of its expiry and an ID handed out by a wrapping counter.

`register` is a retry loop over a cyclic ID space. It is modelled with one unit of fuel per turn and
`USIZE_MAX` units in all: after `USIZE_MAX` collisions the counter is back where it started with the
map unchanged, so running out of fuel is exactly the loop never ending. What a successful call does
is `register_eq_some`; that it succeeds whenever fewer than `USIZE_MAX` entries with its expiry
exist is `exists_register_eq_some`, by counting the IDs a failing loop has seen.
-/

namespace LocalRuntime

/-- A non-zero `usize`. -/
abbrev Id := {n : ℕ // 0 < n ∧ n ≤ USIZE_MAX}

namespace Id

/-- The first ID. -/
def one : Id := ⟨1, by decide⟩

/-- The next ID, wrapping back around to 1 on overflow. -/
def overflowingIncr (id : Id) : Id :=
  if h : id.1 + 1 ≤ USIZE_MAX then ⟨id.1 + 1, Nat.succ_pos _, h⟩ else one

theorem val_overflowingIncr (id : Id) : (overflowingIncr id).1 = id.1 % USIZE_MAX + 1 := by
  obtain ⟨n, hpos, hle⟩ := id
  unfold overflowingIncr
  split
  next h =>
    have hlt : n < USIZE_MAX := h
    rw [Nat.mod_eq_of_lt hlt]
  next h =>
    have hge : ¬ n < USIZE_MAX := h
    obtain rfl : n = USIZE_MAX := by omega
    simp [one]

/-- The ID that `j` increments lead to. -/
theorem val_iterate_overflowingIncr (id : Id) (j : ℕ) :
    (overflowingIncr^[j] id).1 = (id.1 - 1 + j) % USIZE_MAX + 1 := by
  induction j with
  | zero =>
    obtain ⟨n, hpos, hle⟩ := id
    show n = (n - 1) % USIZE_MAX + 1
    rw [Nat.mod_eq_of_lt (by omega)]
    omega
  | succ j ih =>
    rw [Function.iterate_succ_apply', val_overflowingIncr, ih, Nat.mod_add_mod]
    congr 2

/-- The first `USIZE_MAX` IDs of the cycle are distinct. -/
theorem iterate_overflowingIncr_injOn (id : Id) {i j : ℕ} (hi : i < USIZE_MAX)
    (hj : j < USIZE_MAX) (h : overflowingIncr^[i] id = overflowingIncr^[j] id) : i = j := by
  have hval := congrArg Subtype.val h
  rw [val_iterate_overflowingIncr, val_iterate_overflowingIncr] at hval
  have hmod : id.1 - 1 + i ≡ id.1 - 1 + j [MOD USIZE_MAX] := Nat.succ_injective hval
  have := Nat.ModEq.add_left_cancel' _ hmod
  rwa [Nat.ModEq, Nat.mod_eq_of_lt hi, Nat.mod_eq_of_lt hj] at this

end Id

/-- The key of a timer: ordered by expiry first, then by ID. -/
abbrev TimerKey := Instant ×ₗ Id

/-- The key of a timer with the given expiry and ID. -/
def timerKey (expiry : Instant) (id : Id) : TimerKey := toLex (expiry, id)

theorem timerKey_inj {e e' : Instant} {i i' : Id} :
    timerKey e i = timerKey e' i' ↔ e = e' ∧ i = i' := by
  rw [timerKey, timerKey, toLex_inj, Prod.mk.injEq]

/-- The expiry of a key. -/
def TimerKey.expiry (k : TimerKey) : Instant := (ofLex k).1

theorem TimerKey.expiry_mono {k k' : TimerKey} (h : k ≤ k') : k.expiry ≤ k'.expiry := by
  rcases Prod.Lex.le_iff.1 h with hlt | ⟨heq, -⟩
  · exact hlt.le
  · exact heq.le

/-- The queue of the pending timers, with wakers `W`. -/
structure TimerQueue (W : Type*) where
  /-- The ID that the next registration tries first. -/
  currentId : Id
  /-- The waker of each pending timer. -/
  timers : BTreeMap TimerKey W

namespace TimerQueue

variable {W : Type*}

/-- The empty queue. -/
def new : TimerQueue W := ⟨Id.one, ∅⟩

/-- The retry loop of `register`. On a collision the displaced waker is put back, which hands the
new waker out again, and the next ID is tried. -/
def registerLoop (expiry : Instant) : ℕ → TimerQueue W → W → Option (Id × TimerQueue W)
  | 0, _, _ => none
  | fuel + 1, q, waker =>
    let id := q.currentId
    let next := Id.overflowingIncr id
    match q.timers.replace (timerKey expiry id) waker with
    | (none, timers) => some (id, ⟨next, timers⟩)
    | (some prevWaker, timers) =>
      match timers.replace (timerKey expiry id) prevWaker with
      | (none, _) => none
      | (some waker, timers) => registerLoop expiry fuel ⟨next, timers⟩ waker

/-- Register a new timer with its waker, returning its ID. -/
def register (q : TimerQueue W) (expiry : Instant) (waker : W) : Option (Id × TimerQueue W) :=
  registerLoop expiry USIZE_MAX q waker

/-- Modify the waker of an existing timer. For a timer that does not exist the queue is left as it
is and the text that is logged is returned. -/
def modify (q : TimerQueue W) (id : Id) (expiry : Instant) (waker : W) :
    TimerQueue W × Option String :=
  match q.timers[timerKey expiry id]? with
  | some _ => ({ q with timers := q.timers.insert (timerKey expiry id) waker }, none)
  | none => (q, some s!"Modifying non-existent timer ID = {id.val}")

/-- Remove a timer from the queue before it expires. -/
def cancel (q : TimerQueue W) (id : Id) (expiry : Instant) : TimerQueue W :=
  { q with timers := q.timers.erase (timerKey expiry id) }

/-- The time left until the first timer expires, zero once it has. -/
def nextTimeout (q : TimerQueue W) (now : Instant) : Option Duration :=
  q.timers.firstKeyValue.map fun entry ↦ entry.1.expiry - now

/-- The loop of `clearExpired`, with one unit of fuel per entry. -/
def clearExpiredLoop (now : Instant) : ℕ → TimerQueue W → List W × TimerQueue W
  | 0, q => ([], q)
  | fuel + 1, q =>
    match q.timers.firstKeyValue with
    | none => ([], q)
    | some (key, waker) =>
      if key.expiry ≤ now then
        let rest := clearExpiredLoop now fuel { q with timers := q.timers.erase key }
        (waker :: rest.1, rest.2)
      else ([], q)

/-- Remove all expired entries, returning the wakers that are invoked. -/
def clearExpired (q : TimerQueue W) (now : Instant) : List W × TimerQueue W :=
  clearExpiredLoop now q.timers.size q

/-! ### Registration -/

/-- One turn of the loop that finds its key free. -/
theorem registerLoop_of_free {expiry : Instant} {fuel : ℕ} {q : TimerQueue W} {waker : W}
    (h : q.timers[timerKey expiry q.currentId]? = none) :
    registerLoop expiry (fuel + 1) q waker =
      some (q.currentId, ⟨Id.overflowingIncr q.currentId,
        q.timers.insert (timerKey expiry q.currentId) waker⟩) := by
  rw [registerLoop]
  simp only [BTreeMap.replace, h]

/-- The map after a turn that collided: the displaced waker is back in its place. -/
def restored (q : TimerQueue W) (expiry : Instant) (waker prevWaker : W) : TimerQueue W :=
  ⟨Id.overflowingIncr q.currentId,
    (q.timers.insert (timerKey expiry q.currentId) waker).insert (timerKey expiry q.currentId)
      prevWaker⟩

theorem registerLoop_of_taken {expiry : Instant} {fuel : ℕ} {q : TimerQueue W} {waker prev : W}
    (h : q.timers[timerKey expiry q.currentId]? = some prev) :
    registerLoop expiry (fuel + 1) q waker =
      registerLoop expiry fuel (restored q expiry waker prev) waker := by
  have hback : (q.timers.insert (timerKey expiry q.currentId) waker)[timerKey expiry
      q.currentId]? = some waker := by
    rw [BTreeMap.getElem?_insert, if_pos rfl]
  rw [registerLoop]
  simp only [BTreeMap.replace, h, hback]
  rfl

/-- **The restore is exact**: no lookup can tell that there was a collision. -/
theorem getElem?_restored {expiry : Instant} {q : TimerQueue W} {waker prev : W}
    (h : q.timers[timerKey expiry q.currentId]? = some prev) (k : TimerKey) :
    (restored q expiry waker prev).timers[k]? = q.timers[k]? :=
  BTreeMap.getElem?_insert_insert_of_eq_some h waker k

/-- **What registration does.** The key it picks was free, and the new map is the old one with the
waker added under that key. -/
theorem registerLoop_eq_some {expiry : Instant} {fuel : ℕ} {q q' : TimerQueue W} {waker : W}
    {id : Id} (h : registerLoop expiry fuel q waker = some (id, q')) :
    q.timers[timerKey expiry id]? = none ∧
      ∀ k, q'.timers[k]? = if k = timerKey expiry id then some waker else q.timers[k]? := by
  induction fuel generalizing q with
  | zero => cases h
  | succ fuel ih =>
    rcases hk : q.timers[timerKey expiry q.currentId]? with - | prev
    · rw [registerLoop_of_free hk] at h
      cases h
      exact ⟨hk, fun k ↦ BTreeMap.getElem?_insert _ _ _⟩
    · rw [registerLoop_of_taken hk] at h
      obtain ⟨hfree, hmap⟩ := ih h
      rw [getElem?_restored hk] at hfree
      refine ⟨hfree, fun k ↦ ?_⟩
      rw [hmap k, getElem?_restored hk]

theorem register_eq_some {q q' : TimerQueue W} {expiry : Instant} {waker : W} {id : Id}
    (h : q.register expiry waker = some (id, q')) :
    q.timers[timerKey expiry id]? = none ∧
      ∀ k, q'.timers[k]? = if k = timerKey expiry id then some waker else q.timers[k]? :=
  registerLoop_eq_some h

/-- A loop that runs out of fuel has found every ID it tried taken. -/
theorem mem_of_registerLoop_eq_none {expiry : Instant} {fuel : ℕ} {q : TimerQueue W} {waker : W}
    (h : registerLoop expiry fuel q waker = none) {j : ℕ} (hj : j < fuel) :
    timerKey expiry (Id.overflowingIncr^[j] q.currentId) ∈ q.timers := by
  induction fuel generalizing q j with
  | zero => omega
  | succ fuel ih =>
    rcases hk : q.timers[timerKey expiry q.currentId]? with - | prev
    · rw [registerLoop_of_free hk] at h
      cases h
    · rw [BTreeMap.mem_iff_exists]
      rcases j with - | j
      · exact ⟨prev, hk⟩
      · rw [registerLoop_of_taken hk] at h
        obtain ⟨w, hw⟩ := BTreeMap.mem_iff_exists.1 (ih h (by omega : j < fuel))
        rw [getElem?_restored hk] at hw
        exact ⟨w, hw⟩

/-- Once the loop has returned, more turns would change nothing. -/
theorem registerLoop_mono {expiry : Instant} {fuel fuel' : ℕ} {q : TimerQueue W} {waker : W}
    {r : Id × TimerQueue W} (h : registerLoop expiry fuel q waker = some r) (hle : fuel ≤ fuel') :
    registerLoop expiry fuel' q waker = some r := by
  induction fuel generalizing q fuel' with
  | zero => cases h
  | succ fuel ih =>
    obtain ⟨fuel', rfl⟩ : ∃ n, fuel' = n + 1 := ⟨fuel' - 1, by omega⟩
    rcases hk : q.timers[timerKey expiry q.currentId]? with - | prev
    · rw [registerLoop_of_free hk] at h ⊢
      exact h
    · rw [registerLoop_of_taken hk] at h ⊢
      exact ih h (by omega)

/-- The number of pending timers with a given expiry. -/
def entriesAt (q : TimerQueue W) (expiry : Instant) : ℕ :=
  q.timers.keys.countP fun k ↦ k.expiry = expiry

theorem entriesAt_le_size (q : TimerQueue W) (expiry : Instant) :
    q.entriesAt expiry ≤ q.timers.size := by
  rw [← Std.TreeMap.length_keys]
  exact List.countP_le_length

/-- **Registration returns** while fewer than `USIZE_MAX` timers with its expiry are pending. A loop
that ran out of fuel has collided with `USIZE_MAX` distinct keys, and they all have that expiry. -/
theorem exists_register_eq_some (q : TimerQueue W) (expiry : Instant) (waker : W)
    (h : q.entriesAt expiry < USIZE_MAX) : ∃ id q', q.register expiry waker = some (id, q') := by
  rcases hr : q.register expiry waker with - | ⟨id, q'⟩
  · exfalso
    set keys := (List.range USIZE_MAX).map fun j ↦
      timerKey expiry (Id.overflowingIncr^[j] q.currentId) with hkeys
    have hnd : keys.Nodup := by
      refine List.Nodup.map_on (fun i hi j hj hij ↦ ?_) List.nodup_range
      exact Id.iterate_overflowingIncr_injOn q.currentId (List.mem_range.1 hi)
        (List.mem_range.1 hj) (timerKey_inj.1 hij).2
    have hmem : ∀ k ∈ keys, k ∈ q.timers ∧ decide (k.expiry = expiry) := by
      intro k hk
      obtain ⟨j, hj, rfl⟩ := List.mem_map.1 hk
      exact ⟨mem_of_registerLoop_eq_none hr (List.mem_range.1 hj), decide_eq_true rfl⟩
    have hlen : keys.length ≤ q.entriesAt expiry := BTreeMap.length_le_countP_keys hnd hmem
    rw [hkeys, List.length_map, List.length_range] at hlen
    omega
  · exact ⟨id, q', rfl⟩

/-- **Registration ends and overwrites nothing.** At an expiry with fewer than `USIZE_MAX` entries
the retry loop returns, however many turns it is given beyond `USIZE_MAX`; its ID is not zero, its
key was free, and the map is the old one with the waker added under that key. -/
theorem register_ends_and_overwrites_nothing (q : TimerQueue W) (expiry : Instant) (waker : W)
    (h : q.entriesAt expiry < USIZE_MAX) :
    ∃ (id : Id) (q' : TimerQueue W), q.register expiry waker = some (id, q') ∧
      (∀ fuel, USIZE_MAX ≤ fuel → registerLoop expiry fuel q waker = some (id, q')) ∧
      id.1 ≠ 0 ∧ q.timers[timerKey expiry id]? = none ∧
      ∀ k, q'.timers[k]? = if k = timerKey expiry id then some waker else q.timers[k]? := by
  obtain ⟨id, q', hreg⟩ := q.exists_register_eq_some expiry waker h
  obtain ⟨hfree, hmap⟩ := register_eq_some hreg
  refine ⟨id, q', hreg, fun fuel hfuel ↦ registerLoop_mono hreg hfuel, ?_, hfree, hmap⟩
  have hpos := id.2.1
  omega

/-- A queue about to wrap around, with the last ID already taken at expiry 7. -/
def aboutToWrap : TimerQueue ℕ :=
  ⟨⟨USIZE_MAX, by decide⟩, (∅ : BTreeMap TimerKey ℕ).insert (timerKey 7 ⟨USIZE_MAX, by decide⟩) 40⟩

/-- The registration collides, restores the waker of the other timer, and takes ID 1. -/
theorem register_ends_and_overwrites_nothing_aboutToWrap :
    aboutToWrap.entriesAt 7 < USIZE_MAX ∧
      ∃ (id : Id) (q' : TimerQueue ℕ), aboutToWrap.register 7 41 = some (id, q') ∧
        (∀ fuel, USIZE_MAX ≤ fuel → registerLoop 7 fuel aboutToWrap 41 = some (id, q')) ∧
        id.1 ≠ 0 ∧ aboutToWrap.timers[timerKey 7 id]? = none ∧
        ∀ k, q'.timers[k]? = if k = timerKey 7 id then some 41 else aboutToWrap.timers[k]? := by
  have h : aboutToWrap.entriesAt 7 < USIZE_MAX := by
    have hle := aboutToWrap.entriesAt_le_size 7
    have hsize : aboutToWrap.timers.size = 1 := rfl
    have hmax : 1 < USIZE_MAX := by decide
    omega
  exact ⟨h, register_ends_and_overwrites_nothing aboutToWrap 7 41 h⟩

/-! ### The other operations -/

theorem getElem?_cancel (q : TimerQueue W) (id : Id) (expiry : Instant) (k : TimerKey) :
    (q.cancel id expiry).timers[k]? = if k = timerKey expiry id then none else q.timers[k]? :=
  BTreeMap.getElem?_erase _ _

/-- Modifying a timer that exists replaces its waker and logs nothing. -/
theorem modify_of_mem {q : TimerQueue W} {id : Id} {expiry : Instant} {waker w : W}
    (h : q.timers[timerKey expiry id]? = some w) :
    (q.modify id expiry waker).2 = none ∧ ∀ k, (q.modify id expiry waker).1.timers[k]? =
      if k = timerKey expiry id then some waker else q.timers[k]? := by
  simp only [modify, h, true_and]
  exact fun k ↦ BTreeMap.getElem?_insert _ _ _

theorem getElem?_clearExpiredLoop {now : Instant} {fuel : ℕ} {q : TimerQueue W}
    (hfuel : q.timers.size ≤ fuel) (k : TimerKey) :
    (clearExpiredLoop now fuel q).2.timers[k]? =
      if k.expiry ≤ now then none else q.timers[k]? := by
  induction fuel generalizing q with
  | zero =>
    rw [clearExpiredLoop]
    rcases hk : q.timers[k]? with - | w
    · exact (ite_self _).symm
    · have := BTreeMap.size_erase_lt hk
      omega
  | succ fuel ih =>
    rw [clearExpiredLoop]
    rcases hfirst : q.timers.firstKeyValue with - | ⟨key, waker⟩
    · rw [BTreeMap.firstKeyValue_eq_none hfirst k]
      exact (ite_self _).symm
    · obtain ⟨hkey, hle⟩ := BTreeMap.firstKeyValue_eq_some hfirst
      by_cases hexp : key.expiry ≤ now
      · have hsize := BTreeMap.size_erase_lt hkey
        simp only [hexp, if_true]
        rw [ih (by show (q.timers.erase key).size ≤ fuel; omega)]
        show (if _ then _ else (q.timers.erase key)[k]?) = _
        rw [BTreeMap.getElem?_erase]
        by_cases hk : k = key
        · simp [hk, hexp]
        · simp [hk]
      · -- the first entry is not due, so no entry is
        simp only [hexp, if_false]
        split
        next hdue =>
          rcases hk : q.timers[k]? with - | w
          · rfl
          · exact absurd ((TimerKey.expiry_mono (hle k w hk)).trans hdue) hexp
        next => rfl

/-- **Clearing removes exactly the expired entries.** -/
theorem getElem?_clearExpired (q : TimerQueue W) (now : Instant) (k : TimerKey) :
    (q.clearExpired now).2.timers[k]? = if k.expiry ≤ now then none else q.timers[k]? :=
  getElem?_clearExpiredLoop le_rfl k

end TimerQueue

end LocalRuntime
