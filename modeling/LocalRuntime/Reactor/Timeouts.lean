import LocalRuntime.Reactor.Unix

/-!
# How tightly timeouts are rounded

A timeout must not be shorter than the duration asked for, and should be no longer than the unit of
the backend forces it to be. `waits` is the set of admissible waits in a unit, and the duration
divided by the unit and rounded up is its least element (`isLeast_waits`).

Neither backend reaches it everywhere. `PollTimeout` adds a millisecond to every positive duration,
also to one that is a whole number of milliseconds already (`PollTimeout.timeout_of_pos`), and
`TimerFd` takes the maximum with one nanosecond on the sub-second part alone, so that it also adds a
nanosecond to whole seconds (`TimerFd.itValue_eq`). `timeouts_tight_iff` says where exactly they are
tight.
-/

namespace LocalRuntime

/-- The waits of whole units of `unit` nanoseconds that are not shorter than `d`, and positive when
`d` is. -/
def waits (unit : ℕ) (d : Duration) : Set ℕ := {n | d ≤ unit * n ∧ (0 < d → 0 < n)}

/-- **Rounding up gives the least wait.** -/
theorem isLeast_waits {unit : ℕ} (hunit : 0 < unit) (d : Duration) :
    IsLeast (waits unit d) (d ⌈/⌉ unit) := by
  have hle : d ≤ unit * (d ⌈/⌉ unit) := (ceilDiv_le_iff_le_mul hunit).1 le_rfl
  refine ⟨⟨hle, fun hd ↦ ?_⟩, fun n hn ↦ (ceilDiv_le_iff_le_mul hunit).2 hn.1⟩
  exact Nat.pos_of_mul_pos_left (hd.trans_le hle)

/-- `PollTimeout::set_timeout` returns the milliseconds of the duration rounded up, capped at
`i32::MAX`, and -1 if there is no timeout. -/
def PollTimeout.Tight (duration : Option Duration) : Prop :=
  ∀ (err : Option IoError) (t : PollTimeout), ∃ ms : ℤ,
    (Timeout.setTimeout err t duration).1 = .ok ms ∧
      match duration with
      | none => ms = -1
      | some d => ∃ n : ℕ, IsLeast (waits 1000000 d) n ∧ ms = min (n : ℤ) I32_MAX

/-- `TimerFd::set_timeout` arms the timer with the duration itself, its seconds capped at
`i64::MAX`, with one nanosecond for a duration of zero, and disarms it if there is no timeout. -/
def TimerFd.Tight (duration : Option Duration) : Prop :=
  ∀ t : TimerFd, (Timeout.setTimeout none t duration).2.armed.itValue =
    match duration with
    | none => ⟨0, 0⟩
    | some d => if d = 0 then ⟨0, 1⟩ else ⟨min (asSecs d : ℤ) I64_MAX, subsecNanos d⟩

/-! ### What the backends compute -/

theorem tryIntoOr_eq_min (n : ℕ) (max : ℤ) : tryIntoOr n max = min (n : ℤ) max := by
  rw [tryIntoOr, min_def]

namespace PollTimeout

/-- A positive duration gets one millisecond on top of its whole milliseconds. -/
theorem timeout_of_pos {d : Duration} (hd : 0 < d) :
    timeout (some d) = min ((asMillis d : ℤ) + 1) I32_MAX := by
  have htimeout : timeout (some d) = min (tryIntoOr (asMillis d) I32_MAX + 1) I32_MAX := by
    rw [timeout, Option.map_some, Option.getD_some, if_pos hd]
  rw [htimeout, tryIntoOr_eq_min]
  omega

/-- The milliseconds of a duration rounded up. -/
theorem ceilDiv_million (d : ℕ) :
    d ⌈/⌉ 1000000 = if d % 1000000 = 0 then asMillis d else asMillis d + 1 := by
  rw [Nat.ceilDiv_eq_add_pred_div, asMillis]
  split <;> omega

/-- The cap hides the extra millisecond. -/
theorem timeout_eq_iff {d : Duration} :
    timeout (some d) = min ((d ⌈/⌉ 1000000 : ℕ) : ℤ) I32_MAX ↔
      d = 0 ∨ d % 1000000 ≠ 0 ∨ I32_MAX ≤ asMillis d := by
  rcases Nat.eq_zero_or_pos d with rfl | hd
  · exact ⟨fun _ ↦ Or.inl rfl, fun _ ↦ by decide⟩
  · rw [timeout_of_pos hd, ceilDiv_million]
    by_cases hwhole : d % 1000000 = 0
    · rw [if_pos hwhole]
      have hne : d ≠ 0 := hd.ne'
      constructor
      · intro heq
        exact Or.inr (Or.inr (by omega))
      · rintro (h | h | hcap)
        · exact absurd h hne
        · exact absurd hwhole h
        · omega
    · rw [if_neg hwhole]
      exact ⟨fun _ ↦ Or.inr (Or.inl hwhole), fun _ ↦ by push_cast; rfl⟩

theorem tight_iff (duration : Option Duration) :
    Tight duration ↔ ∀ d ∈ duration, d = 0 ∨ d % 1000000 ≠ 0 ∨ I32_MAX ≤ asMillis d := by
  rcases duration with - | d
  · exact ⟨fun _ d hd ↦ absurd hd (Option.not_mem_none d), fun _ err t ↦ ⟨-1, rfl, rfl⟩⟩
  · have hleast := isLeast_waits (by decide : 0 < 1000000) d
    have hmem : (∀ e ∈ some d, e = 0 ∨ e % 1000000 ≠ 0 ∨ I32_MAX ≤ asMillis e) ↔
        timeout (some d) = min ((d ⌈/⌉ 1000000 : ℕ) : ℤ) I32_MAX := by
      simp only [timeout_eq_iff, Option.mem_def, Option.some.injEq, forall_eq']
    rw [hmem]
    constructor
    · intro htight
      obtain ⟨ms, hms, n, hn, heq⟩ := htight none .mk
      obtain rfl : timeout (some d) = ms := Except.ok.inj hms
      rw [heq, hn.unique hleast]
    · intro heq err t
      exact ⟨timeout (some d), rfl, d ⌈/⌉ 1000000, hleast, heq⟩

end PollTimeout

namespace TimerFd

/-- The timer is armed with the duration, except that the nanoseconds are never zero. -/
theorem itValue_eq (d : Duration) :
    (itimerspec (some d)).itValue =
      ⟨min (asSecs d : ℤ) I64_MAX, ((max (subsecNanos d) 1 : ℕ) : ℤ)⟩ := by
  rw [← tryIntoOr_eq_min]
  rfl

theorem tight_iff (duration : Option Duration) :
    Tight duration ↔ ∀ d ∈ duration, d = 0 ∨ subsecNanos d ≠ 0 := by
  rcases duration with - | d
  · exact ⟨fun _ d hd ↦ absurd hd (Option.not_mem_none d), fun _ _ ↦ rfl⟩
  · have harmed : ∀ t : TimerFd, (Timeout.setTimeout none t (some d)).2.armed.itValue =
        ⟨min (asSecs d : ℤ) I64_MAX, ((max (subsecNanos d) 1 : ℕ) : ℤ)⟩ := fun _ ↦ itValue_eq d
    simp only [Option.mem_def, Option.some.injEq, forall_eq']
    by_cases hd : d = 0
    · subst hd
      refine ⟨fun _ ↦ Or.inl rfl, fun _ t ↦ ?_⟩
      rw [harmed]
      rfl
    · simp only [Tight, harmed, hd, if_false, Timespec.mk.injEq, true_and, false_or]
      -- the sub-second part is kept exactly when the maximum does not replace it
      have hmax : ((max (subsecNanos d) 1 : ℕ) : ℤ) = (subsecNanos d : ℤ) ↔ subsecNanos d ≠ 0 := by
        omega
      rw [hmax]
      exact ⟨fun h ↦ h ⟨0, itimerspec none⟩, fun h _ ↦ h⟩

end TimerFd

/-- **Where the timeouts are tight.** `PollTimeout` rounds up tightly exactly when there is no
duration, the duration is zero or not a whole number of milliseconds, or the cap is reached without
the extra millisecond; `TimerFd` is armed tightly exactly when there is no duration, or it is zero
or not a whole number of seconds. -/
theorem timeouts_tight_iff (duration : Option Duration) :
    (PollTimeout.Tight duration ↔
      ∀ d ∈ duration, d = 0 ∨ d % 1000000 ≠ 0 ∨ I32_MAX ≤ asMillis d) ∧
      (TimerFd.Tight duration ↔ ∀ d ∈ duration, d = 0 ∨ subsecNanos d ≠ 0) :=
  ⟨PollTimeout.tight_iff duration, TimerFd.tight_iff duration⟩

/-- A whole millisecond makes `PollTimeout` wait for two, and a whole second makes `TimerFd` wait
one nanosecond longer. -/
theorem whole_units_not_tight :
    PollTimeout.timeout (some 1000000) = 2 ∧ ¬ PollTimeout.Tight (some 1000000) ∧
      (TimerFd.itimerspec (some 1000000000)).itValue = ⟨1, 1⟩ ∧
      ¬ TimerFd.Tight (some 1000000000) := by
  refine ⟨by decide, ?_, by decide, ?_⟩
  · rw [PollTimeout.tight_iff]
    exact fun h ↦ absurd (h 1000000 rfl) (by decide)
  · rw [TimerFd.tight_iff]
    exact fun h ↦ absurd (h 1000000000 rfl) (by decide)

end LocalRuntime
