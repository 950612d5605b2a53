import LocalRuntime.Reactor.Unix

/-!
# Waiting for events

What `Reactor::wait` does with the answer of `poll(2)`, for the Unix poller.

## The poller's own descriptors

The poller yields every ready entry of its array, and its own descriptors sit in that array. They
are left out only when nothing else is ready; when the notifier or the timer fires in the same call
as an event source, they come out among the sources, and `wait` unwraps the missing entry of its
map. `poll_meets_iff` says that this coincidence is the **only** way for the poller to yield
something other than the ready sources, and the only way for `wait` to panic.

## The branch without a poll

A `wait` that finds a timer due or a notification pending does not call the poller. It does nothing
about I/O, and so does what a poll with a zero timeout would have done exactly when nothing that is
waited on is ready (`wait_agrees_iff`); what is ready stays enabled for a later `wait` that does
call the poller.
-/

namespace LocalRuntime

variable {P N T W : Type}

/-! ### Delivering reports -/

namespace Reactor

variable {sources : EventSources W}

/-- Delivery goes through exactly when every reported source is registered. -/
theorem deliver_eq_ok_iff {l : List (Source × Filter)} :
    (deliver l sources).1 = .ok () ↔ ∀ p ∈ l, p.1 ∈ sources := by
  induction l generalizing sources with
  | nil => simp [deliver]
  | cons p l ih =>
    obtain ⟨s, f⟩ := p
    rw [deliver, List.forall_mem_cons]
    rcases hs : sources[s]? with - | d
    · simp only [reduceCtorEq, false_iff, not_and]
      intro hmem
      obtain ⟨d, hd⟩ := BTreeMap.mem_iff_exists.1 hmem
      rw [hs] at hd
      cases hd
    · have hmem : s ∈ sources := BTreeMap.mem_iff_exists.2 ⟨d, hs⟩
      -- updating a registered source registers nothing new
      have hiff : ∀ a, a ∈ sources.insert s (d.report f).2 ↔ a ∈ sources := by
        intro a
        rw [BTreeMap.mem_iff_exists, BTreeMap.mem_iff_exists, BTreeMap.getElem?_insert]
        split
        next ha => simp [ha, hs]
        next => rfl
      simp only [ih, hiff, hmem, true_and]

/-- Delivery that fails is a panic. -/
theorem deliver_eq_error {l : List (Source × Filter)} {fault : Fault}
    (h : (deliver l sources).1 = .error fault) : ∃ msg, fault = .panic msg := by
  induction l generalizing sources with
  | nil => cases h
  | cons p l ih =>
    rw [deliver] at h
    rcases hs : sources[p.1]? with - | d
    · rw [hs] at h
      cases h
      exact ⟨_, rfl⟩
    · rw [hs] at h
      exact ih h

/-- A report that names no enabled direction is delivered to no one and changes nothing. -/
theorem deliver_of_not_hits {l : List (Source × Filter)}
    (h : ∀ p ∈ l, ∀ d, sources[p.1]? = some d → ¬ d.Hits p.2) :
    (deliver l sources).2.1 = [] ∧ ∀ a : Source, (deliver l sources).2.2[a]? = sources[a]? := by
  induction l generalizing sources with
  | nil => exact ⟨rfl, fun _ ↦ rfl⟩
  | cons p l ih =>
    obtain ⟨s, f⟩ := p
    rw [deliver]
    rcases hs : sources[s]? with - | d
    · exact ⟨rfl, fun _ ↦ rfl⟩
    · have hrep := EventData.report_of_not_hits (h (s, f) List.mem_cons_self d hs)
      have hsame : ∀ a : Source, (sources.insert s d)[a]? = sources[a]? :=
        BTreeMap.getElem?_insert_of_eq_some hs
      have hrest : ∀ p ∈ l, ∀ d', (sources.insert s d)[p.1]? = some d' → ¬ d'.Hits p.2 :=
        fun p hp d' hd' ↦ h p (List.mem_cons_of_mem _ hp) d' ((hsame _).symm.trans hd')
      obtain ⟨hnil, hget⟩ := ih hrest
      simp only [hrep, List.nil_append]
      exact ⟨hnil, fun a ↦ (hget a).trans (hsame a)⟩

/-- A report for a registered source that names an enabled direction reaches somebody, if no
unregistered source comes before it. -/
theorem deliver_of_hits {l rest : List (Source × Filter)} (hreg : ∀ p ∈ l, p.1 ∈ sources)
    (h : ∃ p ∈ l, ∃ d, sources[p.1]? = some d ∧ d.Hits p.2) :
    (deliver (l ++ rest) sources).2.1 ≠ [] := by
  induction l generalizing sources with
  | nil => obtain ⟨p, hp, -⟩ := h; cases hp
  | cons p l ih =>
    obtain ⟨s, f⟩ := p
    obtain ⟨d, hs⟩ := BTreeMap.mem_iff_exists.1 (hreg (s, f) List.mem_cons_self)
    rw [List.cons_append, deliver]
    simp only [hs]
    by_cases hhit : d.Hits f
    · exact fun hnil ↦ EventData.report_of_hits hhit (List.append_eq_nil_iff.1 hnil).1
    · -- the head changes nothing, so the hit is still ahead
      have hsame : ∀ a : Source, (sources.insert s d)[a]? = sources[a]? :=
        BTreeMap.getElem?_insert_of_eq_some hs
      rw [EventData.report_of_not_hits hhit, List.nil_append]
      refine ih (fun q hq ↦ ?_) ?_
      · rw [BTreeMap.mem_iff_exists, hsame, ← BTreeMap.mem_iff_exists]
        exact hreg q (List.mem_cons_of_mem _ hq)
      · obtain ⟨q, hq, d', hd', hq'⟩ := h
        rcases List.mem_cons.1 hq with rfl | hq
        · rw [hs] at hd'
          cases hd'
          exact absurd hq' hhit
        · exact ⟨q, hq, d', (hsame _).trans hd', hq'⟩

end Reactor

/-! ### The poller's own descriptors -/

namespace PollPoller

/-- Some event source was polled and has returned events. -/
def SourceReady (revents : Source → PollFlags) (srcs : List (Source × Filter)) : Prop :=
  ∃ s, (∃ g, (s, g) ∈ srcs ∧ g.pollflags.isEmpty = false) ∧ (revents s).isEmpty = false

/-- The notifier or the timer of the poller has returned events. -/
def OwnReady [Timeout T] (revents : Source → PollFlags) (p : PollPoller T) : Prop :=
  ∃ s, (s = p.notifierFd ∨ Timeout.maybeFd p.timeout = some s) ∧ (revents s).isEmpty = false

/-- What a poll is expected to return: nothing, and then no event source has returned events; or
exactly the event sources with returned events, each once and with its own directions. -/
def Meets (revents : Source → PollFlags) (srcs : List (Source × Filter)) :
    Option (List (Source × Filter)) → Prop
  | none => ¬ SourceReady revents srcs
  | some l =>
    (∀ s f, (s, f) ∈ l ↔ (∃ g, (s, g) ∈ srcs ∧ g.pollflags.isEmpty = false) ∧
      (revents s).isEmpty = false ∧ f = .ofRevents (revents s)) ∧ (l.map Prod.fst).Nodup

/-- The sources that are yielded, as a list. -/
theorem yieldReady_eventFds_eq_nil_iff {revents : Source → PollFlags}
    {srcs : List (Source × Filter)} :
    yieldReady (fill revents (eventFds srcs)) = [] ↔ ¬ SourceReady revents srcs := by
  rw [List.eq_nil_iff_forall_not_mem]
  constructor
  · rintro h ⟨s, hs, hready⟩
    exact h (s, _) (mem_yieldReady_fill.2 ⟨exists_mem_eventFds.2 hs, hready, rfl⟩)
  · rintro h ⟨s, f⟩ hmem
    obtain ⟨hs, hready, -⟩ := mem_yieldReady_fill.1 hmem
    exact h ⟨s, exists_mem_eventFds.1 hs, hready⟩

theorem yieldReady_ownFds_eq_nil_iff [Timeout T] {revents : Source → PollFlags}
    {p : PollPoller T} :
    yieldReady (fill revents (ownFds p.notifierFd p.timeout)) = [] ↔ ¬ OwnReady revents p := by
  rw [List.eq_nil_iff_forall_not_mem]
  constructor
  · rintro h ⟨s, hs, hready⟩
    exact h (s, _) (mem_yieldReady_fill.2 ⟨exists_mem_ownFds.2 hs, hready, rfl⟩)
  · rintro h ⟨s, f⟩ hmem
    obtain ⟨hs, hready, -⟩ := mem_yieldReady_fill.1 hmem
    exact h ⟨s, exists_mem_ownFds.1 hs, hready⟩

/-- **What a poll yields is right exactly when there is no coincidence**, for distinct sources none
of which is the poller's own. -/
theorem meets_iff [Timeout T] {revents : Source → PollFlags} {srcs : List (Source × Filter)}
    {p : PollPoller T} (hnd : (srcs.map Prod.fst).Nodup)
    (hown : ∀ s g, (s = p.notifierFd ∨ Timeout.maybeFd p.timeout = some s) → (s, g) ∉ srcs) :
    Meets revents srcs (yields revents srcs p) ↔
      ¬ (SourceReady revents srcs ∧ OwnReady revents p) := by
  rw [yields]
  split
  next hS =>
    rw [yieldReady_eventFds_eq_nil_iff] at hS
    exact ⟨fun _ h ↦ hS h.1, fun _ ↦ hS⟩
  next hS =>
    rw [yieldReady_eventFds_eq_nil_iff, not_not] at hS
    constructor
    · rintro ⟨hmem, -⟩ ⟨-, s, hs, hready⟩
      have hin := List.mem_append_right (yieldReady (fill revents (eventFds srcs)))
        (mem_yieldReady_fill.2 ⟨exists_mem_ownFds.2 hs, hready, rfl⟩)
      obtain ⟨⟨g, hg, -⟩, -⟩ := (hmem _ _).1 hin
      exact hown s g hs hg
    · intro hno
      have hO : yieldReady (fill revents (ownFds p.notifierFd p.timeout)) = [] :=
        yieldReady_ownFds_eq_nil_iff.2 fun h ↦ hno ⟨hS, h⟩
      rw [hO, List.append_nil]
      refine ⟨fun s f ↦ ?_, nodup_yieldReady_eventFds hnd⟩
      rw [mem_yieldReady_fill, exists_mem_eventFds]

end PollPoller

/-! ### One call of `wait` -/

namespace Reactor

open PollPoller

/-- What the poller is asked about a source is what the source has enabled. -/
theorem mem_filters {r : Reactor P N W} {s : Source} {g : Filter} :
    (s, g) ∈ r.filters ↔ ∃ d, r.eventSources[s]? = some d ∧ d.filter = g := by
  rw [filters, List.mem_map]
  constructor
  · rintro ⟨⟨s', d⟩, hmem, heq⟩
    obtain ⟨rfl, rfl⟩ := Prod.mk.inj heq
    exact ⟨d, BTreeMap.mem_toList_iff.1 hmem, rfl⟩
  · rintro ⟨d, hd, rfl⟩
    exact ⟨(s, d), BTreeMap.mem_toList_iff.2 hd, rfl⟩

theorem nodup_filters (r : Reactor P N W) : (r.filters.map Prod.fst).Nodup := by
  rw [filters, List.map_map]
  exact BTreeMap.nodup_keys_toList

/-- The sources that are yielded are registered. -/
theorem registered_of_yielded {r : Reactor P N W} {revents : Source → PollFlags}
    {p : Source × Filter} (hp : p ∈ yieldReady (fill revents (eventFds r.filters))) :
    p.1 ∈ r.eventSources := by
  obtain ⟨hs, -, -⟩ := mem_yieldReady_fill.1 hp
  obtain ⟨g, hg, -⟩ := exists_mem_eventFds.1 hs
  obtain ⟨d, hd, -⟩ := mem_filters.1 hg
  exact BTreeMap.mem_iff_exists.2 ⟨d, hd⟩

variable [Timeout T] {r : Reactor (PollPoller T) N W} {env : PollEnv}
  {revents : Source → PollFlags}

/-- What comes back from the poller is delivered without a panic exactly when the poller's own
descriptors are not in it. -/
theorem deliver_ready_iff
    (hown : ∀ s, (s = r.poller.notifierFd ∨ Timeout.maybeFd r.poller.timeout = some s) →
      s ∉ r.eventSources) :
    (deliver ((yields revents r.filters r.poller).getD []) r.eventSources).1 = .ok () ↔
      ¬ (SourceReady revents r.filters ∧ OwnReady revents r.poller) := by
  rw [deliver_eq_ok_iff, yields]
  split
  next hS =>
    rw [yieldReady_eventFds_eq_nil_iff] at hS
    exact ⟨fun _ h ↦ hS h.1, fun _ p hp ↦ absurd hp List.not_mem_nil⟩
  next hS =>
    rw [yieldReady_eventFds_eq_nil_iff, not_not] at hS
    rw [Option.getD_some, List.forall_mem_append]
    constructor
    · rintro ⟨-, h⟩ ⟨-, s, hs, hready⟩
      exact hown s hs (h _ (mem_yieldReady_fill.2 ⟨exists_mem_ownFds.2 hs, hready, rfl⟩))
    · intro hno
      have hO := yieldReady_ownFds_eq_nil_iff.2 fun h ↦ hno ⟨hS, h⟩
      refine ⟨fun p hp ↦ registered_of_yielded hp, fun p hp ↦ ?_⟩
      rw [hO] at hp
      cases hp

variable [EventNotifier N]

/-- **`wait` panics exactly on a coincidence** of an event source with one of the poller's own
descriptors, in an iteration that calls the poller. -/
theorem wait_panics_iff {now after : Instant} {clear : Option IoError} (hset : env.settime = none)
    (hans : env.answer = .ok revents)
    (hown : ∀ s, (s = r.poller.notifierFd ∨ Timeout.maybeFd r.poller.timeout = some s) →
      s ∉ r.eventSources) :
    (∃ msg, (r.wait ⟨now, env, after, clear⟩).result = .error (.panic msg)) ↔
      r.skipsPoll now = false ∧ SourceReady revents r.filters ∧ OwnReady revents r.poller := by
  rw [wait]
  split
  next hskip =>
    simp only [cleanUp, reduceCtorEq, exists_false, false_iff, not_and]
    intro h
    rw [hskip] at h
    cases h
  next hskip =>
    rw [Bool.not_eq_true] at hskip
    have hiff : (deliver ((yields revents r.filters r.poller).getD []) r.eventSources).1 = .ok () ↔
        ¬ (SourceReady revents r.filters ∧ OwnReady revents r.poller) := deliver_ready_iff hown
    rcases hpoll : EventPoller.poll env r.poller (r.timerQueue.nextTimeout now) r.filters
      with ⟨res, p⟩
    have hres : res = .ok (yields revents r.filters r.poller) := by
      rw [← poll_eq hset hans r.poller (r.timerQueue.nextTimeout now) r.filters]
      exact (congrArg Prod.fst hpoll).symm
    subst hres
    simp only [waitPolling, hpoll]
    rcases hdel : deliver ((yields revents r.filters r.poller).getD []) r.eventSources
      with ⟨fault | ⟨⟨⟩⟩, woken, sources⟩
    · obtain ⟨msg, rfl⟩ := deliver_eq_error (congrArg Prod.fst hdel)
      rw [hdel] at hiff
      refine ⟨fun _ ↦ ⟨hskip, ?_⟩, fun _ ↦ ⟨msg, rfl⟩⟩
      by_contra hno
      cases hiff.2 hno
    · rw [hdel] at hiff
      simp only [cleanUp, reduceCtorEq, exists_false, false_iff, not_and]
      exact fun _ hS hO ↦ hiff.1 rfl ⟨hS, hO⟩

/-- **The poller and `wait` keep their contract exactly when there is no coincidence.** Whatever the
sources, the filters, the timers and the returned events: the poller yields nothing and no source is
ready, or yields exactly the ready sources, and `wait` does not panic, if and only if no event
source becomes ready together with the notifier or the timer. -/
theorem poll_meets_iff (r : Reactor (PollPoller T) N W) (env : PollEnv)
    (revents : Source → PollFlags) (now after : Instant) (clear : Option IoError)
    (hset : env.settime = none) (hans : env.answer = .ok revents)
    (hown : ∀ s, (s = r.poller.notifierFd ∨ Timeout.maybeFd r.poller.timeout = some s) →
      s ∉ r.eventSources) :
    ((∃ out, (PollPoller.poll env r.poller (r.timerQueue.nextTimeout now) r.filters).1 = .ok out ∧
        Meets revents r.filters out) ∧
      ∀ msg, (r.wait ⟨now, env, after, clear⟩).result ≠ .error (.panic msg)) ↔
    ¬ (SourceReady revents r.filters ∧ OwnReady revents r.poller) := by
  have hfilters : ∀ s g, (s = r.poller.notifierFd ∨ Timeout.maybeFd r.poller.timeout = some s) →
      (s, g) ∉ r.filters := by
    intro s g hs hmem
    obtain ⟨d, hd, -⟩ := mem_filters.1 hmem
    exact hown s hs (BTreeMap.mem_iff_exists.2 ⟨d, hd⟩)
  have hmeets : Meets revents r.filters (yields revents r.filters r.poller) ↔
      ¬ (SourceReady revents r.filters ∧ OwnReady revents r.poller) :=
    meets_iff (nodup_filters r) hfilters
  have hpoll := poll_eq hset hans r.poller (r.timerQueue.nextTimeout now) r.filters
  constructor
  · rintro ⟨⟨out, hout, hmeet⟩, -⟩
    rw [hpoll] at hout
    cases hout
    exact hmeets.1 hmeet
  · intro hno
    refine ⟨⟨_, hpoll, hmeets.2 hno⟩, fun msg hmsg ↦ hno ?_⟩
    exact ((wait_panics_iff hset hans hown).1 ⟨msg, hmsg⟩).2

/-- A reactor with one event source, 5, that is waited on for reading. The notifier is 3 and the
timer is 4. -/
def oneReader : Reactor (PollPoller TimerFd) EventFd ℕ where
  poller := ⟨[], 3, ⟨4, TimerFd.itimerspec none⟩⟩
  eventSources := Std.TreeMap.empty.insert 5 (EventData.default.enable .read 0)
  timerQueue := .new
  notifier := .new ⟨3, 0⟩

/-- The given descriptors are readable. -/
def readable (fds : List Source) : Source → PollFlags :=
  fun s ↦ if s ∈ fds then PollFlags.IN else 0#16

/-- The kernel reports the given descriptors as readable. -/
def readableEnv (fds : List Source) : PollEnv := ⟨none, .ok (readable fds)⟩

/-- The source and the notifier are ready in the same call: the poller yields its own notifier, and
`wait` panics. -/
theorem poll_yields_notifier :
    (∃ out, (PollPoller.poll (readableEnv [5, 3]) oneReader.poller
        (oneReader.timerQueue.nextTimeout 0) oneReader.filters).1 = .ok out ∧
      ¬ Meets (readable [5, 3]) oneReader.filters out) ∧
    (oneReader.wait ⟨0, readableEnv [5, 3], 0, none⟩).result =
      .error (.panic "called `Option::unwrap()` on a `None` value") := by
  refine ⟨⟨some [(5, ⟨true, false⟩), (3, ⟨true, false⟩)], by decide, ?_⟩, by decide⟩
  rintro ⟨hmem, -⟩
  obtain ⟨⟨g, hg, -⟩, -⟩ := (hmem 3 ⟨true, false⟩).1 (by decide)
  obtain ⟨d, hd, -⟩ := mem_filters.1 hg
  exact absurd hd (by rw [show oneReader.eventSources[3]? = none by decide]; nofun)

theorem oneReader_own : ∀ s, (s = oneReader.poller.notifierFd ∨
    Timeout.maybeFd oneReader.poller.timeout = some s) → s ∉ oneReader.eventSources := by
  rintro s (rfl | hs)
  · decide
  · cases hs
    decide

/-- The source alone is ready. -/
theorem poll_meets_iff_oneReader :
    ((∃ out, (PollPoller.poll (readableEnv [5]) oneReader.poller
        (oneReader.timerQueue.nextTimeout 0) oneReader.filters).1 = .ok out ∧
      Meets (readable [5]) oneReader.filters out) ∧
    ∀ msg, (oneReader.wait ⟨0, readableEnv [5], 0, none⟩).result ≠ .error (.panic msg)) ↔
    ¬ (SourceReady (readable [5]) oneReader.filters ∧
      OwnReady (readable [5]) oneReader.poller) :=
  poll_meets_iff oneReader (readableEnv [5]) (readable [5]) 0 0 none rfl rfl oneReader_own

/-! ### The branch without a poll -/

/-- Two outcomes agree on I/O: the same I/O wakers were invoked, and the same directions are left
enabled for the same sources. -/
def Agree (a b : WaitOut P N W) : Prop :=
  a.ioWoken = b.ioWoken ∧
    ∀ s : Source, a.reactor.eventSources[s]?.map EventData.filter =
      b.reactor.eventSources[s]?.map EventData.filter

/-- Nothing that is waited on is ready. -/
def Quiet (revents : Source → PollFlags) (r : Reactor P N W) : Prop :=
  ∀ (s : Source) d, r.eventSources[s]? = some d → ¬ d.Hits (.ofRevents (revents s))

/-- A wait through the poller, in terms of what the poller yields. -/
theorem waitPolling_io {env : WaitEnv (PollPoller T)} {timeout : Option Duration}
    (hset : PollEnv.settime env.poll = none) (hans : PollEnv.answer env.poll = .ok revents) :
    (r.waitPolling env timeout).ioWoken =
        (deliver ((yields revents r.filters r.poller).getD []) r.eventSources).2.1 ∧
      (r.waitPolling env timeout).reactor.eventSources =
        (deliver ((yields revents r.filters r.poller).getD []) r.eventSources).2.2 := by
  rcases hpoll : EventPoller.poll env.poll r.poller timeout r.filters with ⟨res, p⟩
  have hres : res = .ok (yields revents r.filters r.poller) := by
    rw [← poll_eq hset hans r.poller timeout r.filters]
    exact (congrArg Prod.fst hpoll).symm
  subst hres
  simp only [waitPolling, hpoll]
  split
  · exact ⟨rfl, rfl⟩
  · exact ⟨rfl, rfl⟩

omit [EventNotifier N] in
/-- If nothing that is waited on is ready, a poll reaches nobody. -/
theorem deliver_of_quiet (hquiet : Quiet revents r) :
    (deliver ((yields revents r.filters r.poller).getD []) r.eventSources).2.1 = [] ∧
      ∀ s : Source, (deliver ((yields revents r.filters r.poller).getD [])
        r.eventSources).2.2[s]? = r.eventSources[s]? := by
  refine deliver_of_not_hits fun p hp d hd ↦ ?_
  -- whatever is yielded carries the directions of its own returned events
  have hf : p.2 = .ofRevents (revents p.1) := by
    rw [yields] at hp
    split at hp
    · cases hp
    · rcases List.mem_append.1 hp with hp | hp
      · exact (mem_yieldReady_fill.1 hp).2.2
      · exact (mem_yieldReady_fill.1 hp).2.2
  rw [hf]
  exact hquiet p.1 d hd

omit [EventNotifier N] in
/-- A poll that reaches nobody finds nothing ready that is waited on. -/
theorem quiet_of_deliver_eq_nil
    (hnil : (deliver ((yields revents r.filters r.poller).getD []) r.eventSources).2.1 = []) :
    Quiet revents r := by
  intro s d hd hhit
  have hasked : d.filter.pollflags.isEmpty = false := by
    rw [isEmpty_pollflags]
    rcases hhit with ⟨-, he⟩ | ⟨-, he⟩
    · simp [EventData.filter, he]
    · simp [EventData.filter, he]
  have hready : (revents s).isEmpty = false := by
    rcases hhit with ⟨hr, -⟩ | ⟨hw, -⟩
    · exact isEmpty_eq_false_of_intersects hr
    · exact isEmpty_eq_false_of_intersects hw
  have hmem : (s, Filter.ofRevents (revents s)) ∈
      yieldReady (fill revents (eventFds r.filters)) :=
    mem_yieldReady_fill.2
      ⟨exists_mem_eventFds.2 ⟨d.filter, mem_filters.2 ⟨d, hd, rfl⟩, hasked⟩, hready, rfl⟩
  rw [yields, if_neg (List.ne_nil_of_mem hmem), Option.getD_some] at hnil
  exact deliver_of_hits (fun p hp ↦ registered_of_yielded hp) ⟨_, hmem, d, hd, hhit⟩ hnil

/-- **The branch without a poll does nothing about I/O**: it succeeds, invokes no I/O waker and
leaves every event source as it was. That is what a poll with a zero timeout would have done exactly
when nothing that is waited on is ready. -/
theorem wait_agrees_iff (r : Reactor (PollPoller T) N W) (env : WaitEnv (PollPoller T))
    (revents : Source → PollFlags) (hset : PollEnv.settime env.poll = none)
    (hans : PollEnv.answer env.poll = .ok revents) (hskip : r.skipsPoll env.now = true) :
    ((r.wait env).result = .ok () ∧ (r.wait env).ioWoken = [] ∧
      (r.wait env).reactor.eventSources = r.eventSources) ∧
    (Agree (r.wait env) (r.waitPolling env (some 0)) ↔ Quiet revents r) := by
  have hwait : r.wait env = r.cleanUp env [] := if_pos hskip
  obtain ⟨hwoken, hsrc⟩ : (r.waitPolling env (some 0)).ioWoken = _ ∧
      (r.waitPolling env (some 0)).reactor.eventSources = _ := waitPolling_io hset hans
  refine ⟨⟨by rw [hwait]; rfl, by rw [hwait]; rfl, by rw [hwait]; rfl⟩, ?_⟩
  rw [hwait, Agree, hwoken, hsrc]
  constructor
  · rintro ⟨hnil, -⟩
    exact quiet_of_deliver_eq_nil hnil.symm
  · intro hquiet
    obtain ⟨hnil, hget⟩ := deliver_of_quiet hquiet
    exact ⟨hnil.symm, fun s ↦ congrArg _ (hget s).symm⟩

/-- The same reactor, with a notification. -/
def notifiedReader : Reactor (PollPoller TimerFd) EventFd ℕ :=
  { oneReader with notifier := oneReader.notifier.setToNotified }

/-- The source is readable, but a notification keeps `wait` from asking: nobody is woken, where a
poll with a zero timeout would have woken the reader. -/
theorem wait_skips_reader :
    notifiedReader.skipsPoll 0 = true ∧
    (notifiedReader.wait ⟨0, readableEnv [5], 0, none⟩).ioWoken = [] ∧
    (notifiedReader.waitPolling ⟨0, readableEnv [5], 0, none⟩ (some 0)).ioWoken = [0] ∧
    ¬ Agree (notifiedReader.wait ⟨0, readableEnv [5], 0, none⟩)
      (notifiedReader.waitPolling ⟨0, readableEnv [5], 0, none⟩ (some 0)) := by
  refine ⟨by decide, by decide, by decide, ?_⟩
  rintro ⟨hwoken, -⟩
  exact absurd hwoken (by decide)

/-- Nothing is readable. -/
theorem wait_agrees_iff_notifiedReader :
    notifiedReader.skipsPoll 0 = true ∧
    ((notifiedReader.wait ⟨0, readableEnv [], 0, none⟩).result = .ok () ∧
      (notifiedReader.wait ⟨0, readableEnv [], 0, none⟩).ioWoken = [] ∧
      (notifiedReader.wait ⟨0, readableEnv [], 0, none⟩).reactor.eventSources =
        notifiedReader.eventSources) ∧
    (Agree (notifiedReader.wait ⟨0, readableEnv [], 0, none⟩)
      (notifiedReader.waitPolling ⟨0, readableEnv [], 0, none⟩ (some 0)) ↔
        Quiet (readable []) notifiedReader) :=
  ⟨by decide, wait_agrees_iff notifiedReader ⟨0, readableEnv [], 0, none⟩ (readable []) rfl rfl
    (by decide)⟩

end Reactor

end LocalRuntime
