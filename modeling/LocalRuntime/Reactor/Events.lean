import LocalRuntime.Reactor.Wait

/-!
# What each operation does to the event sources

One lemma for each operation of the reactor that touches `event_sources`. They are stated by the two
things that a client can tell about the map: which sources are there, and what each direction of a
source asks for (`asks`: the waker of an enabled direction). That an enabled direction has a waker
is part of `Wakeup`, so a direction is enabled exactly if it asks for something.
-/

namespace LocalRuntime

variable {P N W : Type}

/-- Whether a filter names a direction. -/
def Filter.has (f : Filter) : Interest → Bool
  | .read => f.read
  | .write => f.write

/-! ### What a direction asks for -/

namespace Wakeup

/-- The waker of the direction, if it is enabled. -/
def asks (u : Wakeup W) : Option W := if u.enabled then u.waker else none

@[simp] theorem asks_default : (default : Wakeup W).asks = none := rfl

theorem asks_eq_some {u : Wakeup W} {w : W} :
    u.asks = some w ↔ u.enabled = true ∧ u.waker = some w := by
  rw [asks, Option.ite_none_right_eq_some]

theorem isSome_asks (u : Wakeup W) : u.asks.isSome = u.enabled := by
  rcases hu : u.enabled with - | -
  · rw [asks, hu]
    rfl
  · obtain ⟨w, hw, -⟩ := wake_of_enabled hu
    rw [asks, hu, hw]
    rfl

/-- A wake invokes what the direction asks for. -/
theorem wake_fst (u : Wakeup W) : u.wake.1 = u.asks.toList := by
  rcases hu : u.enabled with - | -
  · rw [wake_of_not_enabled hu, asks, hu]
    rfl
  · obtain ⟨w, hw, hwake, -⟩ := wake_of_enabled hu
    rw [hwake, asks, hu, hw]
    rfl

/-- After a wake, the direction asks for nothing. -/
theorem asks_wake_snd (u : Wakeup W) : u.wake.2.asks = none := by
  rcases hu : u.enabled with - | -
  · rw [wake_of_not_enabled hu, asks, hu]
    rfl
  · obtain ⟨w, -, -, hdisabled⟩ := wake_of_enabled hu
    rw [asks, hdisabled]
    rfl

end Wakeup

namespace EventData

@[simp] theorem dir_default (d : Interest) : (default : EventData W).dir d = .default := by
  rcases d with - | -
  · rfl
  · rfl

theorem asks_enable (data : EventData W) (e d : Interest) (w : W) :
    ((data.enable e w).dir d).asks = if e = d then some w else (data.dir d).asks := by
  rcases e with - | -
  · rcases d with - | -
    · rfl
    · rfl
  · rcases d with - | -
    · rfl
    · rfl

/-- A report takes away what the directions it names ask for. -/
theorem asks_report (data : EventData W) (f : Filter) (d : Interest) :
    ((data.report f).2.dir d).asks = if f.has d then none else (data.dir d).asks := by
  rcases f with ⟨fr, fw⟩
  rcases d with - | -
  · show (if fr then data.read.wake else ([], data.read)).2.asks = _
    rcases fr with - | -
    · rfl
    · exact Wakeup.asks_wake_snd data.read
  · show (if fw then data.write.wake else ([], data.write)).2.asks = _
    rcases fw with - | -
    · rfl
    · exact Wakeup.asks_wake_snd data.write

/-- The wakers that a report is due to invoke, by what each direction asks for. -/
def due (asks : Interest → Option W) (f : Filter) : List W :=
  (if f.read then (asks .read).toList else []) ++ (if f.write then (asks .write).toList else [])

/-- A report invokes what the directions it names ask for. -/
theorem report_fst (data : EventData W) (f : Filter) :
    (data.report f).1 = due (fun d ↦ (data.dir d).asks) f := by
  rcases f with ⟨fr, fw⟩
  have hwake (u : Wakeup W) (b : Bool) :
      (if b then u.wake else ([], u)).1 = if b then u.asks.toList else [] := by
    rcases b with - | -
    · rfl
    · exact Wakeup.wake_fst u
  show (if fr then data.read.wake else ([], data.read)).1 ++
    (if fw then data.write.wake else ([], data.write)).1 = _
  rw [hwake, hwake]
  rfl

theorem mem_due {asks : Interest → Option W} {f : Filter} {d : Interest} {w : W}
    (hhas : f.has d = true) (hasks : asks d = some w) : w ∈ due asks f := by
  rcases d with - | -
  · refine List.mem_append_left _ ?_
    rw [if_pos (show f.read = true from hhas), hasks]
    exact List.mem_singleton_self w
  · refine List.mem_append_right _ ?_
    rw [if_pos (show f.write = true from hhas), hasks]
    exact List.mem_singleton_self w

theorem has_filter (data : EventData W) (d : Interest) :
    data.filter.has d = (data.dir d).asks.isSome := by
  rw [Wakeup.isSome_asks]
  rcases d with - | -
  · rfl
  · rfl

end EventData

namespace Reactor

/-- What a direction of a source asks for. -/
def asks (sources : EventSources W) (s : Source) (d : Interest) : Option W :=
  sources[s]?.bind fun data ↦ (data.dir d).asks

section Sources

variable {sources sources' : EventSources W} {s t : Source} {d : Interest}

theorem asks_of_eq {data : EventData W} (h : sources[s]? = some data) :
    asks sources s d = (data.dir d).asks := by
  rw [asks, h, Option.bind_some]

theorem asks_of_not_mem (h : s ∉ sources) : asks sources s d = none := by
  rcases hs : sources[s]? with - | data
  · rw [asks, hs, Option.bind_none]
  · exact absurd (BTreeMap.mem_iff_exists.2 ⟨data, hs⟩) h

theorem mem_congr (h : ∀ t : Source, sources'[t]? = sources[t]?) : s ∈ sources' ↔ s ∈ sources := by
  rw [BTreeMap.mem_iff_exists, BTreeMap.mem_iff_exists, h]

theorem asks_congr (h : ∀ t : Source, sources'[t]? = sources[t]?) :
    asks sources' s d = asks sources s d := by
  rw [asks, asks, h]

theorem mem_insert {data : EventData W} : t ∈ sources.insert s data ↔ t = s ∨ t ∈ sources := by
  rw [BTreeMap.mem_iff_exists, BTreeMap.mem_iff_exists, BTreeMap.getElem?_insert]
  split
  next hts => exact iff_of_true ⟨data, rfl⟩ (Or.inl hts)
  next hts => rw [or_iff_right hts]

theorem asks_insert {data : EventData W} :
    asks (sources.insert s data) t d = if t = s then (data.dir d).asks else asks sources t d := by
  rw [asks, BTreeMap.getElem?_insert]
  split
  · rfl
  · rfl

theorem mem_erase : t ∈ sources.erase s ↔ t ≠ s ∧ t ∈ sources := by
  rw [BTreeMap.mem_iff_exists, BTreeMap.mem_iff_exists, BTreeMap.getElem?_erase]
  split
  next hts => simp [hts]
  next hts => rw [and_iff_right hts]

theorem asks_erase : asks (sources.erase s) t d = if t = s then none else asks sources t d := by
  rw [asks, BTreeMap.getElem?_erase]
  split
  · rfl
  · rfl

/-! ### Delivering -/

/-- Delivery leaves the same sources. -/
theorem mem_deliver {l : List (Source × Filter)} : t ∈ (deliver l sources).2.2 ↔ t ∈ sources := by
  induction l generalizing sources with
  | nil => exact Iff.rfl
  | cons p l ih =>
    obtain ⟨s, f⟩ := p
    rw [deliver]
    rcases hs : sources[s]? with - | data
    · exact Iff.rfl
    · have hmem : s ∈ sources := BTreeMap.mem_iff_exists.2 ⟨data, hs⟩
      show t ∈ (deliver l (sources.insert s (data.report f).2)).2.2 ↔ t ∈ sources
      rw [ih, mem_insert, or_iff_right_of_imp]
      exact fun hts ↦ hts ▸ hmem

/-- What a report leaves of what is asked for. -/
theorem asks_report {data : EventData W} (hs : sources[s]? = some data) (f : Filter) :
    asks (sources.insert s (data.report f).2) t d =
      if t = s ∧ f.has d = true then none else asks sources t d := by
  rw [asks_insert, EventData.asks_report]
  rcases eq_or_ne t s with rfl | hne
  · simp only [true_and, if_true, asks_of_eq hs]
  · simp only [hne, false_and, if_false]

/-- Delivery takes away only what has been reported, and invokes what it takes away. This holds also
of a delivery that panics on the way. -/
theorem asks_deliver {l : List (Source × Filter)} :
    asks (deliver l sources).2.2 t d = asks sources t d ∨
      (∃ f, (t, f) ∈ l ∧ f.has d = true) ∧
        ∀ w, asks sources t d = some w → w ∈ (deliver l sources).2.1 := by
  induction l generalizing sources with
  | nil => exact Or.inl rfl
  | cons p l ih =>
    obtain ⟨s, f⟩ := p
    rw [deliver]
    rcases hs : sources[s]? with - | data
    · exact Or.inl rfl
    · by_cases hhit : t = s ∧ f.has d = true
      · refine Or.inr ⟨⟨f, hhit.1 ▸ List.mem_cons_self, hhit.2⟩,
          fun w hw ↦ List.mem_append_left _ ?_⟩
        rw [hhit.1, asks_of_eq hs] at hw
        rw [EventData.report_fst]
        exact EventData.mem_due hhit.2 hw
      · rcases @ih (sources.insert s (data.report f).2) with heq | ⟨⟨g, hg, hhas⟩, hwoken⟩
        · refine Or.inl (heq.trans ?_)
          rw [asks_report hs, if_neg hhit]
        · refine Or.inr ⟨⟨g, List.mem_cons_of_mem _ hg, hhas⟩,
            fun w hw ↦ List.mem_append_right _ ?_⟩
          refine hwoken w ?_
          rw [asks_report hs, if_neg hhit, hw]

end Sources

/-! ### Registering, deregistering, enabling -/

section Operations

variable [EventPoller P] (r : Reactor P N W) (env : EventPoller.Env P) (s : Source)

/-- A registration that fails leaves every entry as it was; one that succeeds adds a source that was
not there. -/
theorem registerEvent_cases :
    (∃ err, (r.registerEvent env s).1 = .error err ∧
      ∀ t : Source, (r.registerEvent env s).2.eventSources[t]? = r.eventSources[t]?) ∨
    (r.registerEvent env s).1 = .ok () ∧ s ∉ r.eventSources ∧
      (r.registerEvent env s).2.eventSources = r.eventSources.insert s .default := by
  rw [registerEvent]
  split
  next err poller _ => exact Or.inl ⟨err, rfl, fun t ↦ rfl⟩
  next poller _ =>
    simp only [BTreeMap.replace]
    rcases hs : r.eventSources[s]? with - | prev
    · refine Or.inr ⟨rfl, fun hmem ↦ ?_, rfl⟩
      obtain ⟨data, hdata⟩ := BTreeMap.mem_iff_exists.1 hmem
      exact absurd hdata (by simp [hs])
    · refine Or.inl ⟨_, rfl, fun t ↦ ?_⟩
      exact BTreeMap.getElem?_insert_insert_of_eq_some hs .default t

/-- Deregistering takes a source out, whether or not the poller fails, and panics where there is
none. -/
theorem deregisterEvent_cases :
    (s ∉ r.eventSources ∧ ∃ msg, r.deregisterEvent env s = (.error (.panic msg), r)) ∨
    s ∈ r.eventSources ∧ (∀ msg, (r.deregisterEvent env s).1 ≠ .error (.panic msg)) ∧
      (r.deregisterEvent env s).2.eventSources = r.eventSources.erase s := by
  rw [deregisterEvent, BTreeMap.mem_iff_exists]
  rcases hs : r.eventSources[s]? with - | data
  · exact Or.inl ⟨by simp, _, rfl⟩
  · refine Or.inr ⟨⟨data, rfl⟩, fun msg ↦ ?_, rfl⟩
    simp only
    rcases (EventPoller.deregister env r.poller s).1 with err | -
    · simp [Except.mapError]
    · simp [Except.mapError]

/-- Enabling a direction makes it ask for the waker, whether or not the poller fails, and panics
where there is no such source. -/
theorem enableEvent_cases (d : Interest) (w : W) :
    (s ∉ r.eventSources ∧ ∃ msg, r.enableEvent env s d w = (.error (.panic msg), r)) ∨
    ∃ data, r.eventSources[s]? = some data ∧
      (∀ msg, (r.enableEvent env s d w).1 ≠ .error (.panic msg)) ∧
      (r.enableEvent env s d w).2.eventSources = r.eventSources.insert s (data.enable d w) := by
  rw [enableEvent, BTreeMap.mem_iff_exists]
  rcases hs : r.eventSources[s]? with - | data
  · exact Or.inl ⟨by simp, _, rfl⟩
  · refine Or.inr ⟨data, rfl, fun msg ↦ ?_, rfl⟩
    simp only
    rcases (EventPoller.modify env r.poller s (data.enable d w).filter).1 with err | -
    · simp [Except.mapError]
    · simp [Except.mapError]

omit [EventPoller P] in
theorem isEventReady_eq (d : Interest) {data : EventData W} (hs : r.eventSources[s]? = some data) :
    r.isEventReady s d = .ok (asks r.eventSources s d).isNone := by
  rw [isEventReady, hs, asks_of_eq hs]
  show Except.ok _ = Except.ok _
  rw [← Option.not_isSome, Wakeup.isSome_asks]

end Operations

/-! ### Waiting -/

section Wait

variable [EventPoller P] [EventNotifier N]

omit [EventNotifier N] in
/-- What the poller answers to a `wait`, if it is called. -/
def answer (r : Reactor P N W) (env : WaitEnv P) :
    Option (Except IoError (List (Source × Filter))) :=
  if r.skipsPoll env.now then none
  else some ((EventPoller.poll env.poll r.poller (r.timerQueue.nextTimeout env.now) r.filters).1.map
    fun revents ↦ revents.getD [])

/-- A `wait` delivers the answer of the poller and does nothing else to the event sources. An error
of the poller leaves everything but the poller as it was. -/
theorem wait_cases (r : Reactor P N W) (env : WaitEnv P) :
    (r.answer env = none ∧ (r.wait env).result = .ok () ∧
      (r.wait env).reactor.eventSources = r.eventSources ∧ (r.wait env).ioWoken = []) ∨
    (∃ err, r.answer env = some (.error err) ∧ (r.wait env).result = .error (.io err) ∧
      (∃ poller, (r.wait env).reactor = { r with poller }) ∧ (r.wait env).ioWoken = [] ∧
      (r.wait env).timersWoken = []) ∨
    ∃ l, r.answer env = some (.ok l) ∧ (r.wait env).result = (deliver l r.eventSources).1 ∧
      (r.wait env).reactor.eventSources = (deliver l r.eventSources).2.2 ∧
      (r.wait env).ioWoken = (deliver l r.eventSources).2.1 := by
  rw [answer, wait]
  split
  next => exact Or.inl ⟨rfl, rfl, rfl, rfl⟩
  next =>
    refine Or.inr ?_
    rw [waitPolling]
    split
    next err poller hpoll => exact Or.inl ⟨err, by rw [hpoll]; rfl, rfl, ⟨poller, rfl⟩, rfl, rfl⟩
    next revents poller hpoll =>
      refine Or.inr ⟨revents.getD [], by rw [hpoll]; rfl, ?_⟩
      simp only
      split
      next fault hfault => exact ⟨hfault.symm, rfl, rfl⟩
      next hok => exact ⟨hok.symm, rfl, rfl⟩

end Wait

end Reactor

end LocalRuntime
