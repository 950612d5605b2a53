import LocalRuntime.Reactor.Events
import LocalRuntime.Lib.Machine

/-!
# The event sources and their history

What the reactor keeps about its event sources is a function of what has been asked of it. A history
lists the calls that have touched the event sources, latest first, and what the poller has answered;
`RegisteredSince` and `EnabledSince` read off it which sources are registered and which directions
are enabled, and by which waker. `Kept` says that the reactor agrees with its history.

The proof goes through `registered` and `asked`, which compute the same by recursion on the history:
each operation of the reactor does to its map what the event of the call does to these two.
-/

namespace LocalRuntime

variable {P N W : Type}

/-- A call that touches the event sources. Each report of a successful poll comes with the wakers
that it has invoked. -/
inductive ReactorEv (W : Type) where
  | register (s : Source) (ok : Bool)
  | deregister (s : Source)
  | enable (s : Source) (d : Interest) (w : W)
  | poll (filters : List (Source × Filter)) (reports : Option (List (Source × Filter × List W)))

/-- The calls so far, latest first. -/
abbrev ReactorLog (W : Type) := List (ReactorEv W)

namespace ReactorLog

/-- Some report names the direction of the source. -/
def Reported (s : Source) (d : Interest) (reports : List (Source × Filter × List W)) : Prop :=
  ∃ f woken, (s, f, woken) ∈ reports ∧ f.has d = true

/-- The source has been registered successfully and not deregistered since. -/
def RegisteredSince (s : Source) (log : ReactorLog W) : Prop :=
  ∃ later earlier, log = later ++ .register s true :: earlier ∧ .deregister s ∉ later

/-- The direction has been enabled with this waker since the source was registered, and since the
latest such call no successful poll has reported it. -/
def EnabledSince (s : Source) (d : Interest) (w : W) (log : ReactorLog W) : Prop :=
  ∃ later earlier, log = later ++ .enable s d w :: earlier ∧ RegisteredSince s earlier ∧
    .deregister s ∉ later ∧ (∀ w', .enable s d w' ∉ later) ∧
    ∀ filters reports, .poll filters (some reports) ∈ later → ¬ Reported s d reports

/-! ### The history as a function -/

/-- Whether the source is registered. -/
def registered (s : Source) : ReactorLog W → Bool
  | [] => false
  | .register t ok :: log => ok && decide (t = s) || registered s log
  | .deregister t :: log => !decide (t = s) && registered s log
  | .enable _ _ _ :: log | .poll _ _ :: log => registered s log

/-- Whether a report names the direction of the source. -/
def names (s : Source) (d : Interest) (report : Source × Filter × List W) : Bool :=
  decide (report.1 = s) && report.2.1.has d

/-- The waker that the direction of the source is enabled with, if it is. -/
def asked (s : Source) (d : Interest) : ReactorLog W → Option W
  | [] => none
  | .register _ _ :: log | .poll _ none :: log => asked s d log
  | .deregister t :: log => if t = s then none else asked s d log
  | .enable t e w :: log => if t = s ∧ e = d then some w else asked s d log
  | .poll _ (some reports) :: log => if reports.any (names s d) then none else asked s d log

section Lemmas

variable {s : Source} {d : Interest} {w : W} {log : ReactorLog W}

theorem any_names_iff {reports : List (Source × Filter × List W)} :
    reports.any (names s d) = true ↔ Reported s d reports := by
  rw [List.any_eq_true]
  constructor
  · rintro ⟨⟨t, f, woken⟩, hmem, hnames⟩
    rw [names, Bool.and_eq_true, decide_eq_true_iff] at hnames
    obtain ⟨rfl, hhas⟩ := hnames
    exact ⟨f, woken, hmem, hhas⟩
  · rintro ⟨f, woken, hmem, hhas⟩
    exact ⟨(s, f, woken), hmem, by rw [names, hhas]; simp⟩

theorem registered_iff : registered s log = true ↔ RegisteredSince s log := by
  constructor
  · intro h
    induction log with
    | nil => exact absurd h (by simp [registered])
    | cons e log ih =>
      -- an event that leaves the source alone is put in front of the split
      have hcons (he : e ≠ .deregister s) (hlog : registered s log = true) :
          RegisteredSince s (e :: log) := by
        obtain ⟨later, earlier, rfl, hnot⟩ := ih hlog
        exact ⟨e :: later, earlier, rfl, by simp [hnot, he.symm]⟩
      rcases e with ⟨t, ok⟩ | t | ⟨t, e, w⟩ | ⟨filters, reports⟩
      · rw [registered, Bool.or_eq_true, Bool.and_eq_true, decide_eq_true_iff] at h
        rcases h with ⟨rfl, rfl⟩ | h
        · exact ⟨[], log, rfl, List.not_mem_nil⟩
        · exact hcons (by simp) h
      · rw [registered, Bool.and_eq_true, Bool.not_eq_true', decide_eq_false_iff_not] at h
        exact hcons (by simpa using h.1) h.2
      · exact hcons (by simp) h
      · exact hcons (by simp) h
  · rintro ⟨later, earlier, rfl, hnot⟩
    induction later with
    | nil => simp [registered]
    | cons e later ih =>
      obtain ⟨hne, hnot⟩ := not_or.1 (mt List.mem_cons.2 hnot)
      have hlater := ih hnot
      rcases e with ⟨t, ok⟩ | t | ⟨t, e, w⟩ | ⟨filters, reports⟩
      · rw [List.cons_append, registered, hlater, Bool.or_true]
      · have hts : t ≠ s := fun hts ↦ hne (hts ▸ rfl)
        rw [List.cons_append, registered, hlater, decide_eq_false hts]
        rfl
      · exact hlater
      · exact hlater

/-- The latest call that enables the direction, if nothing has taken it back since. -/
theorem asked_eq_some : asked s d log = some w ↔ ∃ later earlier,
    log = later ++ .enable s d w :: earlier ∧ .deregister s ∉ later ∧
      (∀ w', .enable s d w' ∉ later) ∧
      ∀ filters reports, .poll filters (some reports) ∈ later → ¬ Reported s d reports := by
  constructor
  · intro h
    induction log with
    | nil => exact absurd h (by simp [asked])
    | cons e log ih =>
      have hcons (hderegister : e ≠ .deregister s) (henable : ∀ w', e ≠ .enable s d w')
          (hpoll : ∀ filters reports, e = .poll filters (some reports) → ¬ Reported s d reports)
          (hlog : asked s d log = some w) : ∃ later earlier,
            e :: log = later ++ .enable s d w :: earlier ∧ .deregister s ∉ later ∧
              (∀ w', .enable s d w' ∉ later) ∧
              ∀ filters reports, .poll filters (some reports) ∈ later → ¬ Reported s d reports := by
        obtain ⟨later, earlier, rfl, h₁, h₂, h₃⟩ := ih hlog
        refine ⟨e :: later, earlier, rfl, ?_, fun w' ↦ ?_, fun filters reports hmem ↦ ?_⟩
        · exact mt List.mem_cons.1 (not_or.2 ⟨hderegister.symm, h₁⟩)
        · exact mt List.mem_cons.1 (not_or.2 ⟨(henable w').symm, h₂ w'⟩)
        · rcases List.mem_cons.1 hmem with heq | hmem
          · exact hpoll filters reports heq.symm
          · exact h₃ filters reports hmem
      rcases e with ⟨t, ok⟩ | t | ⟨t, e, w'⟩ | ⟨filters, - | reports⟩
      · exact hcons (by simp) (by simp) (by simp) h
      · rw [asked, Option.ite_none_left_eq_some] at h
        exact hcons (by simpa using h.1) (by simp) (by simp) h.2
      · rw [asked] at h
        split at h
        next heq =>
          obtain ⟨rfl, rfl⟩ := heq
          obtain rfl := Option.some.inj h
          exact ⟨[], log, rfl, by simp, by simp, by simp⟩
        next hne =>
          refine hcons (by simp) (fun w'' heq ↦ hne ?_) (by simp) h
          exact ⟨(ReactorEv.enable.inj heq).1, (ReactorEv.enable.inj heq).2.1⟩
      · exact hcons (by simp) (by simp) (by simp) h
      · rw [asked, Option.ite_none_left_eq_some, any_names_iff] at h
        refine hcons (by simp) (by simp) (fun filters' reports' heq ↦ ?_) h.2
        obtain rfl := Option.some.inj (ReactorEv.poll.inj heq).2
        exact h.1
  · rintro ⟨later, earlier, rfl, h₁, h₂, h₃⟩
    induction later with
    | nil => simp [asked]
    | cons e later ih =>
      obtain ⟨hne, h₁⟩ := not_or.1 (mt List.mem_cons.2 h₁)
      have hlater := ih h₁ (fun w' hmem ↦ h₂ w' (List.mem_cons_of_mem _ hmem))
        fun filters reports hmem ↦ h₃ filters reports (List.mem_cons_of_mem _ hmem)
      rcases e with ⟨t, ok⟩ | t | ⟨t, e, w'⟩ | ⟨filters, - | reports⟩
      · exact hlater
      · rw [List.cons_append, asked, if_neg fun hts : t = s ↦ hne (hts ▸ rfl)]
        exact hlater
      · rw [List.cons_append, asked, if_neg]
        · exact hlater
        · rintro ⟨rfl, rfl⟩
          exact h₂ w' List.mem_cons_self
      · exact hlater
      · rw [List.cons_append, asked, if_neg]
        · exact hlater
        · rw [any_names_iff]
          exact h₃ filters reports List.mem_cons_self

end Lemmas

end ReactorLog

/-! ### The calls of a reactor -/

namespace Reactor

/-- The reports of a poll with the wakers that each of them invokes. Delivery panics at a source
that is not registered, and from there on nobody is woken. -/
def reports : List (Source × Filter) → EventSources W → List (Source × Filter × List W)
  | [], _ => []
  | (s, f) :: l, sources =>
    match sources[s]? with
    | none => (s, f, []) :: l.map fun p ↦ (p.1, p.2, [])
    | some data => (s, f, (data.report f).1) :: reports l (sources.insert s (data.report f).2)

variable [EventPoller P]

/-- What a `wait` adds to the history. -/
def waitLog (r : Reactor P N W) (env : WaitEnv P) : ReactorLog W :=
  match r.answer env with
  | none => []
  | some (.error _) => [.poll r.filters none]
  | some (.ok l) => [.poll r.filters (some (reports l r.eventSources))]

end Reactor

/-- A reactor with its history. -/
structure Tracked (P N W : Type) where
  reactor : Reactor P N W
  log : ReactorLog W

/-- A call of the reactor that touches the event sources, or a change of the timers and the notifier
by any of the other calls. -/
inductive ReactorCall (P N W : Type) [EventPoller P] where
  | register (env : EventPoller.Env P) (s : Source)
  | deregister (env : EventPoller.Env P) (s : Source)
  | enable (env : EventPoller.Env P) (s : Source) (d : Interest) (w : W)
  | wait (env : WaitEnv P)
  | elsewhere (timerQueue : TimerQueue W) (notifier : WithFlag N)

namespace Tracked

/-- A reactor without event sources. -/
def start (poller : P) (timerQueue : TimerQueue W) (notifier : WithFlag N) : Tracked P N W :=
  ⟨⟨poller, ∅, timerQueue, notifier⟩, []⟩

/-- Whether a call has panicked. -/
def isPanic {α : Type} : Except Fault α → Bool
  | .error (.panic _) => true
  | .error (.io _) | .ok _ => false

theorem isPanic_eq_false {α : Type} {res : Except Fault α} (h : ∀ msg, res ≠ .error (.panic msg)) :
    isPanic res = false := by
  rcases res with (err | msg) | out
  · rfl
  · exact absurd rfl (h msg)
  · rfl

variable [EventPoller P] [EventNotifier N]

/-- Make a call. One that panics on a missing source is not part of the history. -/
def call (t : Tracked P N W) : ReactorCall P N W → Tracked P N W
  | .register env s =>
    let res := t.reactor.registerEvent env s
    ⟨res.2, .register s res.1.isOk :: t.log⟩
  | .deregister env s =>
    let res := t.reactor.deregisterEvent env s
    ⟨res.2, if isPanic res.1 then t.log else .deregister s :: t.log⟩
  | .enable env s d w =>
    let res := t.reactor.enableEvent env s d w
    ⟨res.2, if isPanic res.1 then t.log else .enable s d w :: t.log⟩
  | .wait env => ⟨(t.reactor.wait env).reactor, t.reactor.waitLog env ++ t.log⟩
  | .elsewhere timerQueue notifier => ⟨{ t.reactor with timerQueue, notifier }, t.log⟩

/-- The machine of a reactor. -/
def machine (P N W : Type) [EventPoller P] [EventNotifier N] :
    Machine (Tracked P N W) (ReactorCall P N W) :=
  ⟨fun t c ↦ some (t.call c)⟩

/-- The poller reports only sources that are registered. -/
def ReportsRegistered (t : Tracked P N W) : ReactorCall P N W → Prop
  | .wait env => ∀ l, t.reactor.answer env = some (.ok l) → ∀ p ∈ l, p.1 ∈ t.reactor.eventSources
  | _ => True

end Tracked

/-! ### The reactor refines its history -/

open ReactorLog

/-- The event sources are what the history says. -/
structure Refines (sources : EventSources W) (log : ReactorLog W) : Prop where
  registered : ∀ s, s ∈ sources ↔ registered s log = true
  asked : ∀ s d, Reactor.asks sources s d = asked s d log

/-- What holds of an event of the history, by what was before it. -/
def EventLaw (e : ReactorEv W) (earlier : ReactorLog W) : Prop :=
  match e with
  | .register _ _ | .deregister _ => True
  | .enable s _ _ => registered s earlier = true
  | .poll filters none => Asks filters earlier
  | .poll filters (some reports) => Asks filters earlier ∧ ∀ before s f woken after,
      reports = before ++ (s, f, woken) :: after →
        woken = EventData.due (asked s · (.poll filters (some before) :: earlier)) f
where
  /-- The filters are those of the registered sources, with the directions that are enabled. -/
  Asks (filters : List (Source × Filter)) (earlier : ReactorLog W) : Prop :=
    (filters.map Prod.fst).Nodup ∧ ∀ s f, (s, f) ∈ filters ↔
      registered s earlier = true ∧ ∀ d, f.has d = (asked s d earlier).isSome

/-- Every event of the history is as it should be. -/
def Lawful (log : ReactorLog W) : Prop :=
  ∀ later e earlier, log = later ++ e :: earlier → EventLaw e earlier

section Refines

variable {sources sources' : EventSources W} {log : ReactorLog W}

theorem Lawful.cons {e : ReactorEv W} (h : Lawful log) (he : EventLaw e log) :
    Lawful (e :: log) := by
  rintro (- | ⟨e', later⟩) e'' earlier heq
  · obtain ⟨rfl, rfl⟩ := List.cons.inj heq
    exact he
  · exact h later e'' earlier (List.cons.inj heq).2

theorem Lawful.earlier {later earlier : ReactorLog W} {e : ReactorEv W} (h : Lawful log)
    (heq : log = later ++ e :: earlier) : Lawful earlier := by
  intro later' e' earlier' heq'
  refine h (later ++ e :: later') e' earlier' ?_
  rw [heq, heq', List.append_assoc, List.cons_append]

/-- Where directions are enabled only of registered sources, the history as a function gives what it
says. -/
theorem Lawful.asked_iff (h : Lawful log) {s : Source} {d : Interest} {w : W} :
    asked s d log = some w ↔ EnabledSince s d w log := by
  rw [asked_eq_some]
  constructor
  · rintro ⟨later, earlier, rfl, hrest⟩
    exact ⟨later, earlier, rfl, registered_iff.1 (h later _ earlier rfl), hrest⟩
  · rintro ⟨later, earlier, rfl, -, hrest⟩
    exact ⟨later, earlier, rfl, hrest⟩

theorem Lawful.isSome_asked_iff (h : Lawful log) {s : Source} {d : Interest} :
    (asked s d log).isSome = true ↔ ∃ w, EnabledSince s d w log := by
  rw [Option.isSome_iff_exists]
  exact exists_congr fun w ↦ h.asked_iff

/-- The same in the middle of a poll, before the other reports. -/
theorem Lawful.asked_poll_iff (h : Lawful log) {filters : List (Source × Filter)}
    {before : List (Source × Filter × List W)} {s : Source} {d : Interest} {w : W} :
    asked s d (.poll filters (some before) :: log) = some w ↔
      EnabledSince s d w (.poll filters (some before) :: log) := by
  rw [asked_eq_some]
  constructor
  · rintro ⟨- | ⟨e, later⟩, earlier, heq, hrest⟩
    · exact absurd (List.cons.inj heq).1 (by simp)
    · obtain ⟨rfl, rfl⟩ := List.cons.inj heq
      exact ⟨_, earlier, heq, registered_iff.1 (h later _ earlier rfl), hrest⟩
  · rintro ⟨later, earlier, heq, -, hrest⟩
    exact ⟨later, earlier, heq, hrest⟩

theorem Refines.congr (h : Refines sources log) (hsame : ∀ t : Source, sources'[t]? = sources[t]?) :
    Refines sources' log where
  registered s := (Reactor.mem_congr hsame).trans (h.registered s)
  asked s d := (Reactor.asks_congr hsame).trans (h.asked s d)

theorem Refines.register (h : Refines sources log) {s : Source} (hs : s ∉ sources) :
    Refines (sources.insert s .default) (.register s true :: log) := by
  refine ⟨fun t ↦ ?_, fun t d ↦ ?_⟩
  · rw [Reactor.mem_insert, h.registered, ReactorLog.registered, Bool.or_eq_true, Bool.true_and,
      decide_eq_true_iff, eq_comm]
  · rw [Reactor.asks_insert, ReactorLog.asked, ← h.asked]
    split
    next hts => rw [hts, Reactor.asks_of_not_mem hs, EventData.dir_default, Wakeup.asks_default]
    next => rfl

theorem Refines.deregister (h : Refines sources log) (s : Source) :
    Refines (sources.erase s) (.deregister s :: log) := by
  refine ⟨fun t ↦ ?_, fun t d ↦ ?_⟩
  · rw [Reactor.mem_erase, h.registered, ReactorLog.registered, Bool.and_eq_true, Bool.not_eq_true',
      decide_eq_false_iff_not, ne_comm]
  · simp only [Reactor.asks_erase, ReactorLog.asked, h.asked, eq_comm (a := s)]

theorem Refines.enable (h : Refines sources log) {s : Source} {data : EventData W}
    (hs : sources[s]? = some data) (d : Interest) (w : W) :
    Refines (sources.insert s (data.enable d w)) (.enable s d w :: log) := by
  refine ⟨fun t ↦ ?_, fun t e ↦ ?_⟩
  · rw [Reactor.mem_insert, ReactorLog.registered, ← h.registered, or_iff_right_of_imp]
    exact fun hts ↦ hts ▸ BTreeMap.mem_iff_exists.2 ⟨data, hs⟩
  · rw [Reactor.asks_insert, ReactorLog.asked, EventData.asks_enable, ← h.asked]
    rcases eq_or_ne t s with rfl | hne
    · simp only [true_and, if_true, Reactor.asks_of_eq hs]
    · rw [if_neg hne, if_neg fun heq : s = t ∧ d = e ↦ hne heq.1.symm]

/-- One report of a poll. -/
theorem Refines.report {filters : List (Source × Filter)} {before : List (Source × Filter × List W)}
    (h : Refines sources (.poll filters (some before) :: log)) {s : Source} {data : EventData W}
    (hs : sources[s]? = some data) (f : Filter) (woken : List W) :
    Refines (sources.insert s (data.report f).2)
      (.poll filters (some (before ++ [(s, f, woken)])) :: log) := by
  refine ⟨fun t ↦ ?_, fun t d ↦ ?_⟩
  · have hregistered := h.registered t
    rw [ReactorLog.registered] at hregistered
    rw [Reactor.mem_insert, ReactorLog.registered, ← hregistered, or_iff_right_of_imp]
    exact fun hts ↦ hts ▸ BTreeMap.mem_iff_exists.2 ⟨data, hs⟩
  · have hasked := h.asked t d
    rw [ReactorLog.asked] at hasked
    rw [Reactor.asks_report hs, ReactorLog.asked, hasked, List.any_append, List.any_cons,
      List.any_nil, Bool.or_false, names]
    simp only [Bool.or_eq_true, Bool.and_eq_true, decide_eq_true_eq, eq_comm (a := s)]
    split
    next hnames => rw [if_pos (Or.inr hnames)]
    next hnames => simp only [hnames, or_false]

/-- **Delivery does what the answer of the poller says.** -/
theorem Refines.deliver {filters : List (Source × Filter)} :
    ∀ {l : List (Source × Filter)} {sources : EventSources W}
      {before : List (Source × Filter × List W)},
      Refines sources (.poll filters (some before) :: log) → (∀ p ∈ l, p.1 ∈ sources) →
      Refines (Reactor.deliver l sources).2.2
          (.poll filters (some (before ++ Reactor.reports l sources)) :: log) ∧
        (∀ b s f woken a, Reactor.reports l sources = b ++ (s, f, woken) :: a →
          woken =
            EventData.due (ReactorLog.asked s · (.poll filters (some (before ++ b)) :: log)) f) ∧
        (Reactor.deliver l sources).2.1 = (Reactor.reports l sources).flatMap fun x ↦ x.2.2 := by
  intro l
  induction l with
  | nil =>
    intro sources before h _
    rw [Reactor.reports, List.append_nil]
    exact ⟨h, by simp, rfl⟩
  | cons p l ih =>
    intro sources before h hreg
    obtain ⟨s, f⟩ := p
    obtain ⟨data, hs⟩ : ∃ data, sources[s]? = some data :=
      BTreeMap.mem_iff_exists.1 (hreg (s, f) List.mem_cons_self)
    have hrest : ∀ p ∈ l, p.1 ∈ sources.insert s (data.report f).2 := fun p hp ↦
      Reactor.mem_insert.2 (Or.inr (hreg p (List.mem_cons_of_mem _ hp)))
    obtain ⟨hrefines, hwoken, hall⟩ := ih (h.report hs f (data.report f).1) hrest
    have hreports : Reactor.reports ((s, f) :: l) sources =
        (s, f, (data.report f).1) :: Reactor.reports l (sources.insert s (data.report f).2) := by
      rw [Reactor.reports, hs]
    have hdeliver : (Reactor.deliver ((s, f) :: l) sources).2 =
        ((data.report f).1 ++ (Reactor.deliver l (sources.insert s (data.report f).2)).2.1,
          (Reactor.deliver l (sources.insert s (data.report f).2)).2.2) := by
      rw [Reactor.deliver, hs]
    rw [hreports, hdeliver]
    rw [List.append_assoc, List.singleton_append] at hrefines
    refine ⟨hrefines, ?_, ?_⟩
    · rintro (- | ⟨x, b⟩) t g woken a heq
      · -- the first report finds what was asked for before it
        obtain ⟨hhead, -⟩ := List.cons.inj heq
        simp only [Prod.mk.injEq] at hhead
        obtain ⟨rfl, rfl, rfl⟩ := hhead
        rw [EventData.report_fst, List.append_nil]
        congr 1
        funext d
        rw [← h.asked, Reactor.asks_of_eq hs]
      · obtain ⟨rfl, htail⟩ := List.cons.inj heq
        have hb := hwoken b t g woken a htail
        rw [List.append_assoc, List.singleton_append] at hb
        exact hb
    · rw [List.flatMap_cons, ← hall]

end Refines

namespace Tracked

section Steps

variable [EventPoller P] [EventNotifier N] {t : Tracked P N W}

/-- The reactor agrees with its history, and every event of the history is as it should be. -/
structure HistoryInv (t : Tracked P N W) : Prop where
  refines : Refines t.reactor.eventSources t.log
  lawful : Lawful t.log

omit [EventPoller P] [EventNotifier N] in
theorem HistoryInv.asks_filters (h : HistoryInv t) :
    EventLaw.Asks t.reactor.filters t.log := by
  refine ⟨Reactor.nodup_filters t.reactor, fun s f ↦ ?_⟩
  rw [Reactor.mem_filters, ← h.refines.registered, BTreeMap.mem_iff_exists]
  constructor
  · rintro ⟨data, hs, rfl⟩
    refine ⟨⟨data, hs⟩, fun d ↦ ?_⟩
    rw [EventData.has_filter, ← h.refines.asked, Reactor.asks_of_eq hs]
  · rintro ⟨⟨data, hs⟩, hdir⟩
    refine ⟨data, hs, ?_⟩
    have hhas (d : Interest) : data.filter.has d = f.has d := by
      rw [EventData.has_filter, hdir, ← h.refines.asked, Reactor.asks_of_eq hs]
    exact Filter.mk.injEq .. ▸ ⟨hhas .read, hhas .write⟩

theorem HistoryInv.register (h : HistoryInv t) (env : EventPoller.Env P) (s : Source) :
    HistoryInv (t.call (.register env s)) := by
  rcases t.reactor.registerEvent_cases env s with ⟨err, hres, hsame⟩ | ⟨hres, hs, hsources⟩
  · have hrefines := h.refines.congr hsame
    refine ⟨⟨fun u ↦ ?_, hrefines.asked⟩, h.lawful.cons trivial⟩
    show _ ↔ registered u (.register s (t.reactor.registerEvent env s).1.isOk :: t.log) = true
    rw [hres, registered]
    exact hrefines.registered u
  · have hrefines := h.refines.register hs
    rw [← hsources] at hrefines
    refine ⟨?_, h.lawful.cons trivial⟩
    show Refines _ (.register s (t.reactor.registerEvent env s).1.isOk :: t.log)
    rw [hres]
    exact hrefines

theorem HistoryInv.deregister (h : HistoryInv t) (env : EventPoller.Env P) (s : Source) :
    HistoryInv (t.call (.deregister env s)) := by
  rcases t.reactor.deregisterEvent_cases env s with ⟨-, msg, heq⟩ | ⟨-, hpanic, hsources⟩
  · simp only [call, heq]
    exact h
  · have hrefines := h.refines.deregister s
    rw [← hsources] at hrefines
    simp only [call, isPanic_eq_false hpanic]
    exact ⟨hrefines, h.lawful.cons trivial⟩

theorem HistoryInv.enable (h : HistoryInv t) (env : EventPoller.Env P) (s : Source) (d : Interest)
    (w : W) : HistoryInv (t.call (.enable env s d w)) := by
  rcases t.reactor.enableEvent_cases env s d w with ⟨-, msg, heq⟩ | ⟨data, hs, hpanic, hsources⟩
  · simp only [call, heq]
    exact h
  · have hrefines := h.refines.enable hs d w
    rw [← hsources] at hrefines
    simp only [call, isPanic_eq_false hpanic]
    refine ⟨hrefines, h.lawful.cons ?_⟩
    exact (h.refines.registered s).1 (BTreeMap.mem_iff_exists.2 ⟨data, hs⟩)

/-- **A wait hands the enabled directions to the poller and takes its answer.** -/
theorem HistoryInv.wait (h : HistoryInv t) {env : WaitEnv P}
    (hreports : t.ReportsRegistered (.wait env)) : HistoryInv (t.call (.wait env)) := by
  have hasks := h.asks_filters
  rcases t.reactor.wait_cases env with ⟨hanswer, -, hsources, -⟩ | ⟨err, hanswer, -, hreactor, -⟩ |
    ⟨l, hanswer, -, hsources, -⟩
  · refine ⟨?_, ?_⟩
    · simp only [call, Reactor.waitLog, hanswer, hsources]
      exact h.refines
    · simp only [call, Reactor.waitLog, hanswer]
      exact h.lawful
  · obtain ⟨poller, hreactor⟩ := hreactor
    refine ⟨?_, ?_⟩
    · simp only [call, Reactor.waitLog, hanswer, hreactor]
      exact ⟨h.refines.registered, h.refines.asked⟩
    · simp only [call, Reactor.waitLog, hanswer]
      exact h.lawful.cons hasks
  · have hstart : Refines t.reactor.eventSources (.poll t.reactor.filters (some []) :: t.log) :=
      ⟨h.refines.registered, h.refines.asked⟩
    obtain ⟨hrefines, hwoken, -⟩ := hstart.deliver (hreports l hanswer)
    rw [List.nil_append] at hrefines
    refine ⟨?_, ?_⟩
    · simp only [call, Reactor.waitLog, hanswer, hsources]
      exact hrefines
    · simp only [call, Reactor.waitLog, hanswer]
      exact h.lawful.cons ⟨hasks, hwoken⟩

theorem HistoryInv.call (h : HistoryInv t) {c : ReactorCall P N W}
    (hreports : t.ReportsRegistered c) : HistoryInv (t.call c) := by
  rcases c with ⟨env, s⟩ | ⟨env, s⟩ | ⟨env, s, d, w⟩ | env | ⟨timerQueue, notifier⟩
  · exact h.register env s
  · exact h.deregister env s
  · exact h.enable env s d w
  · exact h.wait hreports
  · exact ⟨h.refines, h.lawful⟩

end Steps

/-! ### What a reactor keeps -/

/-- What holds of a reactor and its history at every moment. -/
structure Kept [EventPoller P] [EventNotifier N] (t : Tracked P N W) : Prop where
  /-- The event sources are those registered successfully and not deregistered since. -/
  mem_iff : ∀ s, s ∈ t.reactor.eventSources ↔ RegisteredSince s t.log
  /-- A direction is enabled if it has been since the registration and not been reported since. -/
  enabled_iff : ∀ (s : Source) data d, t.reactor.eventSources[s]? = some data →
    ((data.dir d).enabled = true ↔ ∃ w, EnabledSince s d w t.log)
  /-- Its waker is the one of the latest call. -/
  waker_eq : ∀ (s : Source) data d w, t.reactor.eventSources[s]? = some data →
    EnabledSince s d w t.log → (data.dir d).waker = some w
  /-- Every poll was given the enabled directions of every registered source, each once. -/
  polled : ∀ later filters reports earlier, t.log = later ++ .poll filters reports :: earlier →
    (filters.map Prod.fst).Nodup ∧ ∀ s f, (s, f) ∈ filters ↔
      RegisteredSince s earlier ∧ ∀ d, f.has d = true ↔ ∃ w, EnabledSince s d w earlier
  /-- Every report woke the waker of each direction it names, if that was enabled, and no other. -/
  reported : ∀ later filters reports earlier,
    t.log = later ++ .poll filters (some reports) :: earlier →
    ∀ before s f woken after, reports = before ++ (s, f, woken) :: after →
    ∃ ws : Interest → List W, woken = ws .read ++ ws .write ∧ ∀ d,
      (∀ w, f.has d = true ∧ EnabledSince s d w (.poll filters (some before) :: earlier) →
        ws d = [w]) ∧
      (¬ (f.has d = true ∧ ∃ w, EnabledSince s d w (.poll filters (some before) :: earlier)) →
        ws d = [])
  /-- A successful poll is delivered in full, and nothing else is woken for I/O. -/
  delivers : ∀ env l, t.reactor.answer env = some (.ok l) →
    (∀ p ∈ l, p.1 ∈ t.reactor.eventSources) → (t.reactor.wait env).result = .ok () ∧
    ∃ reports, t.reactor.waitLog env = [.poll t.reactor.filters (some reports)] ∧
      (reports.map fun x ↦ (x.1, x.2.1)) = l ∧
      (t.reactor.wait env).ioWoken = reports.flatMap fun x ↦ x.2.2
  /-- A `wait` that does not call the poller wakes nothing for I/O. -/
  skips : ∀ env, t.reactor.answer env = none →
    (t.reactor.wait env).reactor.eventSources = t.reactor.eventSources ∧
      (t.reactor.wait env).ioWoken = []
  /-- A registration fails on a source that is there, and one that fails changes no entry. -/
  duplicate : ∀ env, ∀ s ∈ t.reactor.eventSources,
    ∃ err, (t.reactor.registerEvent env s).1 = .error err
  register_error : ∀ env s err, (t.reactor.registerEvent env s).1 = .error err →
    ∀ u : Source, (t.reactor.registerEvent env s).2.eventSources[u]? = t.reactor.eventSources[u]?
  /-- A `wait` that returns an error leaves all but the poller as it was and wakes nobody. -/
  wait_error : ∀ env err, (t.reactor.wait env).result = .error (.io err) →
    (∃ poller, (t.reactor.wait env).reactor = { t.reactor with poller }) ∧
      (t.reactor.wait env).ioWoken = [] ∧ (t.reactor.wait env).timersWoken = []

section Kept

variable [EventPoller P] [EventNotifier N] {t : Tracked P N W}

theorem map_reports (l : List (Source × Filter)) (sources : EventSources W) :
    ((Reactor.reports l sources).map fun x ↦ (x.1, x.2.1)) = l := by
  induction l generalizing sources with
  | nil => rfl
  | cons p l ih =>
    obtain ⟨s, f⟩ := p
    rw [Reactor.reports]
    rcases sources[s]? with - | data
    · rw [List.map_cons, List.map_map]
      exact congrArg _ (List.map_id l)
    · rw [List.map_cons, ih]

/-- The wakers that are due, direction by direction. -/
theorem exists_due_eq (asks : Interest → Option W) (f : Filter) : ∃ ws : Interest → List W,
    EventData.due asks f = ws .read ++ ws .write ∧ ∀ d,
      (∀ w, f.has d = true ∧ asks d = some w → ws d = [w]) ∧
      (¬ (f.has d = true ∧ ∃ w, asks d = some w) → ws d = []) := by
  refine ⟨fun d ↦ if f.has d then (asks d).toList else [], rfl, fun d ↦ ⟨?_, fun hnot ↦ ?_⟩⟩
  · rintro w ⟨hhas, hasks⟩
    simp only [hhas, hasks, if_true, Option.toList_some]
  · rcases hasks : asks d with - | w
    · simp only [hasks, Option.toList_none, ite_self]
    · have hhas : ¬ f.has d = true := fun hhas ↦ hnot ⟨hhas, w, hasks⟩
      simp only [hhas, if_false, Bool.false_eq_true]

theorem HistoryInv.kept (h : HistoryInv t) : Kept t := by
  have hasks (s : Source) (data : EventData W) (d : Interest)
      (hs : t.reactor.eventSources[s]? = some data) : (data.dir d).asks = asked s d t.log := by
    rw [← h.refines.asked, Reactor.asks_of_eq hs]
  refine ⟨fun s ↦ ?_, fun s data d hs ↦ ?_, fun s data d w hs hw ↦ ?_,
    fun later filters reports earlier heq ↦ ?_,
    fun later filters reports earlier heq before s f woken after hreports ↦ ?_,
    fun env l hanswer hreg ↦ ?_, fun env hanswer ↦ ?_, fun env s hs ↦ ?_, fun env s err herr ↦ ?_,
    fun env err herr ↦ ?_⟩
  · rw [h.refines.registered, registered_iff]
  · rw [← Wakeup.isSome_asks, hasks s data d hs, h.lawful.isSome_asked_iff]
  · rw [← h.lawful.asked_iff, ← hasks s data d hs] at hw
    exact (Wakeup.asks_eq_some.1 hw).2
  · have hlawful : Lawful earlier := h.lawful.earlier heq
    have hlaw : EventLaw.Asks filters earlier := by
      have hlaw := h.lawful later _ earlier heq
      rcases reports with - | reports
      · exact hlaw
      · exact hlaw.1
    refine ⟨hlaw.1, fun s f ↦ ?_⟩
    rw [hlaw.2, registered_iff]
    refine and_congr_right fun _ ↦ forall_congr' fun d ↦ ?_
    rw [← hlawful.isSome_asked_iff, Bool.eq_iff_iff]
  · have hlawful : Lawful earlier := h.lawful.earlier heq
    have hwoken := (h.lawful later _ earlier heq).2 before s f woken after hreports
    obtain ⟨ws, hws, hdir⟩ :=
      exists_due_eq (fun d ↦ asked s d (.poll filters (some before) :: earlier)) f
    refine ⟨ws, hwoken.trans hws, fun d ↦ ?_⟩
    simp only [hlawful.asked_poll_iff] at hdir
    exact hdir d
  · have hstart : Refines t.reactor.eventSources (.poll t.reactor.filters (some []) :: t.log) :=
      ⟨h.refines.registered, h.refines.asked⟩
    obtain ⟨-, -, hall⟩ := hstart.deliver hreg
    rcases t.reactor.wait_cases env with ⟨hnone, -⟩ | ⟨err, herr, -⟩ | ⟨l', hl', hres, -, hwoken⟩
    · exact absurd hanswer (by simp [hnone])
    · exact absurd hanswer (by simp [herr])
    · obtain rfl : l' = l := by simpa [hanswer] using hl'.symm
      refine ⟨hres.trans (Reactor.deliver_eq_ok_iff.2 hreg), _, ?_, map_reports l' _,
        hwoken.trans hall⟩
      rw [Reactor.waitLog, hanswer]
  · rcases t.reactor.wait_cases env with ⟨-, -, hsources, hwoken⟩ | ⟨err, herr, -⟩ | ⟨l, hl, -⟩
    · exact ⟨hsources, hwoken⟩
    · exact absurd hanswer (by simp [herr])
    · exact absurd hanswer (by simp [hl])
  · rcases t.reactor.registerEvent_cases env s with ⟨err, herr, -⟩ | ⟨-, hnot, -⟩
    · exact ⟨err, herr⟩
    · exact absurd hs hnot
  · rcases t.reactor.registerEvent_cases env s with ⟨-, -, hsame⟩ | ⟨hok, -⟩
    · exact hsame
    · exact absurd herr (by simp [hok])
  · rcases t.reactor.wait_cases env with ⟨-, hok, -⟩ | ⟨err', -, -, hreactor, hio, htimers⟩ |
      ⟨l, -, hres, -⟩
    · exact absurd herr (by simp [hok])
    · exact ⟨hreactor, hio, htimers⟩
    · obtain ⟨msg, hmsg⟩ := Reactor.deliver_eq_error (hres.symm.trans herr)
      exact absurd hmsg (by simp)

/-- **The reactor keeps its event sources by its history**, for any poller that reports only
registered sources, through any calls, also those that fail and those that do not reach the
poller. -/
theorem kept_of_run (poller : P) (timerQueue : TimerQueue W) (notifier : WithFlag N)
    (calls : List (ReactorCall P N W)) (t : Tracked P N W)
    (hreports : (machine P N W).AllSteps ReportsRegistered (start poller timerQueue notifier) calls)
    (hrun : (machine P N W).run (start poller timerQueue notifier) calls = some t) : Kept t := by
  have hstart : HistoryInv (start poller timerQueue notifier : Tracked P N W) := by
    refine ⟨⟨fun s ↦ ?_, fun s d ↦ ?_⟩, fun later e earlier heq ↦ absurd heq (by simp [start])⟩
    · simp [start, registered]
    · exact Reactor.asks_of_not_mem (by simp [start])
  have hinv : HistoryInv t :=
    Machine.run_preserves_of_allSteps (I := HistoryInv)
      (fun _ _ _ h hC hstep ↦ Option.some.inj hstep ▸ h.call hC) hstart hreports hrun
  exact hinv.kept

/-- A source is registered, waited on for reading, and reported, after an attempt to register it
again. -/
def registerTwice : List (ReactorCall (PollPoller TimerFd) EventFd ℕ) :=
  [.register (Reactor.readableEnv []) 5, .enable (Reactor.readableEnv []) 5 .read 7,
    .register (Reactor.readableEnv []) 5, .wait ⟨0, Reactor.readableEnv [5], 0, none⟩]

theorem kept_of_run_registerTwice :
    ∃ t, (machine (PollPoller TimerFd) EventFd ℕ).run
        (start ⟨[], 3, ⟨4, TimerFd.itimerspec none⟩⟩ .new (.new ⟨3, 0⟩)) registerTwice = some t ∧
      t.log = [.poll [(5, ⟨true, false⟩)] (some [(5, ⟨true, false⟩, [7])]), .register 5 false,
        .enable 5 .read 7, .register 5 true] ∧ Kept t := by
  refine ⟨_, rfl, rfl, kept_of_run _ _ _ registerTwice _ ⟨trivial, fun t₁ h₁ ↦ ?_⟩ rfl⟩
  obtain rfl := Option.some.inj h₁
  refine ⟨trivial, fun t₂ h₂ ↦ ?_⟩
  obtain rfl := Option.some.inj h₂
  refine ⟨trivial, fun t₃ h₃ ↦ ⟨fun l hl ↦ ?_, fun _ _ ↦ trivial⟩⟩
  obtain rfl := Option.some.inj h₃
  obtain rfl := Except.ok.inj (Option.some.inj hl)
  intro p hp
  obtain rfl : p = (5, ⟨true, false⟩) := List.mem_singleton.1 hp
  decide

end Kept

end Tracked

end LocalRuntime
