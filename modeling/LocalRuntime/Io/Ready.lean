import LocalRuntime.Io.Async

/-!
# I/O operations and their readiness

An operation that has returned pending is waiting for its direction to be reported: the reactor
holds its waker, or has invoked it (`Served`). What can take a direction away from an operation is
another one on the same direction, which the documentation of `Async` rules out, and a report, which
invokes the waker.

`readable` and `writable` take a direction that is not enabled for a report. They can, since their
first poll enables it, whatever an operation that was dropped has left behind, and from then on only
a report disables it.
-/

namespace LocalRuntime

variable {P N W : Type}

namespace Io

/-- Only one task reads and only one task writes at a time: an operation is begun only if none is
outstanding on its `Async` and direction. -/
def OnePerDirection [EventPoller P] (m : Io P N W) : IoAct P N W → Prop
  | .start _ i d _ | .startReady _ i d _ _ =>
    ∀ o op, m.ops o = some op → ¬ (op.async = i ∧ op.interest = d)
  | _ => True

/-- The reactor holds the waker of a pending operation or has invoked it; and where an operation
waits for readiness, the direction is enabled or has been reported. -/
structure Served (sources : EventSources W) (s : Source) (op : IoOp W) : Prop where
  heard : ∀ w, op.phase = .pending w → Reactor.asks sources s op.interest = some w ∨ w ∈ op.woken
  seen : op.isReady = true → Reactor.asks sources s op.interest ≠ none ∨
    ∃ f, (s, f) ∈ op.reports ∧ f.has op.interest = true

/-- Every operation is served, and no two are on the same `Async` and direction. -/
structure ServedInv (m : Io P N W) : Prop where
  unique : ∀ o o' op op', m.ops o = some op → m.ops o' = some op' → op.async = op'.async →
    op.interest = op'.interest → o = o'
  served : ∀ o op s, m.ops o = some op → m.asyncs op.async = some s →
    Served m.reactor.eventSources s op

section Steps

variable {m : Io P N W} {i o : ℕ} {s : Source}

theorem Served.of_asks {sources sources' : EventSources W} {op : IoOp W} (h : Served sources s op)
    (hasks : Reactor.asks sources' s op.interest = Reactor.asks sources s op.interest) :
    Served sources' s op := by
  refine ⟨fun w hw ↦ ?_, fun hready ↦ ?_⟩
  · rw [hasks]
    exact h.heard w hw
  · rw [hasks]
    exact h.seen hready

/-- An operation whose closure is running is waiting for nothing. -/
theorem served_attempting {sources : EventSources W} {op : IoOp W} {w : W}
    (hready : op.isReady = false) (hphase : op.phase = .attempting w) : Served sources s op :=
  ⟨by simp [hphase], by simp [hready]⟩

theorem ServedInv.construct (h : ServedInv m) (hmirror : MirrorInv m) (hi : m.asyncs i = none)
    {res : Except IoError Source × Reactor P N W}
    (hres : (∃ err, res.1 = .error err ∧
        ∀ t : Source, res.2.eventSources[t]? = m.reactor.eventSources[t]?) ∨
      res.1 = .ok s ∧ s ∉ m.reactor.eventSources ∧
        res.2.eventSources = m.reactor.eventSources.insert s .default) :
    ServedInv (m.construct i res) := by
  rcases res with ⟨out, r⟩
  rcases hres with ⟨err, hout, hsame⟩ | ⟨hout, hs, hsources⟩
  · obtain rfl : out = .error err := hout
    exact ⟨h.unique, fun o op t ho ht ↦ (h.served o op t ho ht).of_asks (Reactor.asks_congr hsame)⟩
  · obtain rfl : out = .ok s := hout
    refine ⟨h.unique, fun o op t ho ht ↦ ?_⟩
    -- the operation is on an `Async` that was alive, so not on the new one
    obtain ⟨t', ht'⟩ := hmirror.alive o op ho
    have hne : op.async ≠ i := by
      intro heq
      rw [heq, hi] at ht'
      exact absurd ht' (by simp)
    have hold : m.asyncs op.async = some t := by
      rwa [show (m.construct i (.ok s, r)).asyncs = Function.update m.asyncs i (some s) from rfl,
        Function.update_of_ne hne] at ht
    refine (h.served o op t ho hold).of_asks ?_
    have hts : t ≠ s := fun hts ↦ hs (hts ▸ hmirror.mem hold)
    rw [show (m.construct i (.ok s, r)).reactor.eventSources = _ from hsources, Reactor.asks_insert,
      if_neg hts]

theorem ServedInv.release (h : ServedInv m) (hmirror : MirrorInv m) (hi : m.asyncs i = some s)
    {res : Option String × Reactor P N W}
    (hsources : res.2.eventSources = m.reactor.eventSources.erase s) :
    ServedInv (m.release i res) := by
  have hop {o : ℕ} {op : IoOp W} (ho : (m.release i res).ops o = some op) :
      m.ops o = some op ∧ op.async ≠ i := by
    obtain ⟨ho, hne⟩ := Option.filter_eq_some_iff.1 ho
    exact ⟨ho, by simpa using hne⟩
  refine ⟨fun o o' op op' ho ho' ↦ h.unique o o' op op' (hop ho).1 (hop ho').1,
    fun o op t ho ht ↦ ?_⟩
  obtain ⟨ho, hne⟩ := hop ho
  have hold : m.asyncs op.async = some t := by
    rwa [show (m.release i res).asyncs = Function.update m.asyncs i none from rfl,
      Function.update_of_ne hne] at ht
  refine (h.served o op t ho hold).of_asks ?_
  have hts : t ≠ s := fun hts ↦ hne (hmirror.injective _ _ _ (hts ▸ hold) hi)
  rw [show (m.release i res).reactor.eventSources = _ from hsources, Reactor.asks_erase, if_neg hts]

/-- An operation takes the place of one on the same `Async` and direction, or is the only one
there. -/
theorem ServedInv.update (h : ServedInv m) (op : IoOp W)
    (halone : ∀ j op', m.ops j = some op' → j ≠ o →
      ¬ (op'.async = op.async ∧ op'.interest = op.interest)) {r : Reactor P N W}
    (hothers : ∀ j op' t, m.ops j = some op' → j ≠ o → m.asyncs op'.async = some t →
      Served r.eventSources t op')
    (hserved : ∀ t, m.asyncs op.async = some t → Served r.eventSources t op) :
    ServedInv { m with reactor := r, ops := Function.update m.ops o (some op) } := by
  have hcases {j : ℕ} {op' : IoOp W} (hj : Function.update m.ops o (some op) j = some op') :
      j = o ∧ op' = op ∨ j ≠ o ∧ m.ops j = some op' := by
    rcases eq_or_ne j o with rfl | hne
    · rw [Function.update_self] at hj
      exact Or.inl ⟨rfl, (Option.some.inj hj).symm⟩
    · rw [Function.update_of_ne hne] at hj
      exact Or.inr ⟨hne, hj⟩
  refine ⟨fun j k op₁ op₂ hj hk hasync hinterest ↦ ?_, fun j op' t hj ht ↦ ?_⟩
  · rcases hcases hj with ⟨rfl, rfl⟩ | ⟨hne, hold⟩
    · rcases hcases hk with ⟨rfl, -⟩ | ⟨hne, hold⟩
      · rfl
      · exact absurd ⟨hasync.symm, hinterest.symm⟩ (halone k op₂ hold hne)
    · rcases hcases hk with ⟨rfl, rfl⟩ | ⟨-, hold'⟩
      · exact absurd ⟨hasync, hinterest⟩ (halone j op₁ hold hne)
      · exact h.unique j k op₁ op₂ hold hold' hasync hinterest
  · rcases hcases hj with ⟨rfl, rfl⟩ | ⟨hne, hold⟩
    · exact hserved t ht
    · exact hothers j op' t hold hne ht

/-- An operation ends. -/
theorem ServedInv.erase (h : ServedInv m) {r : Reactor P N W}
    (hothers : ∀ j op' t, m.ops j = some op' → j ≠ o → m.asyncs op'.async = some t →
      Served r.eventSources t op') (panics : List String) :
    ServedInv { m with reactor := r, ops := Function.update m.ops o none, panics } := by
  have hcases {j : ℕ} {op' : IoOp W} (hj : Function.update m.ops o none j = some op') :
      j ≠ o ∧ m.ops j = some op' := by
    rcases eq_or_ne j o with rfl | hne
    · rw [Function.update_self] at hj
      exact absurd hj (by simp)
    · rw [Function.update_of_ne hne] at hj
      exact ⟨hne, hj⟩
  refine ⟨fun j k op₁ op₂ hj hk ↦ h.unique j k op₁ op₂ (hcases hj).2 (hcases hk).2,
    fun j op' t hj ht ↦ hothers j op' t (hcases hj).2 (hcases hj).1 ht⟩

/-- **A poll gives the direction to its own operation and takes it from no other.** -/
theorem ServedInv.polled (h : ServedInv m) (hmirror : MirrorInv m) {op : IoOp W} {w : W}
    (hi : m.asyncs op.async = some s)
    (halone : ∀ j op', m.ops j = some op' → j ≠ o →
      ¬ (op'.async = op.async ∧ op'.interest = op.interest))
    {res : Poll (Except Fault Unit) × Reactor P N W}
    (hres : Async.Polls m.reactor s op.interest w res) : ServedInv (m.polled o op w res) := by
  have hothers (j : ℕ) (op' : IoOp W) (t : Source) (hj : m.ops j = some op') (hne : j ≠ o)
      (ht : m.asyncs op'.async = some t) : Served res.2.eventSources t op' := by
    refine (h.served j op' t hj ht).of_asks (hres.asks_of_ne t op'.interest ?_)
    rintro ⟨rfl, hinterest⟩
    exact halone j op' hj hne ⟨hmirror.injective _ _ _ ht hi, hinterest⟩
  rcases res with ⟨- | out, r⟩
  · show ServedInv { m with
      reactor := r
      ops := Function.update m.ops o (some { op with phase := .pending w, woken := [] }) }
    refine h.update { op with phase := .pending w, woken := [] } halone hothers fun t ht ↦ ?_
    obtain rfl : s = t := Option.some.inj (hi.symm.trans ht)
    have hasks := hres.asks_of_pending rfl
    refine ⟨fun w' hw' ↦ Or.inl ?_, fun _ ↦ Or.inl ?_⟩
    · rw [← IoPhase.pending.inj hw']
      exact hasks
    · exact ne_of_eq_of_ne hasks (by simp)
  · exact h.erase hothers _

/-- **A wait invokes the wakers of what it reports.** -/
theorem ServedInv.waited [EventPoller P] [EventNotifier N] (h : ServedInv m) (env : WaitEnv P) :
    ServedInv (m.waited env) := by
  have hop {o : ℕ} {op : IoOp W} (ho : (m.waited env).ops o = some op) : ∃ op', m.ops o = some op' ∧
      op = { op' with
        woken := (m.reactor.wait env).ioWoken ++ op'.woken
        reports := reported m.reactor env ++ op'.reports } := by
    obtain ⟨op', ho', rfl⟩ := Option.map_eq_some_iff.1 ho
    exact ⟨op', ho', rfl⟩
  refine ⟨fun o o' op₁ op₂ ho ho' hasync hinterest ↦ ?_, fun o op t ho ht ↦ ?_⟩
  · obtain ⟨op₁', h₁, rfl⟩ := hop ho
    obtain ⟨op₂', h₂, rfl⟩ := hop ho'
    exact h.unique o o' op₁' op₂' h₁ h₂ hasync hinterest
  · obtain ⟨op', hold, rfl⟩ := hop ho
    obtain ⟨hheard, hseen⟩ := h.served o op' t hold ht
    -- what the direction asks for is left alone, or was reported and has been invoked
    have hasks : Reactor.asks (m.reactor.wait env).reactor.eventSources t op'.interest =
          Reactor.asks m.reactor.eventSources t op'.interest ∨
        (∃ f, (t, f) ∈ reported m.reactor env ∧ f.has op'.interest = true) ∧
          ∀ w, Reactor.asks m.reactor.eventSources t op'.interest = some w →
            w ∈ (m.reactor.wait env).ioWoken := by
      rcases m.reactor.wait_cases env with ⟨-, -, hsources, -⟩ |
        ⟨err, -, -, ⟨poller, hreactor⟩, -⟩ | ⟨l, hanswer, -, hsources, hwoken⟩
      · rw [hsources]
        exact Or.inl rfl
      · rw [hreactor]
        exact Or.inl rfl
      · rw [hsources, hwoken, reported, hanswer]
        exact Reactor.asks_deliver
    rcases hasks with hsame | ⟨⟨f, hf, hhas⟩, hwoken⟩
    · refine ⟨fun w hw ↦ ?_, fun hready ↦ ?_⟩
      · exact (hheard w hw).imp hsame.trans (List.mem_append_right _)
      · refine (hseen hready).imp (fun hne heq ↦ hne (hsame.symm.trans heq)) ?_
        rintro ⟨f, hf, hhas⟩
        exact ⟨f, List.mem_append_right _ hf, hhas⟩
    · refine ⟨fun w hw ↦ Or.inr ?_, fun _ ↦ Or.inr ⟨f, List.mem_append_left _ hf, hhas⟩⟩
      rcases hheard w hw with hw | hw
      · exact List.mem_append_left _ (hwoken w hw)
      · exact List.mem_append_right _ hw

section Run

variable [EventPoller P] [EventNotifier N] {m' : Io P N W}

omit [EventPoller P] [EventNotifier N] in
/-- Where an operation is on its `Async` and direction, no other one is. -/
theorem ServedInv.alone (h : ServedInv m) {op : IoOp W} (ho : m.ops o = some op) (j : ℕ)
    (op' : IoOp W) (hj : m.ops j = some op') (hne : j ≠ o) :
    ¬ (op'.async = op.async ∧ op'.interest = op.interest) :=
  fun heq ↦ hne (h.unique j o op' op hj ho heq.1 heq.2)

/-- **Every step keeps the operations served.** -/
theorem ServedInv.step (h : ServedInv m) (hmirror : MirrorInv m) {a : IoAct P N W}
    (hone : m.OnePerDirection a) (hstep : m.step a = some m') : ServedInv m' := by
  rcases step_cases hstep with hi | hi | hi | ⟨ho, hi⟩ | @⟨o, op, w, w', ho, hready, hphase⟩ |
    ⟨ho, hphase, hi⟩ | ⟨ho, hi⟩ | ⟨ho, hready, hi⟩ | ⟨ho, hphase⟩ | - | -
  · exact h.construct hmirror hi (Async.new_cases _ _ _ _)
  · exact h.construct hmirror hi (Async.withoutNonblocking_cases _ _ _)
  · exact h.release hmirror hi (Async.drop_of_mem (hmirror.mem hi)).2
  · exact h.update (r := m.reactor) _ (fun j op' hj _ ↦ hone j op' hj)
      (fun j op' t hj _ ht ↦ h.served j op' t hj ht) fun t _ ↦ served_attempting rfl rfl
  · refine h.update (r := m.reactor) { op with phase := .attempting w }
      (fun j op' hj hne ↦ h.alone ho j op' hj hne)
      (fun j op' t hj _ ht ↦ h.served j op' t hj ht) fun t _ ↦ ?_
    exact served_attempting hready rfl
  · exact h.polled hmirror hi (h.alone ho) (Async.polls_pollEvent (hmirror.mem hi) _)
  · exact h.polled hmirror hi (fun j op' hj _ ↦ hone j op' hj)
      (Async.polls_waitForEventReady (hmirror.mem hi) true).1
  · exact h.polled hmirror hi (h.alone ho) (Async.polls_waitForEventReady (hmirror.mem hi) false).1
  · exact h.erase (r := m.reactor) (fun j op' t hj _ ht ↦ h.served j op' t hj ht) m.panics
  · exact h.waited _
  · exact ⟨h.unique, h.served⟩

/-- What holds of the operations of a thread at every moment. -/
structure NotStranded (m : Io P N W) : Prop where
  /-- The waker of the last poll of a pending operation is in the reactor, or has been invoked
  since. -/
  heard : ∀ o op w s, m.ops o = some op → op.phase = .pending w → m.asyncs op.async = some s →
    (∃ data, m.reactor.eventSources[s]? = some data ∧ (data.dir op.interest).enabled = true ∧
      (data.dir op.interest).waker = some w) ∨ w ∈ op.woken
  /-- `readable` or `writable` resolves only if its direction has been reported since its first
  poll. -/
  resolves : ∀ o op s, m.ops o = some op → op.isReady = true → m.asyncs op.async = some s →
    ∀ env w, (Async.waitForEventReady m.reactor env s op.interest w false).1 = .ready (.ok ()) →
      ∃ f, (s, f) ∈ op.reports ∧ f.has op.interest = true
  /-- It does not resolve at its first poll. -/
  first : ∀ i s, m.asyncs i = some s → ∀ env d w,
    (Async.waitForEventReady m.reactor env s d w true).1 ≠ .ready (.ok ())

/-- **I/O operations are neither stranded nor falsely ready**, as long as there is one operation at
a time on each direction of a descriptor. -/
theorem notStranded_of_run (poller : P) (timerQueue : TimerQueue W) (notifier : WithFlag N)
    (acts : List (IoAct P N W)) (m : Io P N W)
    (hone : (machine P N W).AllSteps OnePerDirection (Io.init poller timerQueue notifier) acts)
    (hrun : (machine P N W).run (Io.init poller timerQueue notifier) acts = some m) :
    NotStranded m := by
  have hinit : ServedInv (Io.init poller timerQueue notifier) :=
    ⟨by simp [Io.init], by simp [Io.init]⟩
  have hboth : MirrorInv m ∧ ServedInv m :=
    Machine.run_preserves_of_allSteps (I := fun m ↦ MirrorInv m ∧ ServedInv m)
      (fun _ _ _ h hC hstep ↦ ⟨h.1.step hstep, h.2.step h.1 hC hstep⟩)
      ⟨.init poller timerQueue notifier, hinit⟩ hone hrun
  obtain ⟨hmirror, hinv⟩ := hboth
  refine ⟨fun o op w s ho hphase hi ↦ ?_, fun o op s ho hready hi env w hres ↦ ?_,
    fun i s hi env d w hres ↦ ?_⟩
  · refine ((hinv.served o op s ho hi).heard w hphase).imp_left fun hasks ↦ ?_
    obtain ⟨data, hdata, hw⟩ := Option.bind_eq_some_iff.1 hasks
    exact ⟨data, hdata, Wakeup.asks_eq_some.1 hw⟩
  · refine ((hinv.served o op s ho hi).seen hready).resolve_left fun hne ↦ hne ?_
    exact ((Async.polls_waitForEventReady (hmirror.mem hi) false).2 hres).2
  · have hfirst := ((Async.polls_waitForEventReady (hmirror.mem hi) true).2 hres).1
    exact absurd hfirst (by simp)

/-- A reader is dropped while it is pending, and leaves its direction enabled; `readable` and a
writer follow, and one report of both directions wakes both. -/
def readerAndWriter : List (IoAct (PollPoller TimerFd) EventFd ℕ) :=
  [.new 0 5 (.ok ()) (Reactor.readableEnv []), .start 0 0 .read 6,
    .ret 0 (.error wouldBlock) (Reactor.readableEnv []), .dropOp 0,
    .startReady 1 0 .read 7 (Reactor.readableEnv []), .start 2 0 .write 8,
    .ret 2 (.error wouldBlock) (Reactor.readableEnv []),
    .wait ⟨0, ⟨none, .ok fun s ↦ if s = 5 then PollFlags.HUP else 0#16⟩, 0, none⟩]

theorem notStranded_of_run_readerAndWriter :
    ∃ m, (machine (PollPoller TimerFd) EventFd ℕ).run
        (Io.init ⟨[], 3, ⟨4, TimerFd.itimerspec none⟩⟩ .new (.new ⟨3, 0⟩)) readerAndWriter =
          some m ∧
      (m.ops 1).map (fun op ↦ op.woken) = some [7, 8] ∧
      (m.ops 2).map (fun op ↦ op.woken) = some [7, 8] ∧ NotStranded m := by
  obtain ⟨m, hrun, hreader, hwriter⟩ : ∃ m, (machine (PollPoller TimerFd) EventFd ℕ).run
      (Io.init ⟨[], 3, ⟨4, TimerFd.itimerspec none⟩⟩ .new (.new ⟨3, 0⟩)) readerAndWriter = some m ∧
        (m.ops 1).map (fun op ↦ op.woken) = some [7, 8] ∧
        (m.ops 2).map (fun op ↦ op.woken) = some [7, 8] := ⟨_, rfl, rfl, rfl⟩
  have hdropped (o : ℕ) (op op' : IoOp ℕ) : Function.update (Function.update (Function.update
      (fun _ ↦ none) 0 (some op)) 0 (some op')) 0 none o = none := by
    rcases eq_or_ne o 0 with rfl | hne
    · rfl
    · rw [Function.update_of_ne hne, Function.update_of_ne hne, Function.update_of_ne hne]
  refine ⟨m, hrun, hreader, hwriter, notStranded_of_run _ _ _ readerAndWriter m ?_ hrun⟩
  refine ⟨trivial, fun m₁ h₁ ↦ ⟨fun o op ho ↦ ?_, fun m₂ h₂ ↦ ⟨trivial, fun m₃ h₃ ↦
    ⟨trivial, fun m₄ h₄ ↦ ⟨fun o op ho ↦ ?_, fun m₅ h₅ ↦ ⟨fun o op ho ↦ ?_, fun m₆ h₆ ↦
      ⟨trivial, fun m₇ h₇ ↦ ⟨trivial, fun _ _ ↦ trivial⟩⟩⟩⟩⟩⟩⟩⟩
  · obtain rfl := Option.some.inj h₁
    exact nomatch ho
  · obtain rfl := Option.some.inj h₁
    obtain rfl := Option.some.inj h₂
    obtain rfl := Option.some.inj h₃
    obtain rfl := Option.some.inj h₄
    exact absurd (ho.symm.trans (hdropped o _ _)) (by simp)
  · obtain rfl := Option.some.inj h₁
    obtain rfl := Option.some.inj h₂
    obtain rfl := Option.some.inj h₃
    obtain rfl := Option.some.inj h₄
    obtain rfl := Option.some.inj h₅
    rintro ⟨-, hwrite⟩
    rcases eq_or_ne o 1 with rfl | hne
    · obtain rfl := Option.some.inj ho
      exact nomatch hwrite
    · have hold := ho.symm.trans (Function.update_of_ne hne _ _)
      exact absurd (hold.trans (hdropped o _ _)) (by simp)

end Run

end Steps

end Io

end LocalRuntime
