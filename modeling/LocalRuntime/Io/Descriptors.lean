import LocalRuntime.Io.Tcp

/-!
# Descriptors are neither dangling nor leaked

Two results about the I/O of a thread, over all runs of the machine of `Io.Tcp`.

* `descriptors_safe`: the reactor never holds a closed descriptor, whoever opens and closes what;
  and a call that opens a descriptor and fails closes it again and leaves the reactor as it was
  (`Restored`), at whatever system call it fails. A `connect` that fails later, or is dropped, gives
  up its stream and nothing else (`Released`).
* `connects_served`: a `connect` in progress is heard of, and it resolves to a stream only after the
  kernel has reported that its stream can be written.
-/

namespace LocalRuntime

variable {P N W : Type}

namespace Tcp

/-- The event sources, the open descriptors and the `Async` values are as they were. -/
structure Restored (m m' : Tcp P N W) : Prop where
  mem_iff : ∀ t, t ∈ m'.io.reactor.eventSources ↔ t ∈ m.io.reactor.eventSources
  asks : ∀ t d, Reactor.asks m'.io.reactor.eventSources t d =
    Reactor.asks m.io.reactor.eventSources t d
  isOpen : m'.isOpen = m.isOpen
  asyncs : m'.io.asyncs = m.io.asyncs

/-- The `Async` `i` is gone and its descriptor `s` is closed; the others are as they were. -/
structure Released (m : Tcp P N W) (i : ℕ) (s : Source) (m' : Tcp P N W) : Prop where
  mem_iff : ∀ t, t ∈ m'.io.reactor.eventSources ↔ t ≠ s ∧ t ∈ m.io.reactor.eventSources
  asks : ∀ t d, t ≠ s →
    Reactor.asks m'.io.reactor.eventSources t d = Reactor.asks m.io.reactor.eventSources t d
  isOpen : m'.isOpen = Function.update m.isOpen s false
  asyncs : m'.io.asyncs = Function.update m.io.asyncs i none

variable {m m' : Tcp P N W} {i c o j : ℕ} {s : Source} {w : W}

/-- To lose what was just acquired is to have what there was before. -/
theorem Released.restored {m₀ : Tcp P N W} (h : Released m i s m')
    (hsources : m.io.reactor.eventSources = m₀.io.reactor.eventSources.insert s .default)
    (hisOpen : m.isOpen = Function.update m₀.isOpen s true)
    (hasyncs : m.io.asyncs = Function.update m₀.io.asyncs i (some s))
    (hs : s ∉ m₀.io.reactor.eventSources) (hclosed : m₀.isOpen s = false)
    (hi : m₀.io.asyncs i = none) : Restored m₀ m' := by
  refine ⟨fun t ↦ ?_, fun t d ↦ ?_, ?_, ?_⟩
  · rw [h.mem_iff, hsources, Reactor.mem_insert]
    constructor
    · rintro ⟨hne, heq | hmem⟩
      · exact absurd heq hne
      · exact hmem
    · intro hmem
      exact ⟨fun heq ↦ hs (heq ▸ hmem), Or.inr hmem⟩
  · rcases eq_or_ne t s with rfl | hne
    · have hgone : t ∉ m'.io.reactor.eventSources := fun hmem ↦ ((h.mem_iff t).1 hmem).1 rfl
      rw [Reactor.asks_of_not_mem hgone, Reactor.asks_of_not_mem hs]
    · rw [h.asks t d hne, hsources, Reactor.asks_insert, if_neg hne]
  · rw [h.isOpen, hisOpen, Function.update_idem, ← hclosed, Function.update_eq_self]
  · rw [h.asyncs, hasyncs, Function.update_idem, ← hi, Function.update_eq_self]

section Calls

variable [EventPoller P] {one : Prop}

/-- An `Async` that owns its I/O object is dropped. -/
theorem released_drop (h : TcpInv one m) (hi : m.io.asyncs i = some s) (howns : m.owns i = true)
    (env : EventPoller.Env P) : Released m i s (m.drop i s env) := by
  have hsources : (Async.drop m.io.reactor env s).2.eventSources =
      m.io.reactor.eventSources.erase s :=
    (Async.drop_of_mem (h.mirror.mem hi)).2
  rw [Tcp.drop, howns]
  refine ⟨fun t ↦ ?_, fun t d hne ↦ ?_, rfl, rfl⟩
  · show t ∈ (Async.drop m.io.reactor env s).2.eventSources ↔ _
    rw [hsources, Reactor.mem_erase]
  · show Reactor.asks (Async.drop m.io.reactor env s).2.eventSources t d = _
    rw [hsources, Reactor.asks_erase, if_neg hne]

/-- A `connect` that fails in a poll of its stream gives the stream up. -/
theorem released_waitWritable (h : TcpInv one m) (hs : m.io.asyncs c = some s)
    (howns : m.owns c = true) {op : IoOp W} (hasync : op.async = c)
    (halone : one → ∀ j op', m.io.ops j = some op' → j ≠ c →
      ¬ (op'.async = op.async ∧ op'.interest = op.interest))
    {env : ConnectEnv P} {firstCall : Bool} {fault : Fault}
    (herr : (m.waitWritable c s op w env firstCall).1 = .ready (.error fault)) :
    Released m c s (m.waitWritable c s op w env firstCall).2 := by
  have hpolls : Async.Polls m.io.reactor s op.interest w
      (Async.waitForEventReady m.io.reactor env.enable s op.interest w firstCall) :=
    (Async.polls_waitForEventReady (h.mirror.mem hs) firstCall).1
  have hpolled := h.polledWritable hs hasync halone hpolls
  -- the poll changes nothing but what the stream asks for, so the drop is one from before it
  have hdrop {m₁ m₂ : Tcp P N W} (hm₁ : m₁ = { m with
      io := m.io.polled c op w
        (Async.waitForEventReady m.io.reactor env.enable s op.interest w firstCall)
      connecting := Function.update m.connecting c false }) (hrel : Released m₁ c s m₂) :
      Released m c s m₂ := by
    have hreactor : m₁.io.reactor =
        (Async.waitForEventReady m.io.reactor env.enable s op.interest w firstCall).2 := by
      rw [hm₁]
      rcases Async.waitForEventReady m.io.reactor env.enable s op.interest w firstCall
        with ⟨- | out, r⟩
      · rfl
      · rfl
    refine ⟨fun t ↦ ?_, fun t d hne ↦ ?_, ?_, ?_⟩
    · rw [hrel.mem_iff, hreactor, hpolls.mem_iff]
    · rw [hrel.asks t d hne, hreactor]
      exact hpolls.asks_of_ne t d fun heq ↦ hne heq.1
    · rw [hrel.isOpen, hm₁]
    · rw [hrel.asyncs, hm₁]
      exact congrArg (Function.update · c none) Io.asyncs_polled
  rw [Tcp.waitWritable] at herr ⊢
  generalize hres :
      (Async.waitForEventReady m.io.reactor env.enable s op.interest w firstCall).1 = res at herr ⊢
  have hs' : (m.io.polled c op w
      (Async.waitForEventReady m.io.reactor env.enable s op.interest w firstCall)).asyncs c =
      some s :=
    (congrFun Io.asyncs_polled c).trans hs
  have hrel := hdrop rfl (released_drop hpolled hs' howns env.deregister)
  rcases res with - | (fault' | ⟨⟩)
  · cases herr
  · exact hrel
  · simp only [Tcp.connected] at herr ⊢
    rcases hpeer : env.peerAddr with err | ⟨⟩
    · exact hrel
    · rw [hpeer] at herr
      cases herr

/-- A construction that fails closes the descriptor that it was given. -/
theorem restored_withoutNonblocking {env : EventPoller.Env P} {err : IoError} {m' : Tcp P N W}
    (hclosed : m.isOpen s = false)
    (hres : (m.opened s).withoutNonblocking i s true env = (.error err, m')) : Restored m m' := by
  have hcases := Async.withoutNonblocking_cases m.io.reactor env s
  rw [Tcp.withoutNonblocking] at hres
  rcases hasync : Async.withoutNonblocking (m.opened s).io.reactor env s with ⟨err' | s', r⟩
  · rw [hasync] at hres
    rw [show Async.withoutNonblocking m.io.reactor env s = (.error err', r) from hasync] at hcases
    rcases hcases with ⟨-, -, hsame⟩ | ⟨heq, -⟩
    · cases hres
      refine ⟨fun t ↦ Reactor.mem_congr hsame, fun t d ↦ Reactor.asks_congr hsame, ?_, rfl⟩
      show Function.update (Function.update m.isOpen s true) s false = m.isOpen
      rw [Function.update_idem, ← hclosed, Function.update_eq_self]
    · cases heq
  · rw [hasync] at hres
    cases hres

omit [EventPoller P] in
theorem eq_false_of_opens (hopens : m.opens (.ok s) = true) : m.isOpen s = false := by
  simpa [Tcp.opens, Except.toOption] using hopens

/-- **A `connect` that fails at its first poll leaves nothing behind**, at whatever call it
fails. -/
theorem restored_connect (h : TcpInv one m) (hc : m.io.asyncs c = none) {env : ConnectEnv P}
    (hopens : m.opens env.socket = true) {fault : Fault}
    (herr : (m.connect c w env).1 = .ready (.error fault)) : Restored m (m.connect c w env).2 := by
  rw [Tcp.connect] at herr ⊢
  rcases hsocket : env.socket with err | s
  · exact ⟨fun _ ↦ Iff.rfl, fun _ _ ↦ rfl, rfl, rfl⟩
  · rw [hsocket] at herr hopens
    have hclosed := eq_false_of_opens hopens
    have hnew : TcpInv one ((m.opened s).withoutNonblocking c s true env.register).2 :=
      (h.opened s).withoutNonblocking hc (Function.update_self _ _ _)
        (fun _ ↦ h.not_mem_of_opens hopens) env.register
    dsimp only at herr ⊢
    rcases hres : (m.opened s).withoutNonblocking c s true env.register with ⟨err | ⟨⟩, m₁⟩
    · exact restored_withoutNonblocking hclosed hres
    · rw [hres] at hnew herr
      obtain ⟨hasyncs, howns, hops, -, hisOpen, hnot, hsources⟩ := TcpInv.withoutNonblocking_ok hres
      have hs : m₁.io.asyncs c = some s := by rw [hasyncs, Function.update_self]
      have howns : m₁.owns c = true := by rw [howns, Function.update_self]
      dsimp only at herr ⊢
      rcases hconnect : LocalRuntime.connect env.connect with err | ⟨⟩
      · exact (released_drop hnew hs howns env.deregister).restored hsources hisOpen hasyncs hnot
          hclosed hc
      · rw [hconnect] at herr
        refine (released_waitWritable hnew hs howns rfl (fun _ k op' hk _ heq ↦ ?_) herr).restored
          hsources hisOpen hasyncs hnot hclosed hc
        rw [hops] at hk
        exact h.async_ne hc hk heq.1

theorem restored_acceptNew {env : AcceptEnv P} (hopens : m.opens env.accept = true) {err : IoError}
    (herr : (m.acceptNew j env).1 = .error err) : Restored m (m.acceptNew j env).2 := by
  rw [Tcp.acceptNew] at herr ⊢
  rcases haccept : env.accept with err' | s
  · exact ⟨fun _ ↦ Iff.rfl, fun _ _ ↦ rfl, rfl, rfl⟩
  · rw [haccept] at herr hopens
    have hclosed := eq_false_of_opens hopens
    dsimp only at herr ⊢
    rcases hnonblocking : env.nonblocking with err' | ⟨⟩
    · refine ⟨fun _ ↦ Iff.rfl, fun _ _ ↦ rfl, ?_, rfl⟩
      show Function.update (Function.update m.isOpen s true) s false = m.isOpen
      rw [Function.update_idem, ← hclosed, Function.update_eq_self]
    · rw [hnonblocking] at herr
      exact restored_withoutNonblocking hclosed (Prod.ext herr rfl)

/-- A poll of `accept` that does not return a stream holds no descriptor, and asks for no more than
to read from the listener. -/
theorem restored_pollAccept (h : TcpInv one m) {l : Source} {op : IoOp W} {env : AcceptEnv P}
    (hj : m.io.asyncs j = none) (hi : m.io.asyncs i = some l)
    (hopens : m.opens env.accept = true) (hres : (m.pollAccept o j l op w env).1 ≠ .ready (.ok j)) :
    (∀ t, t ∈ (m.pollAccept o j l op w env).2.io.reactor.eventSources ↔
        t ∈ m.io.reactor.eventSources) ∧
      (∀ t d, ¬ (t = l ∧ d = op.interest) →
        Reactor.asks (m.pollAccept o j l op w env).2.io.reactor.eventSources t d =
          Reactor.asks m.io.reactor.eventSources t d) ∧
      (m.pollAccept o j l op w env).2.isOpen = m.isOpen ∧
      (m.pollAccept o j l op w env).2.io.asyncs = m.io.asyncs := by
  have hnew := h.acceptNew hj env hopens
  have hij : i ≠ j := by
    rintro rfl
    rw [hj] at hi
    cases hi
  have hi' : (m.acceptNew j env).2.io.asyncs i = some l :=
    ((TcpInv.acceptNew_frame m j env).2.2 i hij).trans hi
  have hpolls : Async.Polls (m.acceptNew j env).2.io.reactor l op.interest w
      (Async.pollEvent (m.acceptNew j env).2.io.reactor env.enable l op.interest w
        (m.acceptNew j env).1) := Async.polls_pollEvent (hnew.mirror.mem hi') _
  have hrestored : Restored m (m.acceptNew j env).2 := by
    rcases hout : (m.acceptNew j env).1 with err | ⟨⟩
    · exact restored_acceptNew hopens hout
    · refine absurd ?_ hres
      rw [Tcp.pollAccept]
      rcases hsplit : m.acceptNew j env with ⟨out, m₁⟩
      rw [hsplit] at hout
      obtain rfl : out = .ok () := hout
      rfl
  have hreactor : (m.pollAccept o j l op w env).2.io.reactor =
      (Async.pollEvent (m.acceptNew j env).2.io.reactor env.enable l op.interest w
        (m.acceptNew j env).1).2 := by
    rw [TcpInv.pollAccept_snd]
    rcases Async.pollEvent (m.acceptNew j env).2.io.reactor env.enable l op.interest w
      (m.acceptNew j env).1 with ⟨- | out, r⟩
    · rfl
    · rfl
  refine ⟨fun t ↦ ?_, fun t d hne ↦ ?_, ?_, ?_⟩
  · rw [hreactor, hpolls.mem_iff t, hrestored.mem_iff t]
  · rw [hreactor, hpolls.asks_of_ne t d hne, hrestored.asks t d]
  · rw [TcpInv.pollAccept_snd]
    exact hrestored.isOpen
  · rw [TcpInv.pollAccept_snd]
    exact Io.asyncs_polled.trans hrestored.asyncs

/-- A poll of `incoming` is a poll of `accept`, whose answers are items. -/
theorem pollNext_eq_pollAccept (m : Tcp P N W) (o j : ℕ) (l : Source) (op : IoOp W) (w : W)
    (env : AcceptEnv P) :
    (m.pollNext o j l op w env).2 = (m.pollAccept o j l op w env).2 ∧
      ∀ item, (m.pollNext o j l op w env).1 = .ready item ↔
        ∃ res, (m.pollAccept o j l op w env).1 = .ready res ∧ item = some res := by
  rw [Tcp.pollNext]
  rcases m.pollAccept o j l op w env with ⟨- | res, m'⟩
  · exact ⟨rfl, by simp⟩
  · exact ⟨rfl, by simp [eq_comm]⟩

end Calls

/-! ### Every run -/

section Run

variable [EventPoller P] [EventNotifier N]

/-- What holds of the descriptors of a thread at every moment. -/
structure DescriptorsSafe (m : Tcp P N W) : Prop where
  /-- The reactor has the descriptors of the `Async` values that are alive, and all of them are
  open. -/
  mem_iff : ∀ s, s ∈ m.io.reactor.eventSources ↔ ∃ i, m.io.asyncs i = some s
  isOpen : ∀ s ∈ m.io.reactor.eventSources, m.isOpen s = true
  panics : m.io.panics = []
  /-- A `connect` that fails at its first poll leaves nothing behind. -/
  connect : ∀ c w env fault, m.io.asyncs c = none → m.opens env.socket = true →
    (m.connect c w env).1 = .ready (.error fault) → Restored m (m.connect c w env).2
  /-- One that fails later, and one that is dropped, gives up its stream and nothing else. -/
  pollConnect : ∀ c s op w env fault, m.connecting c = true → m.io.asyncs c = some s →
    m.io.ops c = some op → (m.waitWritable c s op w env false).1 = .ready (.error fault) →
    Released m c s (m.waitWritable c s op w env false).2
  dropConnect : ∀ c s env, m.connecting c = true → m.io.asyncs c = some s →
    Released m c s (m.drop c s env)
  /-- An `accept` that has not returned a stream holds no descriptor, and changes what the reactor
  asks for in the direction that it waits for only. -/
  accept : ∀ o i j l op w env, m.io.asyncs j = none → m.io.asyncs i = some l →
    m.opens env.accept = true → (m.pollAccept o j l op w env).1 ≠ .ready (.ok j) →
    (∀ t, t ∈ (m.pollAccept o j l op w env).2.io.reactor.eventSources ↔
        t ∈ m.io.reactor.eventSources) ∧
      (∀ t d, ¬ (t = l ∧ d = op.interest) →
        Reactor.asks (m.pollAccept o j l op w env).2.io.reactor.eventSources t d =
          Reactor.asks m.io.reactor.eventSources t d) ∧
      (m.pollAccept o j l op w env).2.isOpen = m.isOpen ∧
      (m.pollAccept o j l op w env).2.io.asyncs = m.io.asyncs
  /-- The stream of `incoming` does to the thread what `accept` does, yields what that returns and
  never ends. -/
  incoming : ∀ o j l op w env, (m.pollNext o j l op w env).2 = (m.pollAccept o j l op w env).2 ∧
    ∀ item, (m.pollNext o j l op w env).1 = .ready item ↔
      ∃ res, (m.pollAccept o j l op w env).1 = .ready res ∧ item = some res

/-- **Descriptors are neither dangling nor leaked.** Whatever the program does with `Async` values
(also `connect`s and `accept`s that fail at any of their system calls, or that are dropped while
they are pending), the reactor has no closed descriptor, and what fails closes what it has
opened. -/
theorem descriptors_safe (poller : P) (timerQueue : TimerQueue W) (notifier : WithFlag N)
    (isOpen : Source → Bool) (acts : List (TcpAct P N W)) (m : Tcp P N W)
    (hrun : (machine P N W).run (.init poller timerQueue notifier isOpen) acts = some m) :
    DescriptorsSafe m := by
  have h : TcpInv False m :=
    Machine.run_preserves (M := machine P N W) (I := TcpInv False)
      (fun _ _ _ h hstep ↦ h.step False.elim hstep)
      (.init False poller timerQueue notifier isOpen) hrun
  refine ⟨h.mirror.mem_iff, fun s ↦ h.isOpen_of_mem, h.mirror.panics, ?_, ?_, ?_, ?_, ?_⟩
  · intro c w env fault hc hopens herr
    exact restored_connect h hc hopens herr
  · intro c s op w env fault hc hs hop herr
    obtain ⟨-, howns, op', w', hop', hasync, -⟩ := h.connecting c hc
    obtain rfl := Option.some.inj (hop.symm.trans hop')
    exact released_waitWritable h hs howns hasync False.elim herr
  · intro c s env hc hs
    exact released_drop h hs (h.connecting c hc).owns env
  · intro o i j l op w env hj hi hopens hres
    exact restored_pollAccept h hj hi hopens hres
  · intro o j l op w env
    exact pollNext_eq_pollAccept m o j l op w env

/-- The answers to a `connect` to which the kernel gives descriptor 5. -/
def connectEnv (connect peerAddr : Except IoError Unit) : ConnectEnv (PollPoller TimerFd) where
  socket := .ok 5
  register := Reactor.readableEnv []
  connect
  enable := Reactor.readableEnv []
  peerAddr
  deregister := Reactor.readableEnv []

/-- A connection that is refused at once (`ECONNREFUSED`), one that is dropped while it is in
progress, and one that turns out not to be connected (`ENOTCONN`), all with the same descriptor. -/
def refused : List (TcpAct (PollPoller TimerFd) EventFd ℕ) :=
  [.connect 0 7 (connectEnv (.error (.errno 111)) (.ok ())),
    .connect 1 7 (connectEnv (.error inProgress) (.ok ())), .dropConnect 1 (Reactor.readableEnv []),
    .connect 2 7 (connectEnv (.error inProgress) (.ok ())),
    .io (.wait ⟨0, ⟨none, .ok fun s ↦ if s = 5 then PollFlags.HUP else 0#16⟩, 0, none⟩),
    .pollConnect 2 8 (connectEnv (.ok ()) (.error (.errno 107)))]

theorem descriptors_safe_refused :
    ∃ m, (machine (PollPoller TimerFd) EventFd ℕ).run
      (.init ⟨[], 3, ⟨4, TimerFd.itimerspec none⟩⟩ .new
        (.new ⟨3, 0⟩) fun s ↦ s = 3 ∨ s = 4) refused = some m ∧ m.isOpen 5 = false ∧
      m.io.reactor.filters = [] ∧ DescriptorsSafe m := by
  obtain ⟨m, hrun, hopen, hfilters⟩ : ∃ m, (machine (PollPoller TimerFd) EventFd ℕ).run
      (.init ⟨[], 3, ⟨4, TimerFd.itimerspec none⟩⟩ .new (.new ⟨3, 0⟩)
        fun s ↦ s = 3 ∨ s = 4) refused = some m ∧
      m.isOpen 5 = false ∧ m.io.reactor.filters = [] := ⟨_, rfl, rfl, rfl⟩
  exact ⟨m, hrun, hopen, hfilters, descriptors_safe _ _ _ _ refused m hrun⟩

/-- What holds of the `connect`s of a thread at every moment. -/
structure ConnectsServed (m : Tcp P N W) : Prop where
  /-- The waker of the last poll of a `connect` in progress waits for its stream to be writable, or
  has been invoked since. -/
  heard : ∀ c, m.connecting c = true → ∃ s op w, m.io.asyncs c = some s ∧ m.io.ops c = some op ∧
    op.phase = .pending w ∧
      (Reactor.asks m.io.reactor.eventSources s .write = some w ∨ w ∈ op.woken)
  /-- It resolves to a stream only if the kernel has reported the stream as writable since its first
  poll, and then says that it has a peer; the stream is open and in the reactor. -/
  resolves : ∀ c s op w env i, m.connecting c = true → m.io.asyncs c = some s →
    m.io.ops c = some op → (m.waitWritable c s op w env false).1 = .ready (.ok i) →
    (∃ f, (s, f) ∈ op.reports ∧ f.write = true) ∧ env.peerAddr = .ok () ∧ i = c ∧
      (m.waitWritable c s op w env false).2.io.asyncs c = some s ∧
      (m.waitWritable c s op w env false).2.connecting c = false ∧
      s ∈ (m.waitWritable c s op w env false).2.io.reactor.eventSources ∧
      (m.waitWritable c s op w env false).2.isOpen s = true
  /-- Even if `connect(2)` succeeds at once, the first poll returns no stream. -/
  first : ∀ c w env i, m.io.asyncs c = none → m.opens env.socket = true →
    (m.connect c w env).1 ≠ .ready (.ok i)

omit [EventNotifier N] in
/-- A poll of the stream that ends a `connect`. -/
theorem waitWritable_ok {op : IoOp W} {env : ConnectEnv P} {firstCall : Bool}
    (hok : (m.waitWritable c s op w env firstCall).1 = .ready (.ok i)) :
    (Async.waitForEventReady m.io.reactor env.enable s op.interest w firstCall).1 =
      .ready (.ok ()) ∧ env.peerAddr = .ok () ∧ i = c ∧
      (m.waitWritable c s op w env firstCall).2 = { m with
        io := m.io.polled c op w
          (Async.waitForEventReady m.io.reactor env.enable s op.interest w firstCall)
        connecting := Function.update m.connecting c false } := by
  rw [Tcp.waitWritable] at hok ⊢
  generalize hres :
      (Async.waitForEventReady m.io.reactor env.enable s op.interest w firstCall).1 = res at hok ⊢
  rcases res with - | (fault | ⟨⟩)
  · cases hok
  · cases hok
  · simp only [Tcp.connected] at hok ⊢
    rcases hpeer : env.peerAddr with err | ⟨⟩
    · rw [hpeer] at hok
      cases hok
    · rw [hpeer] at hok
      cases hok
      exact ⟨trivial, rfl, rfl, rfl⟩

omit [EventNotifier N] in
theorem connect_ne_ok {one : Prop} (h : TcpInv one m) (hc : m.io.asyncs c = none)
    {env : ConnectEnv P} (hopens : m.opens env.socket = true) :
    (m.connect c w env).1 ≠ .ready (.ok i) := by
  intro hok
  rw [Tcp.connect] at hok
  rcases hsocket : env.socket with err | s
  · rw [hsocket] at hok
    cases hok
  rw [hsocket] at hok hopens
  have hnew : TcpInv one ((m.opened s).withoutNonblocking c s true env.register).2 :=
    (h.opened s).withoutNonblocking hc (Function.update_self _ _ _)
      (fun _ ↦ h.not_mem_of_opens hopens) env.register
  dsimp only at hok
  rcases hres : (m.opened s).withoutNonblocking c s true env.register with ⟨err | ⟨⟩, m₁⟩
  · rw [hres] at hok
    cases hok
  rw [hres] at hok hnew
  have hs : m₁.io.asyncs c = some s := by
    rw [(TcpInv.withoutNonblocking_ok hres).1, Function.update_self]
  dsimp only at hok
  rcases hconnect : LocalRuntime.connect env.connect with err | ⟨⟩
  · rw [hconnect] at hok
    cases hok
  · rw [hconnect] at hok
    -- the first poll of `wait_for_event_ready` enables the event and is pending
    have hready := (waitWritable_ok hok).1
    exact absurd ((Async.polls_waitForEventReady (hnew.mirror.mem hs) true).2 hready).1 (by decide)

/-- **A `connect` is served**, as long as the program keeps to one operation at a time on each
direction of a descriptor: it is heard of, and it does not resolve before its stream has been
reported as writable. -/
theorem connects_served (poller : P) (timerQueue : TimerQueue W) (notifier : WithFlag N)
    (isOpen : Source → Bool) (acts : List (TcpAct P N W)) (m : Tcp P N W)
    (hone : (machine P N W).AllSteps OnePerDirection (.init poller timerQueue notifier isOpen) acts)
    (hrun : (machine P N W).run (.init poller timerQueue notifier isOpen) acts = some m) :
    ConnectsServed m := by
  have h : TcpInv True m :=
    Machine.run_preserves_of_allSteps (M := machine P N W) (I := TcpInv True)
      (fun _ _ _ h hone hstep ↦ h.step (fun _ ↦ hone) hstep)
      (.init True poller timerQueue notifier isOpen) hone hrun
  refine ⟨fun c hc ↦ ?_, fun c s op w env i hc hs hop hok ↦ ?_, fun c w env i hc hopens ↦ ?_⟩
  · obtain ⟨⟨s, hs⟩, -, op, w, hop, hasync, hinterest, -, hphase⟩ := h.connecting c hc
    have hserved := ((h.served trivial).served c op s hop (hasync ▸ hs)).heard w hphase
    rw [hinterest] at hserved
    exact ⟨s, op, w, hs, hop, hphase, hserved⟩
  · obtain ⟨-, howns, op', w', hop', hasync, hinterest, hready, -⟩ := h.connecting c hc
    obtain rfl := Option.some.inj (hop.symm.trans hop')
    obtain ⟨hres, hpeer, hic, hstate⟩ := waitWritable_ok hok
    have hkept := h.waitWritable (w := w) hs howns hasync hinterest hready
      (fun hone' ↦ (h.served hone').alone hop) env false
    have hs' : (m.waitWritable c s op w env false).2.io.asyncs c = some s := by
      rw [hstate]
      exact (congrFun Io.asyncs_polled c).trans hs
    refine ⟨?_, hpeer, hic, hs', ?_, hkept.mirror.mem hs', hkept.isOpen c s hs'⟩
    · have hseen := ((h.served trivial).served c op s hop (hasync ▸ hs)).seen hready
      have hnone := ((Async.polls_waitForEventReady (h.mirror.mem hs) false).2 hres).2
      obtain ⟨f, hf, hhas⟩ := hseen.resolve_left fun hne ↦ hne hnone
      rw [hinterest] at hhas
      exact ⟨f, hf, hhas⟩
    · rw [hstate]
      exact Function.update_self _ _ _
  · exact connect_ne_ok h hc hopens

/-- A connection in progress whose stream becomes writable, while another task waits for a
listener. -/
def inTheMiddle : List (TcpAct (PollPoller TimerFd) EventFd ℕ) :=
  [.opening 6, .new 1 6 true (.ok ()) (Reactor.readableEnv []),
    .connect 0 7 (connectEnv (.error inProgress) (.ok ())),
    .accept 2 1 3 9 ⟨.error wouldBlock, .ok (), Reactor.readableEnv [], Reactor.readableEnv []⟩,
    .io (.wait ⟨0, ⟨none, .ok fun s ↦ if s = 5 then PollFlags.OUT else 0#16⟩, 0, none⟩)]

theorem connects_served_inTheMiddle :
    ∃ m, (machine (PollPoller TimerFd) EventFd ℕ).run
      (.init ⟨[], 3, ⟨4, TimerFd.itimerspec none⟩⟩ .new
        (.new ⟨3, 0⟩) fun s ↦ s = 3 ∨ s = 4) inTheMiddle = some m ∧ m.connecting 0 = true ∧
      (m.io.ops 0).map (fun op ↦ op.woken) = some [7] ∧ ConnectsServed m := by
  obtain ⟨m, hrun, hconnecting, hwoken⟩ : ∃ m, (machine (PollPoller TimerFd) EventFd ℕ).run
      (.init ⟨[], 3, ⟨4, TimerFd.itimerspec none⟩⟩ .new (.new ⟨3, 0⟩) fun s ↦ s = 3 ∨ s = 4)
        inTheMiddle = some m ∧ m.connecting 0 = true ∧
          (m.io.ops 0).map (fun op ↦ op.woken) = some [7] := ⟨_, rfl, rfl, rfl⟩
  refine ⟨m, hrun, hconnecting, hwoken, connects_served _ _ _ _ inTheMiddle m ?_ hrun⟩
  refine ⟨trivial, fun m₁ h₁ ↦ ⟨trivial, fun m₂ h₂ ↦ ⟨trivial, fun m₃ h₃ ↦ ⟨fun _ k op hk ↦ ?_,
    fun m₄ h₄ ↦ ⟨trivial, fun _ _ ↦ trivial⟩⟩⟩⟩⟩
  -- the only operation is the one of the connection, and it is not on the listener
  obtain rfl := Option.some.inj h₁
  obtain rfl := Option.some.inj h₂
  obtain rfl := Option.some.inj h₃
  rintro ⟨hasync, -⟩
  rcases eq_or_ne k 0 with rfl | hne
  · obtain rfl := Option.some.inj hk
    exact absurd hasync (by decide)
  · exact absurd (hk.symm.trans (Function.update_of_ne hne _ _)) (Option.some_ne_none op)

end Run

end Tcp

end LocalRuntime
