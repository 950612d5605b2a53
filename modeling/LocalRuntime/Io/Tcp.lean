import LocalRuntime.Io.Ready

/-!
# Descriptors

The I/O objects of `src/io.rs` with what the kernel knows of them. The reactor stores raw
descriptors, so `Async` promises (and `IoSafe` asks its implementors to promise) that none of them
is closed while the reactor has it: a guard that is dropped before the I/O object takes it out.
`Tcp` is the I/O of a thread together with the table of open descriptors, and the steps are what a
program does with `Async` values: wrap and unwrap descriptors, drop them, `connect` and `accept`,
which open and close descriptors of their own, and everything that polls.

`connect` is an `async fn`. It is cut where it can return `Pending`, and the stream that it holds
meanwhile belongs to the future: no one else can reach it, and dropping the future drops it.

The table of the kernel is an assumption about the outside: a call that opens a descriptor returns
one that is not open.
-/

namespace LocalRuntime

variable {P N W : Type}

/-- `EINPROGRESS`. -/
def inProgress : IoError := .errno 115

/-- Initiate a connection: the answer of `connect(2)`, save that a connection in progress is no
error. -/
def connect (res : Except IoError Unit) : Except IoError Unit :=
  match res with
  | .ok () => .ok ()
  | .error err => if err = inProgress ∨ err = wouldBlock then .ok () else .error err

/-- What the system calls of one poll of `Async::<TcpStream>::connect` answer. -/
structure ConnectEnv (P : Type) [EventPoller P] where
  /-- The descriptor that `tcp_socket` opens. -/
  socket : Except IoError Source
  register : EventPoller.Env P
  connect : Except IoError Unit
  enable : EventPoller.Env P
  peerAddr : Except IoError Unit
  deregister : EventPoller.Env P

/-- What the system calls of one poll of `poll_accept` answer. -/
structure AcceptEnv (P : Type) [EventPoller P] where
  /-- The descriptor of the connection. -/
  accept : Except IoError Source
  nonblocking : Except IoError Unit
  register : EventPoller.Env P
  enable : EventPoller.Env P

/-- The I/O of a thread and the open descriptors. -/
structure Tcp (P N W : Type) where
  io : Io P N W
  /-- The descriptor is open. -/
  isOpen : Source → Bool
  /-- The `Async` has taken its I/O object by value, and closes it when it is dropped. -/
  owns : ℕ → Bool
  /-- The `Async` belongs to a `connect` that has returned `Pending`. -/
  connecting : ℕ → Bool

namespace Tcp

/-- A thread without `Async` values. -/
def init (poller : P) (timerQueue : TimerQueue W) (notifier : WithFlag N) (isOpen : Source → Bool) :
    Tcp P N W :=
  ⟨.init poller timerQueue notifier, isOpen, fun _ ↦ false, fun _ ↦ false⟩

/-- An I/O object is dropped; if it is not a reference its descriptor is closed. -/
def dropInner (m : Tcp P N W) (s : Source) (owned : Bool) : Tcp P N W :=
  if owned then { m with isOpen := Function.update m.isOpen s false } else m

/-- A system call opens a descriptor. -/
def opened (m : Tcp P N W) (s : Source) : Tcp P N W :=
  { m with isOpen := Function.update m.isOpen s true }

section Calls

variable [EventPoller P]

/-- `Async::without_nonblocking`. If the registration fails the I/O object is dropped. -/
def withoutNonblocking (m : Tcp P N W) (i : ℕ) (s : Source) (owned : Bool)
    (env : EventPoller.Env P) : Except IoError Unit × Tcp P N W :=
  let res := Async.withoutNonblocking m.io.reactor env s
  let m := { m with io := m.io.construct i res }
  match res.1 with
  | .error err => (.error err, m.dropInner s owned)
  | .ok _ => (.ok (), { m with owns := Function.update m.owns i owned })

/-- `Async::new`. -/
def new (m : Tcp P N W) (i : ℕ) (s : Source) (owned : Bool) (nonblocking : Except IoError Unit)
    (env : EventPoller.Env P) : Except IoError Unit × Tcp P N W :=
  match nonblocking with
  | .error err => (.error err, m.dropInner s owned)
  | .ok () => m.withoutNonblocking i s owned env

/-- Drop the guard of an `Async`, which is the first half of dropping it and all of `into_inner`. -/
def dropGuard (m : Tcp P N W) (i : ℕ) (s : Source) (env : EventPoller.Env P) : Tcp P N W :=
  { m with
    io := m.io.release i (Async.drop m.io.reactor env s)
    connecting := Function.update m.connecting i false }

/-- Drop an `Async`: the guard, and then the I/O object. -/
def drop (m : Tcp P N W) (i : ℕ) (s : Source) (env : EventPoller.Env P) : Tcp P N W :=
  (m.dropGuard i s env).dropInner s (m.owns i)

/-- The end of `Async::<TcpStream>::connect`, from the answer of `wait_for_event_ready` on. Every
error drops the stream. -/
def connected (m : Tcp P N W) (c : ℕ) (s : Source) (env : ConnectEnv P)
    (res : Poll (Except Fault Unit)) : Poll (Except Fault ℕ) × Tcp P N W :=
  match res with
  | .pending => (.pending, { m with connecting := Function.update m.connecting c true })
  | .ready (.error fault) => (.ready (.error fault), m.drop c s env.deregister)
  | .ready (.ok ()) =>
    match env.peerAddr with
    | .error err => (.ready (.error (.io err)), m.drop c s env.deregister)
    | .ok () => (.ready (.ok c), m)

/-- A poll of the `wait_for_event_ready` in `connect`, and what follows it. -/
def waitWritable (m : Tcp P N W) (c : ℕ) (s : Source) (op : IoOp W) (w : W) (env : ConnectEnv P)
    (firstCall : Bool) : Poll (Except Fault ℕ) × Tcp P N W :=
  let res := Async.waitForEventReady m.io.reactor env.enable s op.interest w firstCall
  connected { m with
    io := m.io.polled c op w res
    connecting := Function.update m.connecting c false } c s env res.1

/-- The first poll of `Async::<TcpStream>::connect`. -/
def connect (m : Tcp P N W) (c : ℕ) (w : W) (env : ConnectEnv P) :
    Poll (Except Fault ℕ) × Tcp P N W :=
  match env.socket with
  | .error err => (.ready (.error (.io err)), m)
  | .ok s =>
    match (m.opened s).withoutNonblocking c s true env.register with
    | (.error err, m) => (.ready (.error (.io err)), m)
    | (.ok (), m) =>
      match LocalRuntime.connect env.connect with
      | .error err => (.ready (.error (.io err)), m.drop c s env.deregister)
      | .ok () => m.waitWritable c s ⟨c, .write, true, .pending w, [], []⟩ w env true

/-- What `poll_accept` calls in its closure. -/
def acceptNew (m : Tcp P N W) (j : ℕ) (env : AcceptEnv P) : Except IoError Unit × Tcp P N W :=
  match env.accept with
  | .error err => (.error err, m)
  | .ok s => (m.opened s).new j s true env.nonblocking env.register

/-- `poll_accept` on the listener with descriptor `l`, for an operation `op` that has begun. -/
def pollAccept (m : Tcp P N W) (o j : ℕ) (l : Source) (op : IoOp W) (w : W) (env : AcceptEnv P) :
    Poll (Except Fault ℕ) × Tcp P N W :=
  let (res, m) := m.acceptNew j env
  let out := Async.pollEvent m.io.reactor env.enable l op.interest w res
  let m := { m with io := m.io.polled o op w out }
  match out.1 with
  | .pending => (.pending, m)
  | .ready (.error fault) => (.ready (.error fault), m)
  | .ready (.ok ()) => (.ready (.ok j), m)

/-- `IncomingTcp::poll_next`. -/
def pollNext (m : Tcp P N W) (o j : ℕ) (l : Source) (op : IoOp W) (w : W) (env : AcceptEnv P) :
    Poll (Option (Except Fault ℕ)) × Tcp P N W :=
  let (res, m) := m.pollAccept o j l op w env
  match res with
  | .pending => (.pending, m)
  | .ready out => (.ready (some out), m)

end Calls

end Tcp

/-! ### What a thread does -/

/-- What a program does with its descriptors. -/
inductive TcpAct (P N W : Type) [EventPoller P] where
  /-- A descriptor is opened or closed by other means than an `Async`. -/
  | opening (s : Source)
  | closing (s : Source)
  | withoutNonblocking (i : ℕ) (s : Source) (owned : Bool) (env : EventPoller.Env P)
  | new (i : ℕ) (s : Source) (owned : Bool) (nonblocking : Except IoError Unit)
      (env : EventPoller.Env P)
  | drop (i : ℕ) (env : EventPoller.Env P)
  | intoInner (i : ℕ) (env : EventPoller.Env P)
  /-- The first poll of a `connect`, another one, and its drop while it is pending. -/
  | connect (c : ℕ) (w : W) (env : ConnectEnv P)
  | pollConnect (c : ℕ) (w : W) (env : ConnectEnv P)
  | dropConnect (c : ℕ) (env : EventPoller.Env P)
  /-- A poll of `accept` or of `incoming`. -/
  | accept (o i j : ℕ) (w : W) (env : AcceptEnv P)
  /-- A poll of another operation, a `wait`, or a change of the timers and the notifier. -/
  | io (a : IoAct P N W)

namespace Tcp

variable [EventPoller P] [EventNotifier N]

/-- The actions on `Async` values that the program can reach. Those of a `connect` in progress it
cannot, and wrapping and dropping are actions of their own. -/
def allows (m : Tcp P N W) : IoAct P N W → Bool
  | .new .. | .withoutNonblocking .. | .drop .. => false
  | .start _ i _ _ | .startReady _ i _ _ _ => !m.connecting i
  | .attempt o _ | .ret o _ _ | .pollReady o _ _ | .dropOp o =>
    (m.io.ops o).all fun op ↦ !m.connecting op.async
  | .wait _ | .elsewhere .. => true

/-- The operation of a poll of `accept`: a new one, or one that has returned pending. -/
def acceptOp (m : Tcp P N W) (o i : ℕ) (w : W) : Option (IoOp W) :=
  match m.io.ops o with
  | none => some ⟨i, .read, false, .attempting w, [], []⟩
  | some op =>
    match op.phase with
    | .pending _ =>
      if op.async = i ∧ op.interest = .read ∧ op.isReady = false then some op else none
    | .attempting _ => none

/-- A call that opens a descriptor returns one that is not open. -/
def opens (m : Tcp P N W) (res : Except IoError Source) : Bool :=
  res.toOption.all fun s ↦ !m.isOpen s

/-- The step of an action. A descriptor that an `Async` has is not closed behind its back, and a
value that is moved into an `Async` is in no other. -/
def step (m : Tcp P N W) : TcpAct P N W → Option (Tcp P N W)
  | .opening s => if m.isOpen s then none else some (m.opened s)
  | .closing s =>
    if m.isOpen s ∧ s ∉ m.io.reactor.eventSources then some (m.dropInner s true) else none
  | .withoutNonblocking i s owned env =>
    if m.io.asyncs i = none ∧ m.isOpen s ∧ (owned = true → s ∉ m.io.reactor.eventSources) then
      some (m.withoutNonblocking i s owned env).2
    else none
  | .new i s owned nonblocking env =>
    if m.io.asyncs i = none ∧ m.isOpen s ∧ (owned = true → s ∉ m.io.reactor.eventSources) then
      some (m.new i s owned nonblocking env).2
    else none
  | .drop i env =>
    match m.io.asyncs i, m.connecting i with
    | some s, false => some (m.drop i s env)
    | _, _ => none
  | .intoInner i env =>
    match m.io.asyncs i, m.connecting i with
    | some s, false => some (m.dropGuard i s env)
    | _, _ => none
  | .connect c w env =>
    if m.io.asyncs c = none ∧ m.io.ops c = none ∧ m.opens env.socket then
      some (m.connect c w env).2
    else none
  | .pollConnect c w env =>
    match m.io.asyncs c, m.io.ops c, m.connecting c with
    | some s, some op, true => some (m.waitWritable c s op w env false).2
    | _, _, _ => none
  | .dropConnect c env =>
    match m.io.asyncs c, m.connecting c with
    | some s, true => some (m.drop c s env)
    | _, _ => none
  | .accept o i j w env =>
    match m.io.asyncs i, m.acceptOp o i w with
    | some l, some op =>
      if m.connecting i = false ∧ m.io.asyncs j = none ∧ m.opens env.accept then
        some (m.pollAccept o j l op w env).2
      else none
    | _, _ => none
  | .io a => if m.allows a then (m.io.step a).map fun io ↦ { m with io } else none

/-- The machine of the descriptors of a thread. -/
def machine (P N W : Type) [EventPoller P] [EventNotifier N] : Machine (Tcp P N W) (TcpAct P N W) :=
  ⟨step⟩

/-- Only one task reads and only one task writes at a time. The writer of a `connect` in progress is
alone with its stream. -/
def OnePerDirection (m : Tcp P N W) : TcpAct P N W → Prop
  | .accept o i _ _ _ => m.io.ops o = none → ∀ k op, m.io.ops k = some op →
      ¬ (op.async = i ∧ op.interest = .read)
  | .io a => m.io.OnePerDirection a
  | _ => True

end Tcp

/-! ### The invariant -/

namespace Io

variable {m : Io P N W} {c : ℕ}

/-- The operation is still there, whatever it has heard. -/
def Keeps (m m' : Io P N W) (c : ℕ) : Prop :=
  ∀ op, m.ops c = some op → ∃ op', m'.ops c = some op' ∧ op'.async = op.async ∧
    op'.interest = op.interest ∧ op'.isReady = op.isReady ∧ op'.phase = op.phase

theorem Keeps.of_eq {m' : Io P N W} (h : m'.ops c = m.ops c) : m.Keeps m' c :=
  fun op hop ↦ ⟨op, h.trans hop, rfl, rfl, rfl, rfl⟩

end Io

/-- A `connect` that has returned `Pending` has its stream, and one operation on it. -/
structure Tcp.Connects (m : Tcp P N W) (c : ℕ) : Prop where
  stream : ∃ s, m.io.asyncs c = some s
  owns : m.owns c = true
  op : ∃ op w, m.io.ops c = some op ∧ op.async = c ∧ op.interest = .write ∧ op.isReady = true ∧
    op.phase = .pending w

/-- The event sources are the descriptors of the `Async` values, all of them open. The parameter
says whether the program keeps to one operation on each direction of a descriptor; if it does, the
operations are served as well. -/
structure TcpInv (one : Prop) (m : Tcp P N W) : Prop where
  mirror : Io.MirrorInv m.io
  served : one → Io.ServedInv m.io
  isOpen : ∀ i s, m.io.asyncs i = some s → m.isOpen s = true
  connecting : ∀ c, m.connecting c = true → m.Connects c

namespace TcpInv

variable {one : Prop} {m : Tcp P N W} {i c o : ℕ} {s : Source} {w : W}

/-- **The reactor has no closed descriptor.** -/
theorem isOpen_of_mem (h : TcpInv one m) (hs : s ∈ m.io.reactor.eventSources) :
    m.isOpen s = true := by
  obtain ⟨i, hi⟩ := (h.mirror.mem_iff s).1 hs
  exact h.isOpen i s hi

theorem opened (h : TcpInv one m) (s : Source) : TcpInv one (m.opened s) := by
  refine ⟨h.mirror, h.served, fun i t hi ↦ ?_, fun c hc ↦ ?_⟩
  · show Function.update m.isOpen s true t = true
    rcases eq_or_ne t s with rfl | hne
    · exact Function.update_self _ _ _
    · rw [Function.update_of_ne hne]
      exact h.isOpen i t hi
  · obtain ⟨hstream, howns, hop⟩ := h.connecting c hc
    exact ⟨hstream, howns, hop⟩

/-- An I/O object is dropped that no `Async` has. -/
theorem dropInner (h : TcpInv one m) {owned : Bool}
    (hs : owned = true → ∀ i, m.io.asyncs i ≠ some s) : TcpInv one (m.dropInner s owned) := by
  rw [Tcp.dropInner]
  split
  next howned =>
    refine ⟨h.mirror, h.served, fun i t hi ↦ ?_, fun c hc ↦ ?_⟩
    · have hne : t ≠ s := by
        rintro rfl
        exact hs howned i hi
      show Function.update m.isOpen s false t = true
      rw [Function.update_of_ne hne]
      exact h.isOpen i t hi
    · obtain ⟨hstream, howns, hop⟩ := h.connecting c hc
      exact ⟨hstream, howns, hop⟩
  next => exact h

/-- The `Async` of a `connect` in progress is not one that is being made. -/
theorem ne_of_connecting (h : TcpInv one m) (hi : m.io.asyncs i = none)
    (hc : m.connecting c = true) : c ≠ i := by
  rintro rfl
  obtain ⟨s, hs⟩ := (h.connecting c hc).stream
  rw [hi] at hs
  cases hs

section Calls

variable [EventPoller P]

theorem withoutNonblocking (h : TcpInv one m) (hi : m.io.asyncs i = none)
    (hopen : m.isOpen s = true) {owned : Bool}
    (howned : owned = true → s ∉ m.io.reactor.eventSources) (env : EventPoller.Env P) :
    TcpInv one (m.withoutNonblocking i s owned env).2 := by
  have hcases := Async.withoutNonblocking_cases m.io.reactor env s
  have hmirror := h.mirror.construct hi hcases
  have hserved (ho : one) := (h.served ho).construct h.mirror hi hcases
  rw [Tcp.withoutNonblocking]
  rcases hres : Async.withoutNonblocking m.io.reactor env s with ⟨err | s', r⟩
  · rw [hres] at hmirror hserved
    have hio : TcpInv one { m with io := m.io.construct i (.error err, r) } := by
      refine ⟨hmirror, hserved, h.isOpen, fun c hc ↦ ?_⟩
      obtain ⟨hstream, howns, hop⟩ := h.connecting c hc
      exact ⟨hstream, howns, hop⟩
    exact hio.dropInner fun ho j hj ↦ howned ho (h.mirror.mem hj)
  · rw [hres] at hmirror hserved hcases
    obtain rfl : s' = s := by
      rcases hcases with ⟨_, heq, -⟩ | ⟨heq, -⟩
      · cases heq
      · exact Except.ok.inj heq
    refine ⟨hmirror, hserved, fun j t hj ↦ ?_, fun c hc ↦ ?_⟩
    · have hj : Function.update m.io.asyncs i (some s') j = some t := hj
      rcases eq_or_ne j i with rfl | hne
      · rw [Function.update_self] at hj
        rw [← Option.some.inj hj]
        exact hopen
      · rw [Function.update_of_ne hne] at hj
        exact h.isOpen j t hj
    · have hne := h.ne_of_connecting hi hc
      obtain ⟨⟨t, ht⟩, howns, hop⟩ := h.connecting c hc
      refine ⟨⟨t, ?_⟩, ?_, hop⟩
      · exact (Function.update_of_ne hne _ _).trans ht
      · exact (Function.update_of_ne hne _ _).trans howns

theorem new (h : TcpInv one m) (hi : m.io.asyncs i = none) (hopen : m.isOpen s = true)
    {owned : Bool} (howned : owned = true → s ∉ m.io.reactor.eventSources)
    (nonblocking : Except IoError Unit) (env : EventPoller.Env P) :
    TcpInv one (m.new i s owned nonblocking env).2 := by
  cases nonblocking with
  | error err => exact h.dropInner fun ho j hj ↦ howned ho (h.mirror.mem hj)
  | ok => exact h.withoutNonblocking hi hopen howned env

/-- The guard takes the descriptor out while it is still open. -/
theorem dropGuard (h : TcpInv one m) (hi : m.io.asyncs i = some s) (env : EventPoller.Env P) :
    TcpInv one (m.dropGuard i s env) := by
  obtain ⟨hpanic, hsources⟩ : (Async.drop m.io.reactor env s).1 = none ∧ _ :=
    Async.drop_of_mem (h.mirror.mem hi)
  refine ⟨h.mirror.release hi hpanic hsources, fun ho ↦ (h.served ho).release h.mirror hi hsources,
    fun j t hj ↦ ?_, fun c hc ↦ ?_⟩
  · have hj : Function.update m.io.asyncs i none j = some t := hj
    rcases eq_or_ne j i with rfl | hne
    · rw [Function.update_self] at hj
      cases hj
    · rw [Function.update_of_ne hne] at hj
      exact h.isOpen j t hj
  · have hc : Function.update m.connecting i false c = true := hc
    have hne : c ≠ i := by
      rintro rfl
      rw [Function.update_self] at hc
      cases hc
    rw [Function.update_of_ne hne] at hc
    obtain ⟨⟨t, ht⟩, howns, op, w, hop, hasync, hrest⟩ := h.connecting c hc
    refine ⟨⟨t, (Function.update_of_ne hne _ _).trans ht⟩, howns, op, w, ?_, hasync, hrest⟩
    exact Option.filter_eq_some_iff.2 ⟨hop, by simp [hasync, hne]⟩

theorem drop (h : TcpInv one m) (hi : m.io.asyncs i = some s) (env : EventPoller.Env P) :
    TcpInv one (m.drop i s env) := by
  refine (h.dropGuard hi env).dropInner fun _ j hj ↦ ?_
  have hj : Function.update m.io.asyncs i none j = some s := hj
  rcases eq_or_ne j i with rfl | hne
  · rw [Function.update_self] at hj
    cases hj
  · rw [Function.update_of_ne hne] at hj
    exact hne (h.mirror.injective j i s hj hi)

omit [EventPoller P] in
/-- A poll of an operation that is not the one of a `connect` in progress. -/
theorem polled (h : TcpInv one m) {op : IoOp W} (hi : m.io.asyncs op.async = some s)
    (halone : one → ∀ j op', m.io.ops j = some op' → j ≠ o →
      ¬ (op'.async = op.async ∧ op'.interest = op.interest))
    {res : Poll (Except Fault Unit) × Reactor P N W}
    (hres : Async.Polls m.io.reactor s op.interest w res)
    (ho : ∀ c, m.connecting c = true → c ≠ o) :
    TcpInv one { m with io := m.io.polled o op w res } := by
  refine ⟨h.mirror.polled hi hres, fun hone ↦ (h.served hone).polled h.mirror hi (halone hone) hres,
    fun j t hj ↦ ?_, fun c hc ↦ ?_⟩
  · rw [Io.asyncs_polled] at hj
    exact h.isOpen j t hj
  · obtain ⟨⟨t, ht⟩, howns, op', v, hop, hrest⟩ := h.connecting c hc
    exact ⟨⟨t, by rwa [Io.asyncs_polled]⟩, howns, op', v,
      (Io.ops_polled (ho c hc)).trans hop, hrest⟩

omit [EventPoller P] in
/-- The `connect` whose stream is `c` is polled, so that it is not waiting. -/
theorem running (h : TcpInv one m) (c : ℕ) :
    TcpInv one { m with connecting := Function.update m.connecting c false } := by
  refine ⟨h.mirror, h.served, h.isOpen, fun d hd ↦ ?_⟩
  have hd : Function.update m.connecting c false d = true := hd
  rcases eq_or_ne d c with rfl | hne
  · rw [Function.update_self] at hd
    cases hd
  · rw [Function.update_of_ne hne] at hd
    obtain ⟨hstream, howns, hop⟩ := h.connecting d hd
    exact ⟨hstream, howns, hop⟩

theorem connected (h : TcpInv one m) (hs : m.io.asyncs c = some s) (howns : m.owns c = true)
    (env : ConnectEnv P) {res : Poll (Except Fault Unit)}
    (hop : res = .pending → ∃ op w, m.io.ops c = some op ∧ op.async = c ∧ op.interest = .write ∧
      op.isReady = true ∧ op.phase = .pending w) : TcpInv one (m.connected c s env res).2 := by
  rcases res with - | (fault | -)
  · refine ⟨h.mirror, h.served, h.isOpen, fun d hd ↦ ?_⟩
    have hd : Function.update m.connecting c true d = true := hd
    rcases eq_or_ne d c with rfl | hne
    · exact ⟨⟨s, hs⟩, howns, hop rfl⟩
    · rw [Function.update_of_ne hne] at hd
      obtain ⟨hstream, howns, hop⟩ := h.connecting d hd
      exact ⟨hstream, howns, hop⟩
  · exact h.drop hs env.deregister
  · rw [Tcp.connected]
    split
    · exact h.drop hs env.deregister
    · exact h

omit [EventPoller P] in
/-- The `wait_for_event_ready` of a `connect` has returned. -/
theorem polledWritable (h : TcpInv one m) (hs : m.io.asyncs c = some s) {op : IoOp W}
    (hasync : op.async = c)
    (halone : one → ∀ j op', m.io.ops j = some op' → j ≠ c →
      ¬ (op'.async = op.async ∧ op'.interest = op.interest))
    {res : Poll (Except Fault Unit) × Reactor P N W}
    (hpolls : Async.Polls m.io.reactor s op.interest w res) :
    TcpInv one { m with
      io := m.io.polled c op w res
      connecting := Function.update m.connecting c false } := by
  refine (h.running c).polled (hasync ▸ hs) halone hpolls fun d hd heq ↦ ?_
  have hd : Function.update m.connecting c false d = true := hd
  rw [heq, Function.update_self] at hd
  cases hd

/-- A `connect` polls the operation on its stream. -/
theorem waitWritable (h : TcpInv one m) (hs : m.io.asyncs c = some s) (howns : m.owns c = true)
    {op : IoOp W} (hasync : op.async = c) (hinterest : op.interest = .write)
    (hready : op.isReady = true)
    (halone : one → ∀ j op', m.io.ops j = some op' → j ≠ c →
      ¬ (op'.async = op.async ∧ op'.interest = op.interest))
    (env : ConnectEnv P) (firstCall : Bool) :
    TcpInv one (m.waitWritable c s op w env firstCall).2 := by
  have hpolls : Async.Polls m.io.reactor s op.interest w
      (Async.waitForEventReady m.io.reactor env.enable s op.interest w firstCall) :=
    (Async.polls_waitForEventReady (h.mirror.mem hs) firstCall).1
  have hpolled := h.polledWritable hs hasync halone hpolls
  refine hpolled.connected ((congrFun Io.asyncs_polled c).trans hs) howns env fun hpending ↦ ?_
  rcases hres : Async.waitForEventReady m.io.reactor env.enable s op.interest w firstCall
    with ⟨- | out, r⟩
  · exact ⟨_, w, Function.update_self _ _ _, hasync, hinterest, hready, rfl⟩
  · rw [hres] at hpending
    cases hpending

omit [EventPoller P] in
/-- The descriptor that a system call opens is not in the reactor. -/
theorem not_mem_of_opens (h : TcpInv one m) (hopens : m.opens (.ok s) = true) :
    s ∉ m.io.reactor.eventSources := by
  intro hmem
  have hopen := h.isOpen_of_mem hmem
  simp [Tcp.opens, Except.toOption, hopen] at hopens

omit [EventPoller P] in
/-- An operation is on an `Async` that is alive. -/
theorem async_ne (h : TcpInv one m) (hi : m.io.asyncs i = none) {op : IoOp W}
    (ho : m.io.ops o = some op) : op.async ≠ i := by
  rintro rfl
  obtain ⟨s, hs⟩ := h.mirror.alive o op ho
  rw [hi] at hs
  cases hs

/-- After a construction that has succeeded, the `Async` has its descriptor, and no operation. -/
theorem withoutNonblocking_ok {owned : Bool} {env : EventPoller.Env P} {m' : Tcp P N W}
    (hres : m.withoutNonblocking i s owned env = (.ok (), m')) :
    m'.io.asyncs = Function.update m.io.asyncs i (some s) ∧
      m'.owns = Function.update m.owns i owned ∧ m'.io.ops = m.io.ops ∧
      m'.connecting = m.connecting ∧ m'.isOpen = m.isOpen ∧ s ∉ m.io.reactor.eventSources ∧
      m'.io.reactor.eventSources = m.io.reactor.eventSources.insert s .default := by
  have hcases := Async.withoutNonblocking_cases m.io.reactor env s
  rw [Tcp.withoutNonblocking] at hres
  rcases hasync : Async.withoutNonblocking m.io.reactor env s with ⟨err | s', r⟩
  · rw [hasync] at hres
    cases hres
  · rw [hasync] at hres hcases
    rcases hcases with ⟨_, heq, -⟩ | ⟨heq, hnot, hsources⟩
    · cases heq
    · obtain rfl := Except.ok.inj heq
      cases hres
      exact ⟨rfl, rfl, rfl, rfl, rfl, hnot, hsources⟩

theorem connect (h : TcpInv one m) (hc : m.io.asyncs c = none) (env : ConnectEnv P)
    (hopens : m.opens env.socket = true) : TcpInv one (m.connect c w env).2 := by
  rw [Tcp.connect]
  split
  next => exact h
  next s hsocket =>
    rw [hsocket] at hopens
    have hnew : TcpInv one ((m.opened s).withoutNonblocking c s true env.register).2 :=
      (h.opened s).withoutNonblocking hc (Function.update_self _ _ _)
        (fun _ ↦ h.not_mem_of_opens hopens) env.register
    split
    next err m' hres =>
      rw [hres] at hnew
      exact hnew
    next m' hres =>
      rw [hres] at hnew
      obtain ⟨hasyncs, howns, hops, -⟩ := withoutNonblocking_ok hres
      have hs : m'.io.asyncs c = some s := by rw [hasyncs, Function.update_self]
      split
      · exact hnew.drop hs env.deregister
      · refine hnew.waitWritable hs (by rw [howns, Function.update_self]) rfl rfl rfl
          (fun _ j op' hj _ heq ↦ ?_) env true
        rw [hops] at hj
        exact h.async_ne hc hj heq.1

theorem acceptNew (h : TcpInv one m) {j : ℕ} (hj : m.io.asyncs j = none) (env : AcceptEnv P)
    (hopens : m.opens env.accept = true) : TcpInv one (m.acceptNew j env).2 := by
  rw [Tcp.acceptNew]
  split
  next => exact h
  next s haccept =>
    rw [haccept] at hopens
    exact (h.opened s).new hj (Function.update_self _ _ _) (fun _ ↦ h.not_mem_of_opens hopens)
      env.nonblocking env.register

/-- What the closure of `poll_accept` leaves alone. -/
theorem acceptNew_frame (m : Tcp P N W) (j : ℕ) (env : AcceptEnv P) :
    (m.acceptNew j env).2.io.ops = m.io.ops ∧ (m.acceptNew j env).2.connecting = m.connecting ∧
      ∀ i, i ≠ j → (m.acceptNew j env).2.io.asyncs i = m.io.asyncs i := by
  rw [Tcp.acceptNew]
  split
  next => exact ⟨rfl, rfl, fun _ _ ↦ rfl⟩
  next s _ =>
    rcases env.nonblocking with err | -
    · exact ⟨rfl, rfl, fun _ _ ↦ rfl⟩
    · show ((m.opened s).withoutNonblocking j s true env.register).2.io.ops = _ ∧ _
      rw [Tcp.new, Tcp.withoutNonblocking]
      rcases Async.withoutNonblocking (m.opened s).io.reactor env.register s with ⟨err | s', r⟩
      · exact ⟨rfl, rfl, fun _ _ ↦ rfl⟩
      · exact ⟨rfl, rfl, fun i hne ↦ Function.update_of_ne hne _ _⟩

omit [EventPoller P] in
theorem acceptOp_cases {op : IoOp W} (h : m.acceptOp o i w = some op) :
    op.async = i ∧ op.interest = .read ∧ (m.io.ops o = none ∨ m.io.ops o = some op) := by
  rw [Tcp.acceptOp] at h
  split at h
  next ho =>
    obtain rfl := Option.some.inj h
    exact ⟨rfl, rfl, Or.inl ho⟩
  next op' ho =>
    split at h
    · split at h
      next heq =>
        obtain rfl := Option.some.inj h
        exact ⟨heq.1, heq.2.1, Or.inr ho⟩
      · cases h
    · cases h

theorem pollAccept_snd (m : Tcp P N W) (o j : ℕ) (l : Source) (op : IoOp W) (w : W)
    (env : AcceptEnv P) :
    (m.pollAccept o j l op w env).2 = { (m.acceptNew j env).2 with
      io := (m.acceptNew j env).2.io.polled o op w
        (Async.pollEvent (m.acceptNew j env).2.io.reactor env.enable l op.interest w
          (m.acceptNew j env).1) } := by
  rw [Tcp.pollAccept]
  rcases m.acceptNew j env with ⟨res, m'⟩
  dsimp only
  split
  · rfl
  · rfl
  · rfl

theorem pollAccept (h : TcpInv one m) {j : ℕ} {l : Source} {op : IoOp W} (hj : m.io.asyncs j = none)
    (hi : m.io.asyncs i = some l) (hop : m.acceptOp o i w = some op)
    (hone : one → m.io.ops o = none → ∀ k op', m.io.ops k = some op' →
      ¬ (op'.async = i ∧ op'.interest = .read)) (env : AcceptEnv P)
    (hopens : m.opens env.accept = true) : TcpInv one (m.pollAccept o j l op w env).2 := by
  obtain ⟨hasync, hinterest, hold⟩ := acceptOp_cases hop
  obtain ⟨hops, hconnecting, hasyncs⟩ := acceptNew_frame m j env
  have hnew := h.acceptNew hj env hopens
  have hij : i ≠ j := by
    rintro rfl
    rw [hj] at hi
    cases hi
  have hi' : (m.acceptNew j env).2.io.asyncs i = some l := (hasyncs i hij).trans hi
  have hpolls : Async.Polls (m.acceptNew j env).2.io.reactor l op.interest w
      (Async.pollEvent (m.acceptNew j env).2.io.reactor env.enable l op.interest w
        (m.acceptNew j env).1) := Async.polls_pollEvent (hnew.mirror.mem hi') _
  rw [pollAccept_snd]
  refine hnew.polled (hasync ▸ hi') (fun ho k op' hk hne ↦ ?_) hpolls fun c hc heq ↦ ?_
  · -- the operation is the only reader of the listener
    rw [hops] at hk
    rcases hold with hold | hold
    · rw [hasync, hinterest]
      exact hone ho hold k op' hk
    · exact (h.served ho).alone hold k op' hk hne
  · -- an operation that reads is not the one of a `connect`
    rw [hconnecting] at hc
    obtain ⟨-, -, op', w', hop', hasync', hwrite, -⟩ := h.connecting c hc
    rw [heq] at hop'
    rcases hold with hold | hold
    · rw [hold] at hop'
      cases hop'
    · rw [hold] at hop'
      cases hop'
      rw [hinterest] at hwrite
      cases hwrite

/-- Whatever polls the operations that the program can reach leaves the `connect`s in progress
alone. -/
theorem keeps_of_step [EventNotifier N] (h : TcpInv one m) {a : IoAct P N W} {io : Io P N W}
    (hallows : m.allows a = true) (hstep : m.io.step a = some io) :
    io.asyncs = m.io.asyncs ∧ ∀ c, m.connecting c = true → m.io.Keeps io c := by
  -- neither an operation that begins nor one that the program polls is that of a `connect`
  have hvacant {o c : ℕ} (ho : m.io.ops o = none) (hc : m.connecting c = true) : c ≠ o := by
    rintro rfl
    obtain ⟨op, w, hop, -⟩ := (h.connecting c hc).op
    rw [ho] at hop
    cases hop
  have hfree {o c : ℕ} (ho : (m.io.ops o).all (fun op ↦ !m.connecting op.async) = true)
      (hc : m.connecting c = true) : c ≠ o := by
    rintro rfl
    obtain ⟨op, w, hop, hasync, -⟩ := (h.connecting c hc).op
    rw [hop] at ho
    simp [hasync, hc] at ho
  cases Io.step_cases hstep with
  | new => cases hallows
  | withoutNonblocking => cases hallows
  | drop => cases hallows
  | start ho _ => exact ⟨rfl, fun c hc ↦ .of_eq (Function.update_of_ne (hvacant ho hc) _ _)⟩
  | attempt => exact ⟨rfl, fun c hc ↦ .of_eq (Function.update_of_ne (hfree hallows hc) _ _)⟩
  | ret => exact ⟨Io.asyncs_polled, fun c hc ↦ .of_eq (Io.ops_polled (hfree hallows hc))⟩
  | startReady ho _ => exact ⟨Io.asyncs_polled, fun c hc ↦ .of_eq (Io.ops_polled (hvacant ho hc))⟩
  | pollReady => exact ⟨Io.asyncs_polled, fun c hc ↦ .of_eq (Io.ops_polled (hfree hallows hc))⟩
  | dropOp => exact ⟨rfl, fun c hc ↦ .of_eq (Function.update_of_ne (hfree hallows hc) _ _)⟩
  | wait =>
    refine ⟨rfl, fun c _ op hop ↦ ?_⟩
    exact ⟨_, Option.map_eq_some_iff.2 ⟨op, hop, rfl⟩, rfl, rfl, rfl, rfl⟩
  | elsewhere => exact ⟨rfl, fun c _ ↦ .of_eq rfl⟩

theorem io [EventNotifier N] (h : TcpInv one m) {a : IoAct P N W} {io : Io P N W}
    (hallows : m.allows a = true) (hone : one → m.io.OnePerDirection a)
    (hstep : m.io.step a = some io) : TcpInv one { m with io } := by
  obtain ⟨hasyncs, hkeeps⟩ := h.keeps_of_step hallows hstep
  refine ⟨h.mirror.step hstep, fun ho ↦ (h.served ho).step h.mirror (hone ho) hstep,
    fun i s hi ↦ ?_, fun c hc ↦ ?_⟩
  · rw [hasyncs] at hi
    exact h.isOpen i s hi
  · obtain ⟨⟨s, hs⟩, howns, op, w, hop, hasync, hinterest, hready, hphase⟩ := h.connecting c hc
    obtain ⟨op', hop', h₁, h₂, h₃, h₄⟩ := hkeeps c hc op hop
    refine ⟨⟨s, by rwa [hasyncs]⟩, howns, op', w, hop', ?_⟩
    rw [h₁, h₂, h₃, h₄]
    exact ⟨hasync, hinterest, hready, hphase⟩

end Calls

variable [EventPoller P] [EventNotifier N] {m' : Tcp P N W}

/-- **Every step keeps the event sources open.** -/
theorem step (h : TcpInv one m) {a : TcpAct P N W} (hone : one → m.OnePerDirection a)
    (hstep : m.step a = some m') : TcpInv one m' := by
  cases a with
  | opening s =>
    simp only [Tcp.step] at hstep
    split at hstep
    · cases hstep
    · cases hstep
      exact h.opened s
  | closing s =>
    simp only [Tcp.step] at hstep
    split at hstep
    next hs =>
      cases hstep
      exact h.dropInner fun _ i hi ↦ hs.2 (h.mirror.mem hi)
    · cases hstep
  | withoutNonblocking i s owned env =>
    simp only [Tcp.step] at hstep
    split at hstep
    next hi =>
      cases hstep
      exact h.withoutNonblocking hi.1 hi.2.1 hi.2.2 env
    · cases hstep
  | new i s owned nonblocking env =>
    simp only [Tcp.step] at hstep
    split at hstep
    next hi =>
      cases hstep
      exact h.new hi.1 hi.2.1 hi.2.2 nonblocking env
    · cases hstep
  | drop i env =>
    simp only [Tcp.step] at hstep
    split at hstep
    next s hi _ =>
      cases hstep
      exact h.drop hi env
    · cases hstep
  | intoInner i env =>
    simp only [Tcp.step] at hstep
    split at hstep
    next s hi _ =>
      cases hstep
      exact h.dropGuard hi env
    · cases hstep
  | connect c w env =>
    simp only [Tcp.step] at hstep
    split at hstep
    next hc =>
      cases hstep
      exact h.connect hc.1 env hc.2.2
    · cases hstep
  | pollConnect c w env =>
    simp only [Tcp.step] at hstep
    split at hstep
    next s op hs ho hc =>
      cases hstep
      obtain ⟨-, howns, op', w', hop, hasync, hinterest, hready, -⟩ := h.connecting c hc
      rw [ho] at hop
      cases hop
      exact h.waitWritable hs howns hasync hinterest hready
        (fun hone' ↦ (h.served hone').alone ho) env false
    · cases hstep
  | dropConnect c env =>
    simp only [Tcp.step] at hstep
    split at hstep
    next s hs _ =>
      cases hstep
      exact h.drop hs env
    · cases hstep
  | accept o i j w env =>
    simp only [Tcp.step] at hstep
    split at hstep
    next l op hi hop =>
      split at hstep
      next hj =>
        cases hstep
        exact h.pollAccept hj.2.1 hi hop hone env hj.2.2
      · cases hstep
    · cases hstep
  | io a =>
    simp only [Tcp.step] at hstep
    split at hstep
    next hallows =>
      obtain ⟨io, hio, rfl⟩ := Option.map_eq_some_iff.1 hstep
      exact h.io hallows hone hio
    · cases hstep

omit [EventPoller P] [EventNotifier N] in
theorem init (one : Prop) (poller : P) (timerQueue : TimerQueue W) (notifier : WithFlag N)
    (isOpen : Source → Bool) : TcpInv one (Tcp.init poller timerQueue notifier isOpen) := by
  refine ⟨.init poller timerQueue notifier, fun _ ↦ ⟨?_, ?_⟩, ?_, ?_⟩
  · simp [Tcp.init, Io.init]
  · simp [Tcp.init, Io.init]
  · simp [Tcp.init, Io.init]
  · simp [Tcp.init]

end TcpInv

end LocalRuntime
