import LocalRuntime.Io.Ready

/-!
# Bytes through a stream

`AsyncRead` and `AsyncWrite` of `src/io.rs` for the two ends of a stream, both on one thread: a
writer and a reader, with the buffer of the kernel between them. Every poll makes one system call,
and a call that would block leaves the waker with the reactor.

The kernel is what the manual says of a stream in non-blocking mode: a bounded buffer, reads and
writes that may be short, `EAGAIN` only where there is nothing to read or too little room, end of
file after the last byte once the writer is closed, and `EPIPE` once the reader is.

`stream_delivers` says what the two ends make of it. The bytes come out as they went in, whichever
operations have been dropped on the way; the end of the stream comes after all of them; and a `wait`
in which the kernel reports what is ready wakes an end that can go on, so that two ends which are
both pending are never both left alone.
-/

namespace LocalRuntime

variable {P T N W : Type}

/-! ### What a wait wakes -/

namespace Reactor

open PollPoller

/-- What is reported is woken, also if the loop panics on a later entry. -/
theorem mem_deliver_append {reports rest : List (Source × Filter)} {sources : EventSources W}
    {s : Source} {f : Filter} {d : Interest} {w : W} (hreg : ∀ p ∈ reports, p.1 ∈ sources)
    (hmem : (s, f) ∈ reports) (hhas : f.has d = true) (hasks : asks sources s d = some w) :
    w ∈ (deliver (reports ++ rest) sources).2.1 := by
  induction reports generalizing sources with
  | nil => cases hmem
  | cons p reports ih =>
    obtain ⟨t, g⟩ := p
    obtain ⟨data, hdata⟩ := BTreeMap.mem_iff_exists.1 (hreg _ List.mem_cons_self)
    rw [List.cons_append, deliver, hdata]
    by_cases hhit : s = t ∧ g.has d = true
    · refine List.mem_append_left _ ?_
      rw [hhit.1, asks_of_eq hdata] at hasks
      rw [EventData.report_fst]
      exact EventData.mem_due hhit.2 hasks
    · refine List.mem_append_right _ (ih (fun p hp ↦ ?_) ?_ ?_)
      · exact mem_insert.2 (Or.inr (hreg p (List.mem_cons_of_mem _ hp)))
      · refine (List.mem_cons.1 hmem).resolve_left fun heq ↦ hhit ?_
        obtain ⟨rfl, rfl⟩ := Prod.mk.inj heq
        exact ⟨rfl, hhas⟩
      · rw [asks_report hdata, if_neg hhit, hasks]

/-- A `wait` that comes to `poll(2)`, which answers. -/
structure Polls [Timeout T] (r : Reactor (PollPoller T) N W) (env : WaitEnv (PollPoller T))
    (revents : Source → PollFlags) : Prop where
  skipsPoll : r.skipsPoll env.now = false
  settime : env.poll.settime = none
  answer : env.poll.answer = .ok revents

variable [Timeout T] [EventNotifier N] {r : Reactor (PollPoller T) N W}
  {env : WaitEnv (PollPoller T)} {revents : Source → PollFlags} {s : Source} {d : Interest} {w : W}

/-- **A direction that is enabled and ready is woken.** -/
theorem mem_ioWoken (h : r.Polls env revents) (hasks : asks r.eventSources s d = some w)
    (hready : (Filter.ofRevents (revents s)).has d = true) : w ∈ (r.wait env).ioWoken := by
  obtain ⟨data, hdata, hw⟩ := Option.bind_eq_some_iff.1 hasks
  have hentry : (s, Filter.ofRevents (revents s)) ∈
      yieldReady (fill revents (eventFds r.filters)) := by
    have hfilter : data.filter.has d = true := by rw [EventData.has_filter, hw]; rfl
    have hflags : data.filter.pollflags.isEmpty = false := by
      rw [isEmpty_pollflags]
      rcases d with - | -
      · simp [show data.filter.read = true from hfilter]
      · simp [show data.filter.write = true from hfilter]
    have hsome : (revents s).isEmpty = false := by
      rcases d with - | -
      · exact isEmpty_eq_false_of_intersects hready
      · exact isEmpty_eq_false_of_intersects hready
    refine mem_yieldReady_fill.2 ⟨exists_mem_eventFds.2 ⟨data.filter, ?_, hflags⟩, hsome, rfl⟩
    exact mem_filters.2 ⟨data, hdata, rfl⟩
  have hanswer : r.answer env = some (.ok (yieldReady (fill revents (eventFds r.filters)) ++
      yieldReady (fill revents (ownFds r.poller.notifierFd r.poller.timeout)))) := by
    have hpoll := poll_eq h.settime h.answer r.poller (r.timerQueue.nextTimeout env.now) r.filters
    rw [yields, if_neg (List.ne_nil_of_mem hentry)] at hpoll
    rw [Reactor.answer, h.skipsPoll, if_neg Bool.false_ne_true]
    show some ((poll env.poll r.poller (r.timerQueue.nextTimeout env.now) r.filters).1.map _) = _
    rw [hpoll]
    rfl
  rcases r.wait_cases env with ⟨hnone, -⟩ | ⟨err, herr, -⟩ | ⟨l, hl, -, -, hwoken⟩
  · rw [hanswer] at hnone
    cases hnone
  · rw [hanswer] at herr
    cases herr
  · rw [hanswer] at hl
    obtain rfl := Except.ok.inj (Option.some.inj hl)
    rw [hwoken]
    exact mem_deliver_append (fun p hp ↦ registered_of_yielded hp) hentry hready hasks

end Reactor

/-! ### The two ends of a stream -/

namespace Async

variable [EventPoller P]

/-- An error of the closure is not turned into a success. -/
theorem pollEvent_error_ne {α : Type} (r : Reactor P N W) (env : EventPoller.Env P) (s : Source)
    (d : Interest) (w : W) (err : IoError) (n : α) :
    (pollEvent r env s d w (.error err : Except IoError α)).1 ≠ .ready (.ok n) := by
  rw [pollEvent]
  split
  · rw [enable]
    split
    · simp
    · simp
  · simp

/-- `AsyncRead::poll_read`, from the return of `read` on. The bytes are those that `read` has put
into the buffer of the caller. -/
def pollRead (r : Reactor P N W) (env : EventPoller.Env P) (source : Source) (waker : W)
    (res : Except IoError (List UInt8)) : Poll (Except Fault (List UInt8)) × Reactor P N W :=
  pollEvent r env source .read waker res

/-- `AsyncWrite::poll_write`, from the return of `write` on. -/
def pollWrite (r : Reactor P N W) (env : EventPoller.Env P) (source : Source) (waker : W)
    (res : Except IoError ℕ) : Poll (Except Fault ℕ) × Reactor P N W :=
  pollEvent r env source .write waker res

end Async

/-- The buffer of a stream: how much it holds, and from how much room on the stream is writable. -/
structure StreamBuffer where
  capacity : ℕ
  lowWater : ℕ
  lowWater_pos : 0 < lowWater
  lowWater_le : lowWater ≤ capacity

/-- `EPIPE`. -/
def brokenPipe : IoError := .errno 32

/-- The reader and the writer among the `Async` values of the thread. -/
def READER : ℕ := 0

def WRITER : ℕ := 1

/-- The I/O of a thread with the two ends of a stream, the bytes in the buffer of the kernel, and
which ends are open. Beside that, what the polls of the writer have reported as written, what those
of the reader have returned, and whether one of these was the end of the stream. -/
structure Channel (T N W : Type) where
  io : Io (PollPoller T) N W
  buffer : List UInt8
  readerOpen : Bool
  writerOpen : Bool
  sent : List UInt8
  received : List UInt8
  eof : Bool

/-- What happens: something that does not concern the stream, except that it may begin, repeat and
drop operations on the ends; a poll of the reader or of the writer goes on with its system call,
which may be short or fail; a poll of something that moves no bytes, such as `flush` and `peek`;
or an end is closed. -/
inductive ChannelAct (T N W : Type) [Timeout T] where
  | io (a : IoAct (PollPoller T) N W)
  | read (o len short : ℕ) (err : Option IoError) (env : PollEnv)
  | write (o : ℕ) (bytes : List UInt8) (short : ℕ) (err : Option IoError) (env : PollEnv)
  | still (o : ℕ) (res : Except IoError Unit) (env : PollEnv)
  | closeReader (env : PollEnv)
  | closeWriter (env : PollEnv)

namespace Channel

section Kernel

variable (B : StreamBuffer) (c : Channel T N W)

/-- The room in the buffer. -/
def room : ℕ := B.capacity - c.buffer.length

/-- `read(2)`: what it returns, and what it leaves in the buffer. -/
def sysRead (len short : ℕ) : Option IoError → Except IoError (List UInt8) × List UInt8
  | some err => (.error err, c.buffer)
  | none =>
    if len = 0 then (.ok [], c.buffer)
    else if c.buffer = [] then (if c.writerOpen then .error wouldBlock else .ok [], c.buffer)
    else
      let n := min (max short 1) len
      (.ok (c.buffer.take n), c.buffer.drop n)

/-- `write(2)`: what it returns, and what it leaves in the buffer. -/
def sysWrite (bytes : List UInt8) (short : ℕ) : Option IoError → Except IoError ℕ × List UInt8
  | some err => (.error err, c.buffer)
  | none =>
    if bytes = [] then (.ok 0, c.buffer)
    else if c.readerOpen = false then (.error brokenPipe, c.buffer)
    else if c.room B = 0 ∨ c.room B < B.lowWater ∧ short = 0 then (.error wouldBlock, c.buffer)
    else
      let n := min (max short 1) (min bytes.length (c.room B))
      (.ok n, c.buffer ++ bytes.take n)

/-- What `poll(2)` reports of the ends, at the least: the reader is readable if there are bytes or
no more will come, and the writer is writable if there is room or nobody will read. -/
structure Truthful (rd wr : Source) (revents : Source → PollFlags) : Prop where
  reader : c.buffer ≠ [] ∨ c.writerOpen = false → (Filter.ofRevents (revents rd)).read = true
  writer : B.lowWater ≤ c.room B ∨ c.readerOpen = false →
    (Filter.ofRevents (revents wr)).write = true

end Kernel

/-- The operation whose closure is running, on an end and in a direction. -/
def attempt (c : Channel T N W) (o i : ℕ) (d : Interest) : Option (W × Source) :=
  match c.io.ops o, c.io.asyncs i with
  | some op, some s =>
    match op.phase with
    | .attempting w => if op.async = i ∧ op.interest = d then some (w, s) else none
    | .pending _ => none
  | _, _ => none

/-- The bytes that a poll of the reader has returned. -/
def returned : Poll (Except Fault (List UInt8)) → List UInt8
  | .ready (.ok bytes) => bytes
  | _ => []

/-- A poll of the reader has returned the end of the stream. -/
def ended (len : ℕ) : Poll (Except Fault (List UInt8)) → Bool
  | .ready (.ok []) => 0 < len
  | _ => false

/-- The bytes that a poll of the writer has reported as written. -/
def written (bytes : List UInt8) : Poll (Except Fault ℕ) → List UInt8
  | .ready (.ok n) => bytes.take n
  | _ => []

section Step

variable [Timeout T] [EventNotifier N]

omit [EventNotifier N] in
/-- What is left to the ends: they are made and closed, and their operations make system calls. -/
def concerns (c : Channel T N W) : IoAct (PollPoller T) N W → Bool
  | .new i _ _ _ | .withoutNonblocking i _ _ | .drop i _ => i = READER ∨ i = WRITER
  | .ret o _ _ => (c.io.ops o).any fun op ↦ op.async = READER ∨ op.async = WRITER
  | _ => false

/-- The effect of an action. -/
def step (B : StreamBuffer) (c : Channel T N W) : ChannelAct T N W → Option (Channel T N W)
  | .io a => if c.concerns a then none else (c.io.step a).map fun io ↦ { c with io }
  | .read o len short err env =>
    if err = some wouldBlock then none
    else (c.attempt o READER .read).bind fun op ↦
      let sys := c.sysRead len short err
      let out := Async.pollRead c.io.reactor env op.2 op.1 sys.1
      (c.io.step (.ret o (sys.1.map fun _ ↦ ()) env)).map fun io ↦ { c with
        io
        buffer := sys.2
        received := c.received ++ returned out.1
        eof := c.eof || ended len out.1 }
  | .write o bytes short err env =>
    if err = some wouldBlock then none
    else (c.attempt o WRITER .write).bind fun op ↦
      let sys := c.sysWrite B bytes short err
      let out := Async.pollWrite c.io.reactor env op.2 op.1 sys.1
      (c.io.step (.ret o (sys.1.map fun _ ↦ ()) env)).map fun io ↦ { c with
        io
        buffer := sys.2
        sent := c.sent ++ written bytes out.1 }
  | .still o res env => (c.io.step (.ret o res env)).map fun io ↦ { c with io }
  | .closeReader env =>
    (c.io.step (.drop READER env)).map fun io ↦ { c with io, readerOpen := false }
  | .closeWriter env =>
    (c.io.step (.drop WRITER env)).map fun io ↦ { c with io, writerOpen := false }

/-- The machine of a thread with the two ends of a stream. -/
def machine (T N W : Type) [Timeout T] [EventNotifier N] (B : StreamBuffer) :
    Machine (Channel T N W) (ChannelAct T N W) := ⟨step B⟩

omit [EventNotifier N] in
/-- Only one task reads and only one task writes at a time. -/
def OnePerDirection (c : Channel T N W) : ChannelAct T N W → Prop
  | .io a => c.io.OnePerDirection a
  | _ => True

end Step

/-- Both ends have been made, and nothing has been written. -/
def start (io : Io (PollPoller T) N W) : Channel T N W := ⟨io, [], true, true, [], [], false⟩

/-! ### Bytes -/

section Bytes

variable [EventPoller P] {B : StreamBuffer} {c : Channel T N W} (r : Reactor P N W)
  (env : EventPoller.Env P) (s : Source) (w : W)

/-- A system call that fails returns nothing, whether the poll is pending or fails as well. -/
theorem returned_error (err : IoError) :
    returned (Async.pollRead r env s w (.error err)).1 = [] := by
  rcases hres : (Async.pollRead r env s w (.error err)).1 with - | (fault | bytes)
  · rfl
  · rfl
  · exact absurd hres (Async.pollEvent_error_ne r env s .read w err bytes)

theorem ended_error (len : ℕ) (err : IoError) :
    ended len (Async.pollRead r env s w (.error err)).1 = false := by
  rcases hres : (Async.pollRead r env s w (.error err)).1 with - | (fault | bytes)
  · rfl
  · rfl
  · exact absurd hres (Async.pollEvent_error_ne r env s .read w err bytes)

theorem written_error (bytes : List UInt8) (err : IoError) :
    written bytes (Async.pollWrite r env s w (.error err)).1 = [] := by
  rcases hres : (Async.pollWrite r env s w (.error err)).1 with - | (fault | n)
  · rfl
  · rfl
  · exact absurd hres (Async.pollEvent_error_ne r env s .write w err n)

/-- What is taken out of the buffer is what the poll returns. -/
theorem returned_append_sysRead (len short : ℕ) (err : Option IoError) :
    returned (Async.pollRead r env s w (c.sysRead len short err).1).1 ++
      (c.sysRead len short err).2 = c.buffer := by
  rcases err with - | err
  · rw [sysRead]
    split
    · rfl
    · split
      · split
        · rw [returned_error, List.nil_append]
        · rfl
      · exact List.take_append_drop _ _
  · rw [sysRead, returned_error, List.nil_append]

/-- The end of the stream is returned only when there is nothing left and nothing to come. -/
theorem eq_nil_of_ended {len short : ℕ} {err : Option IoError}
    (h : ended len (Async.pollRead r env s w (c.sysRead len short err).1).1 = true) :
    c.buffer = [] ∧ c.writerOpen = false := by
  rcases err with - | err
  · rw [sysRead] at h
    split at h
    next hlen =>
      rw [hlen] at h
      cases h
    next =>
      split at h
      next hnil =>
        refine ⟨hnil, Bool.eq_false_iff.2 fun hopen ↦ ?_⟩
        rw [hopen, if_pos rfl, ended_error] at h
        cases h
      next hne =>
        -- at least one byte is returned
        obtain ⟨byte, rest, hbuffer⟩ := List.exists_cons_of_ne_nil hne
        have hpos : 0 < min (max short 1) len := by omega
        obtain ⟨n, hn⟩ := Nat.exists_eq_succ_of_ne_zero hpos.ne'
        rw [hbuffer, hn] at h
        cases h
  · rw [sysRead, ended_error] at h
    cases h

/-- What is put into the buffer is what the poll reports as written. -/
theorem sysWrite_eq_append (bytes : List UInt8) (short : ℕ) (err : Option IoError) :
    (c.sysWrite B bytes short err).2 =
      c.buffer ++ written bytes (Async.pollWrite r env s w (c.sysWrite B bytes short err).1).1 := by
  rcases err with - | err
  · rw [sysWrite]
    split
    · exact (List.append_nil _).symm
    · split
      · rw [written_error, List.append_nil]
      · split
        · rw [written_error, List.append_nil]
        · rfl
  · rw [sysWrite, written_error, List.append_nil]

omit [EventPoller P] in
/-- No more is written than there is room for. -/
theorem length_sysWrite_le (hle : c.buffer.length ≤ B.capacity) (bytes : List UInt8) (short : ℕ)
    (err : Option IoError) : (c.sysWrite B bytes short err).2.length ≤ B.capacity := by
  rcases err with - | err
  · rw [sysWrite]
    split
    · exact hle
    · split
      · exact hle
      · split
        · exact hle
        · show (c.buffer ++ bytes.take _).length ≤ _
          rw [List.length_append, List.length_take, room]
          omega
  · exact hle

end Bytes

/-! ### The invariant -/

section Run

variable [Timeout T] [EventNotifier N] {B : StreamBuffer} {rd wr : Source} {c c' : Channel T N W}

omit [Timeout T] [EventNotifier N] in
/-- The I/O of the thread is in order, the ends that are open have their descriptors, and no byte
has been lost. -/
structure Inv (B : StreamBuffer) (rd wr : Source) (c : Channel T N W) : Prop where
  mirror : Io.MirrorInv c.io
  served : Io.ServedInv c.io
  reader : c.io.asyncs READER = if c.readerOpen then some rd else none
  writer : c.io.asyncs WRITER = if c.writerOpen then some wr else none
  balance : c.sent = c.received ++ c.buffer
  room : c.buffer.length ≤ B.capacity
  eof : c.eof = true → c.buffer = [] ∧ c.writerOpen = false

/-- What does not concern the ends leaves them where they are. -/
theorem asyncs_of_not_concerns {a : IoAct (PollPoller T) N W} {io : Io (PollPoller T) N W}
    (hnot : c.concerns a = false) (hstep : c.io.step a = some io) :
    io.asyncs READER = c.io.asyncs READER ∧ io.asyncs WRITER = c.io.asyncs WRITER := by
  have hconstruct {i : ℕ} (hi : ¬ (i = READER ∨ i = WRITER))
      (res : Except IoError Source × Reactor (PollPoller T) N W) :
      (c.io.construct i res).asyncs READER = c.io.asyncs READER ∧
        (c.io.construct i res).asyncs WRITER = c.io.asyncs WRITER := by
    obtain ⟨hreader, hwriter⟩ := not_or.1 hi
    rcases res with ⟨err | s, r⟩
    · exact ⟨rfl, rfl⟩
    · exact ⟨Function.update_of_ne (Ne.symm hreader) _ _,
        Function.update_of_ne (Ne.symm hwriter) _ _⟩
  rcases Io.step_cases hstep with hi | hi | hi | - | - | - | - | - | - | - | -
  · exact hconstruct (of_decide_eq_false hnot) _
  · exact hconstruct (of_decide_eq_false hnot) _
  · obtain ⟨hreader, hwriter⟩ := not_or.1 (of_decide_eq_false hnot)
    exact ⟨Function.update_of_ne (Ne.symm hreader) _ _, Function.update_of_ne (Ne.symm hwriter) _ _⟩
  · exact ⟨rfl, rfl⟩
  · exact ⟨rfl, rfl⟩
  · exact ⟨congrFun Io.asyncs_polled _, congrFun Io.asyncs_polled _⟩
  · exact ⟨congrFun Io.asyncs_polled _, congrFun Io.asyncs_polled _⟩
  · exact ⟨congrFun Io.asyncs_polled _, congrFun Io.asyncs_polled _⟩
  · exact ⟨rfl, rfl⟩
  · exact ⟨rfl, rfl⟩
  · exact ⟨rfl, rfl⟩

/-- A poll leaves the ends where they are. -/
theorem asyncs_of_ret {o : ℕ} {res : Except IoError Unit} {env : PollEnv}
    {io : Io (PollPoller T) N W} (hstep : c.io.step (.ret o res env) = some io) :
    io.asyncs = c.io.asyncs := by
  cases Io.step_cases hstep with
  | ret ho hphase hi => exact Io.asyncs_polled

theorem asyncs_of_drop {i : ℕ} {env : PollEnv} {io : Io (PollPoller T) N W}
    (hstep : c.io.step (.drop i env) = some io) :
    io.asyncs = Function.update c.io.asyncs i none := by
  cases Io.step_cases hstep with
  | drop hi => rfl

omit [Timeout T] [EventNotifier N] in
theorem asyncs_of_attempt {o i : ℕ} {d : Interest} {w : W} {s : Source}
    (h : c.attempt o i d = some (w, s)) : c.io.asyncs i = some s := by
  rw [attempt] at h
  split at h
  next op t hop hi =>
    split at h
    next =>
      rw [Option.ite_none_right_eq_some] at h
      obtain ⟨-, heq⟩ := h
      rw [hi, (Prod.mk.inj (Option.some.inj heq)).2]
    next => cases h
  next => cases h

/-- A poll of an end, whatever its system call does to the bytes. -/
theorem Inv.ret (h : Inv B rd wr c) {o : ℕ} {res : Except IoError Unit} {env : PollEnv}
    {io : Io (PollPoller T) N W} (hstep : c.io.step (.ret o res env) = some io) (hio : c'.io = io)
    (hreader : c'.readerOpen = c.readerOpen) (hwriter : c'.writerOpen = c.writerOpen)
    (hbalance : c'.sent = c'.received ++ c'.buffer) (hroom : c'.buffer.length ≤ B.capacity)
    (heof : c'.eof = true → c'.buffer = [] ∧ c'.writerOpen = false) : Inv B rd wr c' := by
  have hasyncs := asyncs_of_ret hstep
  refine ⟨?_, ?_, ?_, ?_, hbalance, hroom, heof⟩
  · rw [hio]
    exact h.mirror.step hstep
  · rw [hio]
    exact h.served.step h.mirror (show c.io.OnePerDirection (.ret o res env) from trivial) hstep
  · rw [hio, hasyncs, hreader]
    exact h.reader
  · rw [hio, hasyncs, hwriter]
    exact h.writer

theorem Inv.read (h : Inv B rd wr c) {o len short : ℕ} {err : Option IoError} {env : PollEnv}
    (hstep : c.step B (.read o len short err env) = some c') : Inv B rd wr c' := by
  rw [Channel.step, Option.ite_none_left_eq_some] at hstep
  obtain ⟨-, hstep⟩ := hstep
  obtain ⟨⟨w, s⟩, -, hstep⟩ := Option.bind_eq_some_iff.1 hstep
  obtain ⟨io, hio, rfl⟩ := Option.map_eq_some_iff.1 hstep
  have hbytes := returned_append_sysRead (c := c) c.io.reactor env s w len short err
  refine h.ret hio rfl rfl rfl ?_ ?_ fun heof ↦ ?_
  · show c.sent = (c.received ++ returned _) ++ _
    rw [List.append_assoc, hbytes]
    exact h.balance
  · have hlength := congrArg List.length hbytes
    rw [List.length_append] at hlength
    have hroom := h.room
    show (c.sysRead len short err).2.length ≤ B.capacity
    omega
  · have hnil : c.buffer = [] ∧ c.writerOpen = false := by
      rcases Bool.or_eq_true_iff.1 heof with hbefore | hnow
      · exact h.eof hbefore
      · exact eq_nil_of_ended c.io.reactor env s w hnow
    refine ⟨?_, hnil.2⟩
    rw [hnil.1, List.append_eq_nil_iff] at hbytes
    exact hbytes.2

theorem Inv.write (h : Inv B rd wr c) {o short : ℕ} {bytes : List UInt8} {err : Option IoError}
    {env : PollEnv} (hstep : c.step B (.write o bytes short err env) = some c') :
    Inv B rd wr c' := by
  rw [Channel.step, Option.ite_none_left_eq_some] at hstep
  obtain ⟨-, hstep⟩ := hstep
  obtain ⟨⟨w, s⟩, hattempt, hstep⟩ := Option.bind_eq_some_iff.1 hstep
  obtain ⟨io, hio, rfl⟩ := Option.map_eq_some_iff.1 hstep
  have hbytes := sysWrite_eq_append (B := B) (c := c) c.io.reactor env s w bytes short err
  refine h.ret hio rfl rfl rfl ?_ (length_sysWrite_le h.room bytes short err) fun heof ↦ ?_
  · show c.sent ++ written bytes _ = c.received ++ (c.sysWrite B bytes short err).2
    rw [hbytes, h.balance, List.append_assoc]
  · -- the writer is still there
    have hclosed := (h.eof heof).2
    have hwriter := h.writer
    rw [asyncs_of_attempt hattempt, hclosed] at hwriter
    cases hwriter

/-- **Every step keeps the invariant.** -/
theorem Inv.step (h : Inv B rd wr c) {a : ChannelAct T N W} (hone : c.OnePerDirection a)
    (hstep : c.step B a = some c') : Inv B rd wr c' := by
  cases a with
  | io a =>
    rw [Channel.step, Option.ite_none_left_eq_some] at hstep
    obtain ⟨hnot, hstep⟩ := hstep
    obtain ⟨io, hio, rfl⟩ := Option.map_eq_some_iff.1 hstep
    obtain ⟨hreader, hwriter⟩ := asyncs_of_not_concerns (Bool.eq_false_iff.2 hnot) hio
    exact ⟨h.mirror.step hio, h.served.step h.mirror hone hio, hreader.trans h.reader,
      hwriter.trans h.writer, h.balance, h.room, h.eof⟩
  | read o len short err env => exact h.read hstep
  | write o bytes short err env => exact h.write hstep
  | still o res env =>
    obtain ⟨io, hio, rfl⟩ := Option.map_eq_some_iff.1 hstep
    exact h.ret hio rfl rfl rfl h.balance h.room h.eof
  | closeReader env =>
    obtain ⟨io, hio, rfl⟩ := Option.map_eq_some_iff.1 hstep
    have hasyncs := asyncs_of_drop hio
    refine ⟨h.mirror.step hio,
      h.served.step h.mirror (show c.io.OnePerDirection (.drop READER env) from trivial) hio, ?_,
      ?_, h.balance, h.room, h.eof⟩
    · rw [hasyncs, Function.update_self]
      rfl
    · rw [hasyncs, Function.update_of_ne (by decide)]
      exact h.writer
  | closeWriter env =>
    obtain ⟨io, hio, rfl⟩ := Option.map_eq_some_iff.1 hstep
    have hasyncs := asyncs_of_drop hio
    refine ⟨h.mirror.step hio,
      h.served.step h.mirror (show c.io.OnePerDirection (.drop WRITER env) from trivial) hio, ?_,
      ?_, h.balance, h.room, fun heof ↦ ⟨(h.eof heof).1, rfl⟩⟩
    · rw [hasyncs, Function.update_of_ne (by decide)]
      exact h.reader
    · rw [hasyncs, Function.update_self]
      rfl

omit [Timeout T] [EventNotifier N] in
/-- The last poll of an operation, on an end and in a direction, has returned pending. -/
def Waits (c : Channel T N W) (i : ℕ) (d : Interest) (o : ℕ) (op : IoOp W) (w : W) : Prop :=
  c.io.ops o = some op ∧ op.async = i ∧ op.interest = d ∧ op.phase = .pending w

/-- An operation that waits for what is reported is woken, or has been. -/
theorem Inv.woken (h : Inv B rd wr c) {i o : ℕ} {d : Interest} {op : IoOp W} {w : W} {s : Source}
    {env : WaitEnv (PollPoller T)} {revents : Source → PollFlags} (hwaits : c.Waits i d o op w)
    (hi : c.io.asyncs i = some s) (hpolls : c.io.reactor.Polls env revents)
    (hready : (Filter.ofRevents (revents s)).has d = true) :
    w ∈ op.woken ∨ w ∈ (c.io.reactor.wait env).ioWoken := by
  obtain ⟨hop, rfl, rfl, hphase⟩ := hwaits
  rcases (h.served.served o op s hop hi).heard w hphase with hasks | hwoken
  · exact Or.inr (Reactor.mem_ioWoken hpolls hasks hready)
  · exact Or.inl hwoken

omit [Timeout T] [EventNotifier N] in
/-- An end with an operation is open. -/
theorem Inv.reader_of_waits (h : Inv B rd wr c) {o : ℕ} {d : Interest} {op : IoOp W} {w : W}
    (hwaits : c.Waits READER d o op w) : c.io.asyncs READER = some rd := by
  obtain ⟨s, hs⟩ := h.mirror.alive o op hwaits.1
  rw [hwaits.2.1, h.reader, Option.ite_none_right_eq_some] at hs
  rw [h.reader, if_pos hs.1]

omit [Timeout T] [EventNotifier N] in
theorem Inv.writer_of_waits (h : Inv B rd wr c) {o : ℕ} {d : Interest} {op : IoOp W} {w : W}
    (hwaits : c.Waits WRITER d o op w) : c.io.asyncs WRITER = some wr := by
  obtain ⟨s, hs⟩ := h.mirror.alive o op hwaits.1
  rw [hwaits.2.1, h.writer, Option.ite_none_right_eq_some] at hs
  rw [h.writer, if_pos hs.1]

/-- What holds of a stream at every moment. -/
structure Delivers (B : StreamBuffer) (rd wr : Source) (c : Channel T N W) : Prop where
  /-- What has been returned, and then what is in the buffer, is what has been reported as
  written. -/
  balance : c.sent = c.received ++ c.buffer
  /-- The end of the stream comes after all the bytes. -/
  ended : c.eof = true → c.received = c.sent
  /-- A `wait` in which the kernel reports what is ready wakes the reader if there is something to
  read, and the writer if there is room, unless they have been woken already. -/
  reader : ∀ o op w env revents, c.Waits READER .read o op w → c.io.reactor.Polls env revents →
    c.Truthful B rd wr revents → c.buffer ≠ [] ∨ c.writerOpen = false →
    w ∈ op.woken ∨ w ∈ (c.io.reactor.wait env).ioWoken
  writer : ∀ o op w env revents, c.Waits WRITER .write o op w → c.io.reactor.Polls env revents →
    c.Truthful B rd wr revents → B.lowWater ≤ c.room B ∨ c.readerOpen = false →
    w ∈ op.woken ∨ w ∈ (c.io.reactor.wait env).ioWoken
  /-- If both are waiting, one of them is woken. -/
  flows : ∀ o op w o' op' w' env revents, c.Waits READER .read o op w →
    c.Waits WRITER .write o' op' w' → c.io.reactor.Polls env revents → c.Truthful B rd wr revents →
    (w ∈ op.woken ∨ w ∈ (c.io.reactor.wait env).ioWoken) ∨
      w' ∈ op'.woken ∨ w' ∈ (c.io.reactor.wait env).ioWoken

theorem Inv.delivers (h : Inv B rd wr c) : Delivers B rd wr c := by
  have hreader (o : ℕ) (op : IoOp W) (w : W) (env : WaitEnv (PollPoller T))
      (revents : Source → PollFlags) (hwaits : c.Waits READER .read o op w)
      (hpolls : c.io.reactor.Polls env revents) (htrue : c.Truthful B rd wr revents)
      (hsome : c.buffer ≠ [] ∨ c.writerOpen = false) :
      w ∈ op.woken ∨ w ∈ (c.io.reactor.wait env).ioWoken :=
    h.woken hwaits (h.reader_of_waits hwaits) hpolls (htrue.reader hsome)
  have hwriter (o : ℕ) (op : IoOp W) (w : W) (env : WaitEnv (PollPoller T))
      (revents : Source → PollFlags) (hwaits : c.Waits WRITER .write o op w)
      (hpolls : c.io.reactor.Polls env revents) (htrue : c.Truthful B rd wr revents)
      (hroom : B.lowWater ≤ c.room B ∨ c.readerOpen = false) :
      w ∈ op.woken ∨ w ∈ (c.io.reactor.wait env).ioWoken :=
    h.woken hwaits (h.writer_of_waits hwaits) hpolls (htrue.writer hroom)
  refine ⟨h.balance, fun heof ↦ ?_, hreader, hwriter, ?_⟩
  · rw [h.balance, (h.eof heof).1, List.append_nil]
  · intro o op w o' op' w' env revents hr hw hpolls htrue
    -- an empty buffer has room
    by_cases hnil : c.buffer = []
    · refine Or.inr (hwriter o' op' w' env revents hw hpolls htrue (Or.inl ?_))
      rw [Channel.room, hnil, List.length_nil, Nat.sub_zero]
      exact B.lowWater_le
    · exact Or.inl (hreader o op w env revents hr hpolls htrue (Or.inl hnil))

/-- **A stream delivers.** Let the two ends of a stream be made in any reachable state of the I/O of
a thread, and let there be one operation at a time on each direction of a descriptor. Then, whatever
the program does with the ends and with everything else on the thread, the bytes arrive in order and
none is lost, also if reads and writes are dropped while they are pending; the end of the stream
comes last; and the ends are woken when they can go on. -/
theorem stream_delivers {poller : PollPoller T} {timerQueue : TimerQueue W} {notifier : WithFlag N}
    {pre : List (IoAct (PollPoller T) N W)} {io : Io (PollPoller T) N W}
    {acts : List (ChannelAct T N W)}
    (hpre : (Io.machine (PollPoller T) N W).run (Io.init poller timerQueue notifier) pre = some io)
    (honePre : (Io.machine (PollPoller T) N W).AllSteps Io.OnePerDirection
      (Io.init poller timerQueue notifier) pre)
    (hrd : io.asyncs READER = some rd) (hwr : io.asyncs WRITER = some wr)
    (hone : (machine T N W B).AllSteps OnePerDirection (start io) acts)
    (hrun : (machine T N W B).run (start io) acts = some c) : Delivers B rd wr c := by
  have hio : Io.MirrorInv io ∧ Io.ServedInv io :=
    Machine.run_preserves_of_allSteps (I := fun m ↦ Io.MirrorInv m ∧ Io.ServedInv m)
      (fun _ _ _ h hC hstep ↦ ⟨h.1.step hstep, h.2.step h.1 hC hstep⟩)
      ⟨.init poller timerQueue notifier, by simp [Io.init], by simp [Io.init]⟩ honePre hpre
  have hstart : Inv B rd wr (start io) :=
    ⟨hio.1, hio.2, hrd, hwr, rfl, Nat.zero_le _, fun heof ↦ absurd heof Bool.false_ne_true⟩
  have hinv : Inv B rd wr c :=
    Machine.run_preserves_of_allSteps (M := machine T N W B) (I := Inv B rd wr)
      (fun _ _ _ h hC hstep ↦ h.step hC hstep) hstart hone hrun
  exact hinv.delivers

/-- A reader and a writer on the ends of a pipe. -/
def bothEnds : List (IoAct (PollPoller TimerFd) EventFd ℕ) :=
  [.new READER 5 (.ok ()) (Reactor.readableEnv []), .new WRITER 6 (.ok ()) (Reactor.readableEnv [])]

/-- The reader finds nothing, and then two of three bytes are written. -/
def readThenWrite : List (ChannelAct TimerFd EventFd ℕ) :=
  [.io (.start 0 READER .read 70), .read 0 4 4 none (Reactor.readableEnv []),
    .io (.start 1 WRITER .write 71), .write 1 [1, 2, 3] 2 none (Reactor.readableEnv [])]

/-- There are bytes to read, and there is room. -/
def bothReady (s : Source) : PollFlags :=
  if s = 5 then PollFlags.IN else if s = 6 then PollFlags.OUT else 0#16

def bothReadyWait : WaitEnv (PollPoller TimerFd) := ⟨0, ⟨none, .ok bothReady⟩, 0, none⟩

theorem stream_delivers_readThenWrite :
    ∃ io c, (Io.machine (PollPoller TimerFd) EventFd ℕ).run
        (Io.init ⟨[], 3, ⟨4, TimerFd.itimerspec none⟩⟩ .new (.new ⟨3, 0⟩)) bothEnds = some io ∧
      (machine TimerFd EventFd ℕ ⟨4096, 1, by decide, by decide⟩).run (start io) readThenWrite =
        some c ∧ c.sent = [1, 2] ∧ c.received = [] ∧
      70 ∈ (c.io.reactor.wait bothReadyWait).ioWoken := by
  obtain ⟨io, c, op, hpre, hrd, hwr, hone, hrun, hsent, hreceived, hbuffer, hwoken,
    hwaits, hpolls⟩ :
      ∃ io c op, (Io.machine (PollPoller TimerFd) EventFd ℕ).run
        (Io.init ⟨[], 3, ⟨4, TimerFd.itimerspec none⟩⟩ .new (.new ⟨3, 0⟩)) bothEnds = some io ∧
      io.asyncs READER = some 5 ∧ io.asyncs WRITER = some 6 ∧
      (machine TimerFd EventFd ℕ ⟨4096, 1, by decide, by decide⟩).AllSteps OnePerDirection
        (start io) readThenWrite ∧
      (machine TimerFd EventFd ℕ ⟨4096, 1, by decide, by decide⟩).run (start io) readThenWrite =
        some c ∧ c.sent = [1, 2] ∧ c.received = [] ∧ c.buffer ≠ [] ∧ op.woken = [] ∧
      c.Waits READER .read 0 op 70 ∧
      c.io.reactor.Polls bothReadyWait bothReady := by
    refine ⟨_, _, _, rfl, rfl, rfl, ?_, rfl, rfl, rfl, List.cons_ne_nil _ _, rfl,
      ⟨rfl, rfl, rfl, rfl⟩, ⟨rfl, rfl, rfl⟩⟩
    refine ⟨fun o op ho ↦ (nomatch ho), fun c₁ h₁ ↦ ⟨trivial, fun c₂ h₂ ↦
      ⟨fun o op ho ↦ ?_, fun _ _ ↦ ⟨trivial, fun _ _ ↦ trivial⟩⟩⟩⟩
    -- the only operation is that of the reader
    obtain rfl := Option.some.inj h₁
    obtain rfl := Option.some.inj h₂
    rintro ⟨hasync, -⟩
    rcases o with - | o
    · obtain rfl := Option.some.inj ho
      cases hasync
    · cases ho
  have hdelivers :=
    stream_delivers hpre ⟨trivial, fun _ _ ↦ ⟨trivial, fun _ _ ↦ trivial⟩⟩ hrd hwr hone hrun
  have hwake := hdelivers.reader 0 op 70 _ bothReady hwaits hpolls ⟨fun _ ↦ rfl, fun _ ↦ rfl⟩
    (Or.inl hbuffer)
  rw [hwoken] at hwake
  exact ⟨io, c, hpre, hrun, hsent, hreceived, hwake.resolve_left List.not_mem_nil⟩

end Run

end Channel

end LocalRuntime
