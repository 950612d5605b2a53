import LocalRuntime.Executor.Basic
import LocalRuntime.Lib.History

/-!
# Draining the wake queue

`WakeQueue::drain_for_each` reads the lengths of the two queues, pops that many ids and calls back
on each. The callback may push from the thread of the executor and other threads push all the time,
so what is popped is settled neither by the queue at the start nor by the queue at the end.
`Draining` is the machine of the call, with a step wherever a push can come between. Pushes of
either kind are enabled at every point: that the thread of the executor can only push from the
callback is not needed.

A call is described by its history. Once the lengths have been read, what is due is fixed: the local
ids of the start and the concurrent ids of the reading. `Progress` is the invariant that what is due
is what has been called followed by the head of the local queue and the head of the concurrent
queue, each as long as what is left of its bound. `CallSpec` is what follows for a call.
-/

namespace LocalRuntime

/-! ### One call of `drain_for_each` -/

/-- Where a call of `drain_for_each` is. -/
inductive DrainPc where
  /-- There is no call. -/
  | idle
  /-- The length of the local queue has been read. -/
  | lens (localLen : ℕ)
  /-- About to pop the next id, with what is left of the two bounds. -/
  | loop (localLen conLen : ℕ)
  /-- The callback is running. -/
  | callback (localLen conLen : ℕ)
  /-- `pop_front` has returned nothing. -/
  | panicked
  deriving DecidableEq

/-- The wake queue with the call that drains it. -/
structure Draining where
  queue : WakeQueue
  pc : DrainPc

/-- What is seen of a call: the reading of the concurrent length, the calls of the callback, and the
pushes. -/
inductive DrainEvent where
  | read
  | called (id : ℕ)
  | pushed (val : ℕ) (onLocal : Bool)
  deriving DecidableEq

namespace Draining

/-- A step of the call, the return of its callback, or a push. -/
inductive Act where
  | start
  | tick
  | ret
  | push (val : ℕ) (onLocal : Bool)
  deriving DecidableEq

/-- The next step of a call, with what is seen of it. -/
def tick (s : Draining) : Option (Draining × List DrainEvent) :=
  match s.pc with
  | .lens n => some ({ s with pc := .loop n s.queue.concurrent.length }, [.read])
  | .loop (n + 1) m =>
    match s.queue.localIds with
    | [] => some ({ s with pc := .panicked }, [])
    | id :: rest => some (⟨{ s.queue with localIds := rest }, .callback n m⟩, [.called id])
  | .loop 0 (m + 1) =>
    match s.queue.concurrent with
    | [] => some ({ s with pc := .idle }, [])
    | id :: rest => some (⟨{ s.queue with concurrent := rest }, .callback 0 m⟩, [.called id])
  | .loop 0 0 => some ({ s with pc := .idle }, [])
  | _ => none

/-- The step of an action. -/
def step (s : Draining) : Act → Option Draining
  | .start =>
    match s.pc with
    | .idle => some { s with pc := .lens s.queue.localIds.length }
    | _ => none
  | .tick => s.tick.map Prod.fst
  | .ret =>
    match s.pc with
    | .callback n m => some { s with pc := .loop n m }
    | _ => none
  | .push val onLocal => some { s with queue := s.queue.push val onLocal }

/-- What is seen of an action. -/
def events (s : Draining) : Act → List DrainEvent
  | .tick => (s.tick.map Prod.snd).getD []
  | .push val onLocal => [.pushed val onLocal]
  | _ => []

/-- The machine of the wake queue and the calls that drain it. -/
def machine : Machine Draining Act := ⟨step⟩

/-- The machine with its history. -/
def recording : Machine (Logged Draining Unit DrainEvent) Act :=
  machine.logged fun s a _ ↦ s.events a

/-- A step of the call itself, or the return of its callback. -/
def Act.isOwn : Act → Bool
  | tick | ret => true
  | _ => false

/-- Every step, with what is seen of it. -/
inductive Step (s : Draining) : Act → Draining → List DrainEvent → Prop where
  | start (hpc : s.pc = .idle) : Step s .start { s with pc := .lens s.queue.localIds.length } []
  | read {n : ℕ} (hpc : s.pc = .lens n) :
      Step s .tick { s with pc := .loop n s.queue.concurrent.length } [.read]
  | popLocal {n m id : ℕ} {rest : List ℕ} (hpc : s.pc = .loop (n + 1) m)
      (hq : s.queue.localIds = id :: rest) :
      Step s .tick ⟨{ s.queue with localIds := rest }, .callback n m⟩ [.called id]
  | unwrap {n m : ℕ} (hpc : s.pc = .loop (n + 1) m) (hq : s.queue.localIds = []) :
      Step s .tick { s with pc := .panicked } []
  | popConcurrent {m id : ℕ} {rest : List ℕ} (hpc : s.pc = .loop 0 (m + 1))
      (hq : s.queue.concurrent = id :: rest) :
      Step s .tick ⟨{ s.queue with concurrent := rest }, .callback 0 m⟩ [.called id]
  | done {m : ℕ} (hpc : s.pc = .loop 0 m) (hq : m = 0 ∨ s.queue.concurrent = []) :
      Step s .tick { s with pc := .idle } []
  | ret {n m : ℕ} (hpc : s.pc = .callback n m) : Step s .ret { s with pc := .loop n m } []
  | push {val : ℕ} {onLocal : Bool} :
      Step s (.push val onLocal) { s with queue := s.queue.push val onLocal } [.pushed val onLocal]

theorem step_of_tick {s t : Draining} {es : List DrainEvent} (h : s.tick = some (t, es)) :
    Step s .tick t es := by
  simp only [tick] at h
  split at h
  next hpc =>
    obtain ⟨rfl, rfl⟩ := Prod.mk.inj (Option.some.inj h)
    exact .read hpc
  next hpc =>
    split at h
    next hq =>
      obtain ⟨rfl, rfl⟩ := Prod.mk.inj (Option.some.inj h)
      exact .unwrap hpc hq
    next hq =>
      obtain ⟨rfl, rfl⟩ := Prod.mk.inj (Option.some.inj h)
      exact .popLocal hpc hq
  next hpc =>
    split at h
    next hq =>
      obtain ⟨rfl, rfl⟩ := Prod.mk.inj (Option.some.inj h)
      exact .done hpc (Or.inr hq)
    next hq =>
      obtain ⟨rfl, rfl⟩ := Prod.mk.inj (Option.some.inj h)
      exact .popConcurrent hpc hq
  next hpc =>
    obtain ⟨rfl, rfl⟩ := Prod.mk.inj (Option.some.inj h)
    exact .done hpc (Or.inl rfl)
  next => exact absurd h (by simp)

theorem step_cases {s t : Draining} {a : Act} (h : s.step a = some t) :
    Step s a t (s.events a) := by
  cases a with
  | start =>
    simp only [step] at h
    split at h
    next hpc =>
      obtain rfl := Option.some.inj h
      exact .start hpc
    next => exact absurd h (by simp)
  | tick =>
    obtain ⟨⟨u, es⟩, htick, rfl⟩ := Option.map_eq_some_iff.1 h
    have hes : s.events .tick = es := by rw [events, htick]; rfl
    rw [hes]
    exact step_of_tick htick
  | ret =>
    simp only [step] at h
    split at h
    next hpc =>
      obtain rfl := Option.some.inj h
      exact .ret hpc
    next => exact absurd h (by simp)
  | push val onLocal =>
    obtain rfl := Option.some.inj h
    exact .push

/-- A step of the machine with its history. -/
theorem step_of_recording {s t : Logged Draining Unit DrainEvent} {a : Act}
    (h : recording.step s a = some t) :
    ∃ es, Step s.state a t.state es ∧ t.log () = s.log () ++ es := by
  obtain ⟨u, hu, rfl⟩ := Machine.step_logged_eq_some.1 h
  exact ⟨_, step_cases hu, rfl⟩

/-! ### What is seen of a call -/

/-- The ids that the callback has been called on, in order. -/
def calls (h : List DrainEvent) : List ℕ :=
  h.filterMap fun
    | .called id => some id
    | _ => none

/-- The ids pushed on one side, in order. -/
def pushes (onLocal : Bool) (h : List DrainEvent) : List ℕ :=
  h.filterMap fun
    | .pushed val side => if side = onLocal then some val else none
    | _ => none

@[simp] theorem calls_append (h k : List DrainEvent) : calls (h ++ k) = calls h ++ calls k :=
  List.filterMap_append

@[simp] theorem pushes_append (b : Bool) (h k : List DrainEvent) :
    pushes b (h ++ k) = pushes b h ++ pushes b k :=
  List.filterMap_append

theorem pushes_called (b : Bool) (h : List DrainEvent) (id : ℕ) :
    pushes b (h ++ [.called id]) = pushes b h := by
  rw [pushes_append]
  exact List.append_nil _

theorem calls_pushed (h : List DrainEvent) (val : ℕ) (b : Bool) :
    calls (h ++ [.pushed val b]) = calls h := by
  rw [calls_append]
  exact List.append_nil _

theorem length_calls_called (h : List DrainEvent) (id : ℕ) :
    (calls (h ++ [.called id])).length = (calls h).length + 1 := by
  rw [calls_append, List.length_append]
  rfl

/-- What a push does to the two queues. -/
theorem localIds_push (q : WakeQueue) (val : ℕ) (b : Bool) :
    (q.push val b).localIds = q.localIds ++ pushes true [.pushed val b] := by
  cases b with
  | true => rfl
  | false => exact (List.append_nil _).symm

theorem concurrent_push (q : WakeQueue) (val : ℕ) (b : Bool) :
    (q.push val b).concurrent = q.concurrent ++ pushes false [.pushed val b] := by
  cases b with
  | true => exact (List.append_nil _).symm
  | false => rfl

/-! ### Safety -/

variable {s t : Draining} {a : Act} {es : List DrainEvent}

/-- What is left of the bounds does not exceed the queues. -/
def Bounded (s : Draining) : Prop :=
  match s.pc with
  | .idle => True
  | .lens n => n ≤ s.queue.localIds.length
  | .loop n m | .callback n m => n ≤ s.queue.localIds.length ∧ m ≤ s.queue.concurrent.length
  | .panicked => False

theorem length_push (q : WakeQueue) (val : ℕ) (b : Bool) :
    q.localIds.length ≤ (q.push val b).localIds.length ∧
      q.concurrent.length ≤ (q.push val b).concurrent.length := by
  rw [localIds_push, concurrent_push, List.length_append, List.length_append]
  exact ⟨Nat.le_add_right _ _, Nat.le_add_right _ _⟩

theorem Bounded.step (h : s.Bounded) (hs : Step s a t es) : t.Bounded := by
  rcases s with ⟨q, pc⟩
  cases hs
  case start hpc => exact le_rfl
  case read n hpc =>
    obtain rfl : pc = .lens n := hpc
    exact ⟨h, le_rfl⟩
  case popLocal n m id rest hpc hq =>
    obtain rfl : pc = .loop (n + 1) m := hpc
    have hq : q.localIds = id :: rest := hq
    obtain ⟨hn, hm⟩ : n + 1 ≤ q.localIds.length ∧ m ≤ q.concurrent.length := h
    rw [hq, List.length_cons] at hn
    exact ⟨Nat.le_of_succ_le_succ hn, hm⟩
  case unwrap n m hpc hq =>
    obtain rfl : pc = .loop (n + 1) m := hpc
    have hq : q.localIds = [] := hq
    obtain ⟨hn, -⟩ : n + 1 ≤ q.localIds.length ∧ m ≤ q.concurrent.length := h
    rw [hq] at hn
    exact absurd hn (Nat.not_succ_le_zero n)
  case popConcurrent m id rest hpc hq =>
    obtain rfl : pc = .loop 0 (m + 1) := hpc
    have hq : q.concurrent = id :: rest := hq
    obtain ⟨-, hm⟩ : 0 ≤ q.localIds.length ∧ m + 1 ≤ q.concurrent.length := h
    rw [hq, List.length_cons] at hm
    exact ⟨Nat.zero_le _, Nat.le_of_succ_le_succ hm⟩
  case done => trivial
  case ret n m hpc =>
    obtain rfl : pc = .callback n m := hpc
    exact h
  case push val b =>
    obtain ⟨hlocal, hcon⟩ := length_push q val b
    cases pc with
    | idle => trivial
    | lens n => exact h.trans hlocal
    | loop n m | callback n m => exact ⟨h.1.trans hlocal, h.2.trans hcon⟩
    | panicked => exact h

theorem Bounded.pc_ne_panicked (h : s.Bounded) : s.pc ≠ .panicked := by
  intro hpc
  rwa [Bounded, hpc] at h

/-- A call that is not over can make a step. -/
theorem Bounded.exists_own (h : s.Bounded) (hpc : s.pc ≠ .idle) :
    ∃ a, a.isOwn = true ∧ (s.step a).isSome := by
  rcases s with ⟨q, pc⟩
  cases pc with
  | idle => exact absurd rfl hpc
  | lens n => exact ⟨.tick, rfl, rfl⟩
  | loop n m =>
    refine ⟨.tick, rfl, ?_⟩
    rw [Draining.step, Option.isSome_map]
    rcases n with - | n
    · rcases m with - | m
      · rfl
      · simp only [tick]
        split <;> rfl
    · simp only [tick]
      split <;> rfl
  | callback n m => exact ⟨.ret, rfl, rfl⟩
  | panicked => exact absurd h id

/-! ### Exactly once -/

/-- What was there and what was pushed is what has been called and what is there, each id as
often. -/
def Accounted (q : WakeQueue) (s : Draining) (h : List DrainEvent) : Prop :=
  ∀ id, q.localIds.count id + q.concurrent.count id +
      ((pushes true h).count id + (pushes false h).count id) =
    (calls h).count id + (s.queue.localIds.count id + s.queue.concurrent.count id)

theorem Accounted.step {q : WakeQueue} {h : List DrainEvent} (hacc : Accounted q s h)
    (hs : Step s a t es) : Accounted q t (h ++ es) := by
  intro id
  have hid := hacc id
  simp only [calls_append, pushes_append, List.count_append]
  cases hs
  case popLocal x rest hpc hq =>
    rw [hq, List.count_cons] at hid
    show _ + ((pushes true h).count id + 0 + ((pushes false h).count id + 0)) =
      (calls h).count id + [x].count id + (rest.count id + s.queue.concurrent.count id)
    rw [List.count_singleton]
    omega
  case popConcurrent x rest hpc hq =>
    rw [hq, List.count_cons] at hid
    show _ + ((pushes true h).count id + 0 + ((pushes false h).count id + 0)) =
      (calls h).count id + [x].count id + (s.queue.localIds.count id + rest.count id)
    rw [List.count_singleton]
    omega
  case push val b =>
    show _ = (calls h).count id + 0 +
      ((s.queue.push val b).localIds.count id + (s.queue.push val b).concurrent.count id)
    rw [localIds_push, concurrent_push, List.count_append, List.count_append]
    omega
  all_goals exact hid

/-! ### One call from its start -/

/-- A call that began with the queue `q` has read the lengths, with the bounds `n` and `m` left of
them. What is due was fixed by the reading: what has been called, followed by the head of the local
queue and the head of the concurrent queue. Behind these heads is what has been pushed since. -/
def Progress (q : WakeQueue) (n m : ℕ) (q' : WakeQueue) (h : List DrainEvent) : Prop :=
  ∃ h₁ h₂ ls cs, h = h₁ ++ .read :: h₂ ∧ .read ∉ h₁ ++ h₂ ∧
    calls h ++ (ls ++ cs) = q.localIds ++ (q.concurrent ++ pushes false h₁) ∧
    ls.length = n ∧ cs.length = m ∧
    q'.localIds = ls ++ pushes true h ∧ q'.concurrent = cs ++ pushes false h₂

/-- A call that began with the queue `q`, with its history. -/
def DrainInv (q : WakeQueue) (s : Draining) (h : List DrainEvent) : Prop :=
  match s.pc with
  | .lens n => n = q.localIds.length ∧ .read ∉ h ∧ calls h = [] ∧
      s.queue.localIds = q.localIds ++ pushes true h ∧
      s.queue.concurrent = q.concurrent ++ pushes false h
  | .loop n m | .callback n m => Progress q n m s.queue h
  | .idle => Progress q 0 0 s.queue h
  | .panicked => False

section Call

variable {q q' : WakeQueue} {n m : ℕ} {h : List DrainEvent}

/-- The reading fixes what is due. -/
theorem progress_read (hread : .read ∉ h) (hcalls : calls h = [])
    (hlocal : q'.localIds = q.localIds ++ pushes true h)
    (hcon : q'.concurrent = q.concurrent ++ pushes false h) :
    Progress q q.localIds.length q'.concurrent.length q' (h ++ [.read]) := by
  refine ⟨h, [], q.localIds, q.concurrent ++ pushes false h, rfl, by rwa [List.append_nil], ?_, rfl,
    by rw [hcon], ?_, ?_⟩
  · rw [calls_append, hcalls]
    rfl
  · rw [hlocal, pushes_append]
    exact congrArg _ (List.append_nil _).symm
  · rw [hcon]
    exact (List.append_nil _).symm

theorem Progress.popLocal {id : ℕ} {rest : List ℕ} (hp : Progress q (n + 1) m q' h)
    (hq : q'.localIds = id :: rest) :
    Progress q n m { q' with localIds := rest } (h ++ [.called id]) := by
  obtain ⟨h₁, h₂, ls, cs, rfl, hread, hdue, hls, hcs, hlocal, hcon⟩ := hp
  obtain ⟨x, ls, rfl⟩ := List.exists_cons_of_length_eq_add_one hls
  rw [hq, List.cons_append, List.cons.injEq] at hlocal
  obtain ⟨rfl, hrest⟩ := hlocal
  refine ⟨h₁, h₂ ++ [.called id], ls, cs, by simp, by simpa using hread,
    ?_, by simpa using hls, hcs, ?_, ?_⟩
  · rw [calls_append, ← hdue]
    simp [calls]
  · rw [pushes_called]
    exact hrest
  · rw [pushes_called]
    exact hcon

theorem Progress.popConcurrent {id : ℕ} {rest : List ℕ} (hp : Progress q 0 (m + 1) q' h)
    (hq : q'.concurrent = id :: rest) :
    Progress q 0 m { q' with concurrent := rest } (h ++ [.called id]) := by
  obtain ⟨h₁, h₂, ls, cs, rfl, hread, hdue, hls, hcs, hlocal, hcon⟩ := hp
  obtain rfl := List.length_eq_zero_iff.1 hls
  obtain ⟨x, cs, rfl⟩ := List.exists_cons_of_length_eq_add_one hcs
  rw [hq, List.cons_append, List.cons.injEq] at hcon
  obtain ⟨rfl, hrest⟩ := hcon
  refine ⟨h₁, h₂ ++ [.called id], [], cs, by simp, by simpa using hread, ?_,
    rfl, by simpa using hcs, ?_, ?_⟩
  · rw [calls_append, ← hdue]
    simp [calls]
  · rw [pushes_called]
    exact hlocal
  · rw [pushes_called]
    exact hrest

theorem Progress.push (hp : Progress q n m q' h) (val : ℕ) (b : Bool) :
    Progress q n m (q'.push val b) (h ++ [.pushed val b]) := by
  obtain ⟨h₁, h₂, ls, cs, rfl, hread, hdue, hls, hcs, hlocal, hcon⟩ := hp
  refine ⟨h₁, h₂ ++ [.pushed val b], ls, cs, by simp, by simpa using hread, ?_, hls, hcs, ?_, ?_⟩
  · rw [calls_pushed, hdue]
  · rw [localIds_push, hlocal, List.append_assoc, ← pushes_append]
  · rw [concurrent_push, hcon, List.append_assoc, ← pushes_append]

/-- **One step of a call.** -/
theorem DrainInv.step (hinv : DrainInv q s h) (hs : Step s a t es) (ha : a ≠ .start) :
    DrainInv q t (h ++ es) := by
  rcases s with ⟨q', pc⟩
  cases hs
  case start => exact absurd rfl ha
  case read n hpc =>
    obtain rfl : pc = .lens n := hpc
    obtain ⟨rfl, hread, hcalls, hlocal, hcon⟩ := hinv
    exact progress_read hread hcalls hlocal hcon
  case popLocal n m id rest hpc hq =>
    obtain rfl : pc = .loop (n + 1) m := hpc
    exact Progress.popLocal hinv hq
  case unwrap n m hpc hq =>
    obtain rfl : pc = .loop (n + 1) m := hpc
    obtain ⟨h₁, h₂, ls, cs, -, -, -, hls, -, hlocal, -⟩ := hinv
    have hq : q'.localIds = [] := hq
    rw [hq] at hlocal
    obtain rfl : ls = [] := (List.append_eq_nil_iff.1 hlocal.symm).1
    exact absurd hls (by simp)
  case popConcurrent m id rest hpc hq =>
    obtain rfl : pc = .loop 0 (m + 1) := hpc
    exact Progress.popConcurrent hinv hq
  case done m hpc hq =>
    obtain rfl : pc = .loop 0 m := hpc
    rw [List.append_nil]
    rcases hq with rfl | hq
    · exact hinv
    · -- the reading promised `m` ids, so an empty queue means that none was left to pop
      obtain ⟨h₁, h₂, ls, cs, heq, hread, hdue, hls, hcs, hlocal, hcon⟩ := hinv
      have hq : q'.concurrent = [] := hq
      rw [hq] at hcon
      obtain rfl : cs = [] := (List.append_eq_nil_iff.1 hcon.symm).1
      exact ⟨h₁, h₂, ls, [], heq, hread, hdue, hls, rfl, hlocal, hq.trans hcon⟩
  case ret n m hpc =>
    obtain rfl : pc = .callback n m := hpc
    rw [List.append_nil]
    exact hinv
  case push val b =>
    cases pc with
    | idle | loop | callback => exact Progress.push hinv val b
    | lens n =>
      obtain ⟨hn, hread, hcalls, hlocal, hcon⟩ := hinv
      refine ⟨hn, by simpa using hread, by rw [calls_pushed, hcalls], ?_, ?_⟩
      · show (q'.push val b).localIds = _
        rw [localIds_push, hlocal, pushes_append, List.append_assoc]
      · show (q'.push val b).concurrent = _
        rw [concurrent_push, hcon, pushes_append, List.append_assoc]
    | panicked => exact hinv

/-- The steps that a call has made by itself, counted by its calls of the callback. -/
def Spent (k : ℕ) (s : Draining) (h : List DrainEvent) : Prop :=
  match s.pc with
  | .lens _ => k = 0 ∧ calls h = []
  | .loop _ _ => k = 2 * (calls h).length + 1
  | .callback _ _ => k = 2 * (calls h).length
  | .idle => k = 2 * (calls h).length + 2
  | .panicked => True

theorem Spent.le {k : ℕ} (hk : Spent k s h) (hpc : s.pc ≠ .panicked) :
    k ≤ 2 * (calls h).length + 2 := by
  rcases s with ⟨q', pc⟩
  cases pc with
  | lens n => exact hk.1.trans_le (Nat.zero_le _)
  | loop n m | callback n m | idle =>
    simp only [Spent] at hk
    omega
  | panicked => exact absurd rfl hpc

theorem Spent.step {k : ℕ} (hk : Spent k s h) (hs : Step s a t es) (ha : a ≠ .start) :
    Spent (k + [a].countP Act.isOwn) t (h ++ es) := by
  rcases s with ⟨q', pc⟩
  cases hs
  case start => exact absurd rfl ha
  case read n hpc =>
    obtain rfl : pc = .lens n := hpc
    obtain ⟨rfl, hcalls⟩ := hk
    show 0 + 1 = 2 * (calls (h ++ [.read])).length + 1
    rw [calls_append, hcalls]
    rfl
  case popLocal n m id rest hpc hq =>
    obtain rfl : pc = .loop (n + 1) m := hpc
    have hk : k = 2 * (calls h).length + 1 := hk
    show k + 1 = 2 * (calls (h ++ [.called id])).length
    rw [length_calls_called]
    omega
  case unwrap => trivial
  case popConcurrent m id rest hpc hq =>
    obtain rfl : pc = .loop 0 (m + 1) := hpc
    have hk : k = 2 * (calls h).length + 1 := hk
    show k + 1 = 2 * (calls (h ++ [.called id])).length
    rw [length_calls_called]
    omega
  case done m hpc hq =>
    obtain rfl : pc = .loop 0 m := hpc
    have hk : k = 2 * (calls h).length + 1 := hk
    rw [List.append_nil]
    show k + 1 = 2 * (calls h).length + 2
    omega
  case ret n m hpc =>
    obtain rfl : pc = .callback n m := hpc
    have hk : k = 2 * (calls h).length := hk
    rw [List.append_nil]
    show k + 1 = 2 * (calls h).length + 1
    omega
  case push val b =>
    cases pc with
    | lens n => exact ⟨hk.1, (calls_pushed h val b).trans hk.2⟩
    | loop n m | callback n m | idle =>
      simp only [Spent, calls_pushed] at hk ⊢
      exact hk
    | panicked => trivial

end Call

/-! ### Every run -/

theorem bounded_of_run {q : WakeQueue} {as : List Act} {t : Logged Draining Unit DrainEvent}
    (hrun : recording.run ⟨⟨q, .idle⟩, fun _ ↦ []⟩ as = some t) : t.state.Bounded := by
  refine Machine.run_preserves (I := fun s ↦ s.state.Bounded) (fun s a t h hs ↦ ?_) ?_ hrun
  · obtain ⟨es, hstep, -⟩ := step_of_recording hs
    exact h.step hstep
  · trivial

theorem accounted_of_run {q : WakeQueue} {as : List Act} {t : Logged Draining Unit DrainEvent}
    (hrun : recording.run ⟨⟨q, .idle⟩, fun _ ↦ []⟩ as = some t) :
    Accounted q t.state (t.log ()) := by
  refine Machine.run_preserves
    (I := fun s ↦ Accounted q s.state (s.log ())) (fun s a t h hs ↦ ?_) ?_ hrun
  · obtain ⟨es, hstep, hlog⟩ := step_of_recording hs
    rw [hlog]
    exact h.step hstep
  · intro id
    exact Nat.add_comm _ 0

/-- A call and what it has spent, from its start on. -/
theorem call_of_run {q : WakeQueue} {as : List Act} {t : Logged Draining Unit DrainEvent}
    (hrun : recording.run ⟨⟨q, .idle⟩, fun _ ↦ []⟩ (.start :: as) = some t) (hone : .start ∉ as) :
    DrainInv q t.state (t.log ()) ∧ Spent (as.countP Act.isOwn) t.state (t.log ()) := by
  -- induction on the latest action, so that the count grows with the run
  induction as using List.reverseRecOn generalizing t with
  | nil =>
    obtain rfl := Option.some.inj hrun
    exact ⟨⟨rfl, List.not_mem_nil, rfl, (List.append_nil _).symm, (List.append_nil _).symm⟩, rfl,
      rfl⟩
  | append_singleton as a ih =>
    rw [← List.cons_append, Machine.run_append] at hrun
    obtain ⟨u, hu, hlast⟩ := Option.bind_eq_some_iff.1 hrun
    obtain ⟨v, hv, hnil⟩ := Machine.run_cons_eq_some _ |>.1 hlast
    obtain rfl := Option.some.inj hnil
    obtain ⟨es, hstep, hlog⟩ := step_of_recording hv
    obtain ⟨hone, ha⟩ : .start ∉ as ∧ .start ≠ a := by simpa using hone
    obtain ⟨hinv, hspent⟩ := ih hu hone
    rw [hlog, List.countP_append]
    exact ⟨hinv.step hstep ha.symm, hspent.step hstep ha.symm⟩

/-- What a call has done once it has read the lengths. Nothing of the bounds is left at its end. -/
theorem DrainInv.progress {q : WakeQueue} {s : Draining} {h : List DrainEvent}
    (hinv : DrainInv q s h) (hpc : ∀ n, s.pc ≠ .lens n) :
    ∃ n m, Progress q n m s.queue h ∧ (s.pc = .idle → n = 0 ∧ m = 0) := by
  rcases s with ⟨q', pc⟩
  cases pc with
  | lens n => exact absurd rfl (hpc n)
  | loop n m | callback n m => exact ⟨n, m, hinv, fun h ↦ by cases h⟩
  | idle => exact ⟨0, 0, hinv, fun _ ↦ ⟨rfl, rfl⟩⟩
  | panicked => exact absurd hinv id

end Draining

/-! ### What is promised of a call -/

/-- What is promised of one call that began with the queue `q`, after the actions `as`. The
concurrent queue at the reading is what it was at the start followed by what was pushed before the
reading. -/
structure Draining.CallSpec (q : WakeQueue) (as : List Act) (t : Logged Draining Unit DrainEvent) :
    Prop where
  no_panic : t.state.pc ≠ .panicked
  /-- A call that is not over can make a step. -/
  goes_on : t.state.pc ≠ .idle → ∃ a, a.isOwn = true ∧ (t.state.step a).isSome
  /-- Once the lengths have been read, the callback is called on what is due, in order, and on
  nothing else; when the call is over it has been called on all of it, and what was pushed since is
  left. -/
  delivers : (∀ n, t.state.pc ≠ .lens n) → ∃ before since,
    t.log () = before ++ .read :: since ∧ .read ∉ before ++ since ∧
    calls (t.log ()) <+: q.localIds ++ (q.concurrent ++ pushes false before) ∧
    as.countP Act.isOwn ≤
      2 * (q.localIds.length + (q.concurrent ++ pushes false before).length) + 2 ∧
    (t.state.pc = .idle →
      calls (t.log ()) = q.localIds ++ (q.concurrent ++ pushes false before) ∧
      (calls (t.log ())).length = q.localIds.length + (q.concurrent ++ pushes false before).length ∧
      t.state.queue.localIds = pushes true (t.log ()) ∧
      t.state.queue.concurrent = pushes false since)

theorem Draining.callSpec_of_run {q : WakeQueue} {as : List Act}
    {t : Logged Draining Unit DrainEvent}
    (hrun : recording.run ⟨⟨q, .idle⟩, fun _ ↦ []⟩ (.start :: as) = some t) (hone : .start ∉ as) :
    CallSpec q as t := by
  have hbounded := bounded_of_run hrun
  obtain ⟨hinv, hspent⟩ := call_of_run hrun hone
  refine ⟨hbounded.pc_ne_panicked, hbounded.exists_own, fun hpc ↦ ?_⟩
  obtain ⟨n, m, ⟨before, since, ls, cs, hlog, hread, hdue, hls, hcs, hlocal, hcon⟩, hleft⟩ :=
    hinv.progress hpc
  have hcalls : (calls (t.log ())).length ≤
      q.localIds.length + (q.concurrent ++ pushes false before).length := by
    rw [← List.length_append, ← hdue, List.length_append]
    exact Nat.le_add_right _ _
  have hle := hspent.le hbounded.pc_ne_panicked
  refine ⟨before, since, hlog, hread, ⟨ls ++ cs, hdue⟩, by omega, fun hidle ↦ ?_⟩
  obtain ⟨rfl, rfl⟩ := hleft hidle
  obtain rfl := List.length_eq_zero_iff.1 hls
  obtain rfl := List.length_eq_zero_iff.1 hcs
  rw [List.append_nil, List.append_nil] at hdue
  refine ⟨hdue, ?_, hlocal, hcon⟩
  rw [hdue, List.length_append]

end LocalRuntime
