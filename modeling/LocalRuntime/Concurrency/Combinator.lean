import LocalRuntime.Concurrency.Wakeups

/-!
# Combinators as far as wakers go

What the combinators of `src/concurrency.rs` have in common: a join and both kinds of merge clear
the flag of an inner future when they poll it, take its answer, and have their flags set and their
base waker woken from outside. `CombView` is what is left of a combinator when the rest is
forgotten, and `CombView.Effect` lists what a step can do to it; `Join.effect_of_step` and
`Merge.effect_of_step` say that every step of a join and of a merge is one of these.

`Comb` is any of the three combinators, with the invariants of each (`Comb.Good`).
-/

namespace LocalRuntime

variable {V : Type}

/-- A combinator as far as wakers go. -/
structure CombView where
  wakers : FlagWakers
  /-- The inner futures that have not given their last answer. -/
  alive : ℕ → Bool
  /-- The inner future that is being polled. -/
  polling : Option ℕ
  /-- The combinator is being polled. -/
  inCall : Bool
  /-- The latest call has returned pending. -/
  isPending : Bool

namespace CombView

/-- The waker of the latest call. -/
def registered (v : CombView) : Option ℕ := v.wakers.baseWaker.registered

/-- What a combinator does: it is polled, goes on with its loop, takes an answer that is pending or
not, or suffers a step from outside. -/
inductive Move where
  | poll (cx : ℕ)
  | tick
  | ret (pending : Bool)
  | env (a : FlagWakers.Act)

/-- What a step does. -/
inductive Effect (v : CombView) : Move → CombView → Prop where
  /-- A call begins. -/
  | begin {cx : ℕ} {v' : CombView} (hcall : v.inCall = false) (hpolling : v.polling = none)
      (hwakers : v'.wakers = v.wakers.register cx) (halive : v'.alive = v.alive)
      (hbegin : v'.polling = none) : Effect v (.poll cx) v'
  /-- An inner future is polled: its flag is cleared. -/
  | start {i : ℕ} {v' : CombView} (hcall : v.inCall = true) (hpolling : v.polling = none)
      (hwakers : v'.wakers = v.wakers.checkAwoken i) (halive : v'.alive = v.alive)
      (hstart : v'.polling = some i) : Effect v .tick v'
  /-- Nothing is polled, and no flag changes. -/
  | skip {v' : CombView} (hcall : v.inCall = true) (hpolling : v.polling = none)
      (hbase : v'.wakers.baseWaker = v.wakers.baseWaker)
      (hawoken : ∀ j, v'.wakers.isAwoken j = v.wakers.isAwoken j)
      (halive : ∀ j, v'.alive j = true → v.alive j = true) (hskip : v'.polling = none) :
      Effect v .tick v'
  /-- The inner future that is being polled is pending. -/
  | pending {i : ℕ} {v' : CombView} (hcall : v.inCall = true) (hpolling : v.polling = some i)
      (hwakers : v'.wakers = v.wakers) (halive : v'.alive = v.alive) (hdone : v'.polling = none) :
      Effect v (.ret true) v'
  /-- It is ready: it has given its last answer, or its flag is set for the next call. -/
  | ready {i : ℕ} {v' : CombView} (hcall : v.inCall = true) (hpolling : v.polling = some i)
      (hbase : v'.wakers.baseWaker = v.wakers.baseWaker)
      (hawoken : ∀ j, v.wakers.isAwoken j = true → v'.wakers.isAwoken j = true)
      (halive : ∀ j, v'.alive j = true → v.alive j = true)
      (hlast : v'.alive i = true → v'.wakers.isAwoken i = true) (hdone : v'.polling = none) :
      Effect v (.ret false) v'
  | env {a : FlagWakers.Act} {v' : CombView} (hact : v.wakers.act a = some v'.wakers)
      (halive : v'.alive = v.alive) (hpolling : v'.polling = v.polling)
      (hcall : v'.inCall = v.inCall) (hpending : v'.isPending = v.isPending) : Effect v (.env a) v'

namespace Effect

variable {v v' : CombView} {a : Move} {i : ℕ}

/-- Only the poll of an inner future clears its flag. -/
theorem awoken (h : Effect v a v') (hi : v.wakers.isAwoken i = true) :
    v'.wakers.isAwoken i = true ∨ a = .tick ∧ v'.polling = some i := by
  cases h with
  | begin hcall hpolling hwakers halive hbegin => exact Or.inl (by rw [hwakers]; exact hi)
  | @start j _ hcall hpolling hwakers halive hstart =>
    rcases eq_or_ne j i with rfl | hne
    · exact Or.inr ⟨rfl, hstart⟩
    · refine Or.inl ?_
      rw [hwakers, FlagWakers.isAwoken_checkAwoken, hi]
      simp [hne]
  | skip hcall hpolling hbase hawoken halive hskip => exact Or.inl ((hawoken i).trans hi)
  | pending hcall hpolling hwakers halive hdone => exact Or.inl (by rw [hwakers]; exact hi)
  | ready hcall hpolling hbase hawoken halive hlast hdone => exact Or.inl (hawoken i hi)
  | env hact halive hpolling hcall hpending =>
    refine Or.inl ?_
    rw [(FlagWakers.act_eq_some hact).2.2 i, hi, Bool.or_true]

theorem alive (h : Effect v a v') (hi : v'.alive i = true) : v.alive i = true := by
  cases h with
  | begin hcall hpolling hwakers halive hbegin => exact halive ▸ hi
  | start hcall hpolling hwakers halive hstart => exact halive ▸ hi
  | skip hcall hpolling hbase hawoken halive hskip => exact halive i hi
  | pending hcall hpolling hwakers halive hdone => exact halive ▸ hi
  | ready hcall hpolling hbase hawoken halive hlast hdone => exact halive i hi
  | env hact halive hpolling hcall hpending => exact halive ▸ hi

/-- The poll of an inner future ends with its answer. If that is ready and not the last one, the
inner future is polled again by the next call. -/
theorem polling (h : Effect v a v') (hi : v.polling = some i) :
    v'.polling = some i ∨ a = .ret true ∨
      a = .ret false ∧ (v'.alive i = true → v'.wakers.isAwoken i = true) := by
  cases h with
  | begin hcall hpolling hwakers halive hbegin => rw [hi] at hpolling; cases hpolling
  | start hcall hpolling hwakers halive hstart => rw [hi] at hpolling; cases hpolling
  | skip hcall hpolling hbase hawoken halive hskip => rw [hi] at hpolling; cases hpolling
  | pending hcall hpolling hwakers halive hdone => exact Or.inr (Or.inl rfl)
  | ready hcall hpolling hbase hawoken halive hlast hdone =>
    obtain rfl := Option.some.inj (hi.symm.trans hpolling)
    exact Or.inr (Or.inr ⟨rfl, hlast⟩)
  | env hact halive hpolling hcall hpending => exact Or.inl (hpolling.trans hi)

/-- What stays of a combinator from one step to the next, between two polls: the waker of the first,
and that it is in the middle of a call or pending. The waker goes out of the base waker only when
that is woken. -/
structure Keeps (v : CombView) (a : Move) (v' : CombView) : Prop where
  registered : v'.registered = v.registered
  inCall : v'.inCall = true → v.inCall = true
  live : v'.inCall = true ∨ v'.isPending = true → v.inCall = true ∨ v.isPending = true
  woken : v'.wakers.baseWaker.Woken → v.wakers.baseWaker.Woken ∨
    a = .env .fire ∧ v.wakers.baseWaker.slot = v.registered

theorem keeps (h : Effect v a v') (hpoll : ∀ cx, a ≠ .poll cx) (hhear : ∀ w, a ≠ .env (.hear w)) :
    Keeps v a v' := by
  have hloop (hcall : v.inCall = true) (hbase : v'.wakers.baseWaker = v.wakers.baseWaker) :
      Keeps v a v' := by
    refine ⟨?_, fun _ ↦ hcall, fun _ ↦ Or.inl hcall, fun hw ↦ Or.inl (hbase ▸ hw)⟩
    rw [CombView.registered, hbase, CombView.registered]
  cases h with
  | begin => exact absurd rfl (hpoll _)
  | start hcall hpolling hwakers halive hstart => exact hloop hcall (by rw [hwakers]; rfl)
  | skip hcall hpolling hbase hawoken halive hskip => exact hloop hcall hbase
  | pending hcall hpolling hwakers halive hdone => exact hloop hcall (by rw [hwakers])
  | ready hcall hpolling hbase hawoken halive hlast hdone => exact hloop hcall hbase
  | @env e _ hact halive hpolling hcall hpending =>
    refine ⟨(FlagWakers.act_eq_some hact).2.1, fun hin ↦ hcall ▸ hin, fun hlive ↦ ?_, fun hw ↦ ?_⟩
    · rwa [hcall, hpending] at hlive
    · rcases e with j | - | w
      · rw [FlagWakers.act, Option.ite_none_right_eq_some] at hact
        obtain ⟨-, heq⟩ := hact
        rw [← Option.some.inj heq] at hw
        exact Or.inl hw
      · rcases v.wakers.baseWaker.slot_or_woken with hslot | ⟨-, hwoken⟩
        · exact Or.inr ⟨rfl, hslot⟩
        · exact Or.inl hwoken
      · exact absurd rfl (hhear w)

end Effect

end CombView

/-- Swapping a flag that is clear changes nothing. -/
theorem FlagWakers.isAwoken_checkAwoken_of_eq_false {b : FlagWakers} {i : ℕ}
    (hi : b.isAwoken i = false) (j : ℕ) : (b.checkAwoken i).isAwoken j = b.isAwoken j := by
  rw [isAwoken_checkAwoken]
  rcases eq_or_ne i j with rfl | hne
  · rw [hi, Bool.and_false]
  · simp [hne]

namespace Join

/-- The move of a step. -/
def move : JoinAct V → CombView.Move
  | .poll cx => .poll cx
  | .tick => .tick
  | .ret out => .ret (!out.isReady)
  | .env a => .env a

/-- A join as far as wakers go. -/
def view (m : Join V) : CombView where
  wakers := m.wakers
  alive := m.isFut
  polling :=
    match m.pc with
    | .polling i _ _ => some i
    | _ => none
  inCall := 0 < m.pc.left
  isPending :=
    match m.pc with
    | .idle (some .pending) => true
    | _ => false

theorem effect_of_step {m m' : Join V} {a : JoinAct V} (hstep : m.step a = some m') :
    m.view.Effect (move a) m'.view := by
  rcases step_cases hstep with @⟨last, cx, hpc⟩ | @⟨out, hpc⟩ | @⟨i, rest, out, hpc⟩ |
    @⟨i, rest, out, p, hpc⟩ | @⟨e, m', henv⟩
  · have hcall : m.view.inCall = false := by simp [view, hpc, JoinPc.left]
    have hpolling : m.view.polling = none := by simp [view, hpc]
    simp only [begin]
    split
    · exact .begin hcall hpolling rfl rfl rfl
    · exact .begin hcall hpolling rfl rfl rfl
  · have hcall : m.view.inCall = true := by simp [view, hpc, JoinPc.left]
    have hpolling : m.view.polling = none := by simp [view, hpc]
    rcases out with - | ⟨⟩
    · exact .skip hcall hpolling rfl (fun _ ↦ rfl) (fun _ ↦ id) rfl
    · simp only [finish]
      split
      next => exact .skip hcall hpolling rfl (fun _ ↦ rfl) (fun _ ↦ id) rfl
      next =>
        -- nothing is in flight any more
        split
        · exact .skip hcall hpolling rfl (fun _ ↦ rfl) (fun j hj ↦ absurd hj Bool.false_ne_true) rfl
        · exact .skip hcall hpolling rfl (fun _ ↦ rfl) (fun j hj ↦ absurd hj Bool.false_ne_true) rfl
  · have hcall : m.view.inCall = true := by simp [view, hpc, JoinPc.left]
    have hpolling : m.view.polling = none := by simp [view, hpc]
    rw [visit]
    split
    next hfut =>
      split
      next => exact .start hcall hpolling rfl rfl rfl
      next hawoken =>
        exact .skip hcall hpolling rfl
          (FlagWakers.isAwoken_checkAwoken_of_eq_false (Bool.eq_false_iff.2 hawoken))
          (fun _ ↦ id) rfl
    next => exact .skip hcall hpolling rfl (fun _ ↦ rfl) (fun _ ↦ id) rfl
  · have hcall : m.view.inCall = true := by simp [view, hpc, JoinPc.left]
    have hpolling : m.view.polling = some i := by simp [view, hpc]
    rcases p with - | val
    · exact .pending hcall hpolling rfl rfl rfl
    · refine .ready hcall hpolling rfl (fun _ ↦ id) (fun j hj ↦ ?_) (fun hi ↦ ?_) rfl
      · exact (isFut_answer_ready.1 hj).2
      · exact absurd rfl (isFut_answer_ready.1 hi).1
  · obtain ⟨wakers, hact, rfl⟩ := Option.map_eq_some_iff.1 henv
    exact .env hact rfl rfl rfl rfl

end Join

namespace Merge

variable {O : Type}

/-- The move of a step. -/
def move : MergeAct O → CombView.Move
  | .poll cx => .poll cx
  | .tick => .tick
  | .ret out => .ret (!out.isReady)
  | .env a => .env a

/-- A merge as far as wakers go. -/
def view (m : Merge O V) : CombView where
  wakers := m.wakers
  alive := m.alive
  polling :=
    match m.pc with
    | .polling i _ => some i
    | _ => none
  inCall := 0 < m.pc.left
  isPending :=
    match m.pc with
    | .idle (some .pending) => true
    | _ => false

/-- The end of the loop body, after a visit that has polled nothing. -/
theorem effect_advance {m : Merge O V} (m' : Merge O V) (hcall : m.view.inCall = true)
    (hpolling : m.view.polling = none) (hbase : m'.wakers.baseWaker = m.wakers.baseWaker)
    (hawoken : ∀ j, m'.wakers.isAwoken j = m.wakers.isAwoken j) (halive : m'.alive = m.alive)
    (rest : List ℕ) : m.view.Effect .tick (m'.advance rest).view := by
  have hle (j : ℕ) (hj : m'.alive j = true) : m.alive j = true := halive ▸ hj
  simp only [advance]
  split
  · exact .skip hcall hpolling hbase hawoken hle rfl
  · exact .skip hcall hpolling hbase hawoken hle rfl

/-- **An answer that is ready**: it is the last one, or an item, for which the flag is set. -/
theorem effect_answer {K : MergeKind O V} {m : Merge O V} {i : ℕ} {rest : List ℕ} {out : O}
    (hpc : m.pc = .polling i rest) (hK : K.noneFn out = true ∨ (K.optFn out).isSome = true)
    (hi : i < m.wakers.awoken.length) :
    m.view.Effect (.ret false) (m.answer K i rest (.ready out)).view := by
  have hcall : m.view.inCall = true := by simp [view, hpc, MergePc.left]
  have hpolling : m.view.polling = some i := by simp [view, hpc]
  obtain ⟨hwakers, -⟩ := settle_eq K m i out
  have hle (j : ℕ) (hj : (settle K m i out).alive j = true) : m.alive j = true := by
    rw [alive_settle, Bool.and_eq_true] at hj
    exact hj.2
  simp only [answer]
  split
  next val hval =>
    have hset (j : ℕ) : ((settle K m i out).wakers.setAwoken i).isAwoken j =
        (decide (i = j) || m.wakers.isAwoken j) := by
      rw [hwakers]
      exact FlagWakers.isAwoken_setAwoken hi
    refine .ready hcall hpolling ?_ (fun j hj ↦ ?_) hle (fun _ ↦ ?_) rfl
    · show (settle K m i out).wakers.baseWaker = m.wakers.baseWaker
      rw [hwakers]
    · exact (hset j).trans (by rw [show m.wakers.isAwoken j = true from hj, Bool.or_true])
    · exact (hset i).trans (by simp)
  next hnone =>
    have hdead : (settle K m i out).alive i = false := by
      rw [alive_settle, hK.resolve_right (by simp [hnone])]
      simp
    have hawoken (j : ℕ) (hj : m.wakers.isAwoken j = true) :
        (settle K m i out).wakers.isAwoken j = true := hwakers ▸ hj
    have hlast (hlive : (settle K m i out).alive i = true) :
        (settle K m i out).wakers.isAwoken i = true := absurd hlive (by simp [hdead])
    simp only [advance]
    split
    · exact .ready hcall hpolling (congrArg FlagWakers.baseWaker hwakers) hawoken hle hlast rfl
    · exact .ready hcall hpolling (congrArg FlagWakers.baseWaker hwakers) hawoken hle hlast rfl

theorem effect_of_step {K : MergeKind O V}
    (hK : ∀ out, K.noneFn out = true ∨ (K.optFn out).isSome = true) {n : ℕ} {m m' : Merge O V}
    (hinv : Inv K n m) {a : MergeAct O} (hstep : m.step K a = some m') :
    m.view.Effect (move a) m'.view := by
  rcases step_cases hstep with @⟨last, cx, hpc⟩ | hpc | @⟨i, rest, hpc⟩ | @⟨i, rest, p, hpc⟩ |
    @⟨e, m', henv⟩
  · have hcall : m.view.inCall = false := by simp [view, hpc, MergePc.left]
    have hpolling : m.view.polling = none := by simp [view, hpc]
    simp only [begin]
    split
    · exact .begin hcall hpolling rfl rfl rfl
    · exact .begin hcall hpolling rfl rfl rfl
  · have hcall : m.view.inCall = true := by simp [view, hpc, MergePc.left]
    have hpolling : m.view.polling = none := by simp [view, hpc]
    exact .skip hcall hpolling rfl (fun _ ↦ rfl) (fun _ ↦ id) rfl
  · have hcall : m.view.inCall = true := by simp [view, hpc, MergePc.left]
    have hpolling : m.view.polling = none := by simp [view, hpc]
    rw [visit]
    split
    next =>
      split
      next => exact .start hcall hpolling rfl rfl rfl
      next hawoken =>
        exact effect_advance { m with wakers := m.wakers.checkAwoken i } hcall hpolling rfl
          (FlagWakers.isAwoken_checkAwoken_of_eq_false (Bool.eq_false_iff.2 hawoken)) rfl rest
    next => exact effect_advance m hcall hpolling rfl (fun _ ↦ rfl) rfl rest
  · have hcall : m.view.inCall = true := by simp [view, hpc, MergePc.left]
    have hpolling : m.view.polling = some i := by simp [view, hpc]
    rcases p with - | out
    · simp only [answer, advance]
      split
      · exact .pending hcall hpolling rfl rfl rfl
      · exact .pending hcall hpolling rfl rfl rfl
    · have hplace := hinv.2
      rw [Place, hpc] at hplace
      exact effect_answer hpc (hK out) (hinv.1.length_awoken.symm ▸ hplace.1)
  · obtain ⟨wakers, hact, rfl⟩ := Option.map_eq_some_iff.1 henv
    exact .env hact rfl rfl rfl rfl

end Merge

/-! ### Combinators -/

/-- The combinators of the crate. -/
inductive CombKind where
  | join
  | mergeFutures
  | mergeStreams
  deriving DecidableEq

/-- A combinator. -/
inductive Comb (V : Type) where
  | join (m : Join V)
  | mergeFutures (m : Merge V V)
  | mergeStreams (m : Merge (Option V) V)

/-- The answer of an inner future or of an inner stream. -/
inductive Answer (V : Type) where
  | future (out : Poll V)
  | stream (out : Poll (Option V))

/-- The answer is `Poll::Pending`. -/
def Answer.isPending : Answer V → Bool
  | future out => !out.isReady
  | stream out => !out.isReady

/-- A step of a combinator, the answer of the inner future that is being polled, or a step from
outside. -/
inductive CombAct (V : Type) where
  | poll (cx : ℕ)
  | tick
  | ret (ans : Answer V)
  | env (a : FlagWakers.Act)

namespace CombAct

/-- The step of a join. -/
def toJoin : CombAct V → Option (JoinAct V)
  | poll cx => some (.poll cx)
  | tick => some .tick
  | ret (.future out) => some (.ret out)
  | ret (.stream _) => none
  | env a => some (.env a)

/-- The step of a merge of futures. -/
def toFutures : CombAct V → Option (MergeAct V)
  | poll cx => some (.poll cx)
  | tick => some .tick
  | ret (.future out) => some (.ret out)
  | ret (.stream _) => none
  | env a => some (.env a)

/-- The step of a merge of streams. -/
def toStreams : CombAct V → Option (MergeAct (Option V))
  | poll cx => some (.poll cx)
  | tick => some .tick
  | ret (.future _) => none
  | ret (.stream out) => some (.ret out)
  | env a => some (.env a)

/-- The move of a step. -/
def move : CombAct V → CombView.Move
  | poll cx => .poll cx
  | tick => .tick
  | ret ans => .ret ans.isPending
  | env a => .env a

variable {a : CombAct V}

theorem move_of_toJoin {b : JoinAct V} (h : a.toJoin = some b) : a.move = Join.move b := by
  rcases a with cx | - | (out | out) | e
  case ret.stream => cases h
  all_goals
    obtain rfl := Option.some.inj h
    rfl

theorem move_of_toFutures {b : MergeAct V} (h : a.toFutures = some b) : a.move = Merge.move b := by
  rcases a with cx | - | (out | out) | e
  case ret.stream => cases h
  all_goals
    obtain rfl := Option.some.inj h
    rfl

theorem move_of_toStreams {b : MergeAct (Option V)} (h : a.toStreams = some b) :
    a.move = Merge.move b := by
  rcases a with cx | - | (out | out) | e
  case ret.future => cases h
  all_goals
    obtain rfl := Option.some.inj h
    rfl

theorem eq_poll_of_move {cx : ℕ} (h : a.move = .poll cx) : a = .poll cx := by
  cases a with
  | poll cx' => rw [CombView.Move.poll.inj h]
  | tick => cases h
  | ret ans => cases h
  | env e => cases h

theorem eq_tick_of_move (h : a.move = .tick) : a = .tick := by
  cases a with
  | poll cx => cases h
  | tick => rfl
  | ret ans => cases h
  | env e => cases h

theorem exists_ret_of_move {b : Bool} (h : a.move = .ret b) :
    ∃ ans, a = .ret ans ∧ ans.isPending = b := by
  cases a with
  | poll cx => cases h
  | tick => cases h
  | ret ans => exact ⟨ans, rfl, CombView.Move.ret.inj h⟩
  | env e => cases h

theorem eq_env_of_move {e : FlagWakers.Act} (h : a.move = .env e) : a = .env e := by
  cases a with
  | poll cx => cases h
  | tick => cases h
  | ret ans => cases h
  | env e' => rw [CombView.Move.env.inj h]

end CombAct

namespace Comb

/-- A combinator of `n` inner futures that has not been polled. -/
def new (n : ℕ) : CombKind → Comb V
  | .join => join (.new n)
  | .mergeFutures => mergeFutures (.new n)
  | .mergeStreams => mergeStreams (.new n)

/-- A combinator as far as wakers go. -/
def view : Comb V → CombView
  | join m => m.view
  | mergeFutures m | mergeStreams m => m.view

/-- The inner future has been woken since its latest poll began. -/
def WokenSince (i : ℕ) : Comb V → Prop
  | join m => m.log.WokenSince i
  | mergeFutures m | mergeStreams m => m.log.WokenSince i

/-- The inner future has given its last answer. -/
def Finished (i : ℕ) : Comb V → Prop
  | join m => Join.Finished i m.log
  | mergeFutures m => m.log.Finished (MergeKind.futures V).noneFn i
  | mergeStreams m => m.log.Finished (MergeKind.streams V).noneFn i

/-- The step of a combinator. -/
def step : Comb V → CombAct V → Option (Comb V)
  | join m, a => (a.toJoin.bind m.step).map join
  | mergeFutures m, a => (a.toFutures.bind (m.step (.futures V))).map mergeFutures
  | mergeStreams m, a => (a.toStreams.bind (m.step (.streams V))).map mergeStreams

/-- The invariants of a combinator on its own. -/
def Good (n : ℕ) : Comb V → Prop
  | join m => Join.Inv n m ∧ Join.Tending m
  | mergeFutures m => Merge.Inv (.futures V) n m ∧ Merge.Tending (.futures V) m
  | mergeStreams m => Merge.Inv (.streams V) n m ∧ Merge.Tending (.streams V) m

variable {n : ℕ} {c c' : Comb V} {a : CombAct V} {i : ℕ}

theorem Good.new (hn : 0 < n) (kind : CombKind) : Good n (Comb.new n kind : Comb V) := by
  rcases kind with - | - | -
  · exact ⟨.new, .new⟩
  · exact ⟨.new hn, .new⟩
  · exact ⟨.new hn, .new⟩

/-- **A step of a combinator** keeps its invariants, and does to its wakers what its move says. -/
theorem Good.step (h : Good n c) (hstep : c.step a = some c') :
    Good n c' ∧ c.view.Effect a.move c'.view := by
  rcases c with m | m | m
  · obtain ⟨m', hm', rfl⟩ := Option.map_eq_some_iff.1 hstep
    obtain ⟨b, hb, hm'⟩ := Option.bind_eq_some_iff.1 hm'
    rw [CombAct.move_of_toJoin hb]
    exact ⟨⟨h.1.step hm', h.2.step h.1 hm'⟩, Join.effect_of_step hm'⟩
  · obtain ⟨m', hm', rfl⟩ := Option.map_eq_some_iff.1 hstep
    obtain ⟨b, hb, hm'⟩ := Option.bind_eq_some_iff.1 hm'
    rw [CombAct.move_of_toFutures hb]
    exact ⟨⟨h.1.step hm', h.2.step h.1 hm'⟩, Merge.effect_of_step (fun _ ↦ Or.inl rfl) h.1 hm'⟩
  · obtain ⟨m', hm', rfl⟩ := Option.map_eq_some_iff.1 hstep
    obtain ⟨b, hb, hm'⟩ := Option.bind_eq_some_iff.1 hm'
    rw [CombAct.move_of_toStreams hb]
    refine ⟨⟨h.1.step hm', h.2.step h.1 hm'⟩, Merge.effect_of_step (fun out ↦ ?_) h.1 hm'⟩
    rcases out with - | val
    · exact Or.inl rfl
    · exact Or.inr rfl

theorem Good.heard (h : Good n c) (hpending : c.view.isPending = true)
    (halive : c.view.alive i = true) (hflag : c.view.wakers.isAwoken i = true) :
    c.view.wakers.Heard := by
  rcases c with m | m | m
  all_goals
    have hpc : m.pc = .idle (some .pending) := by
      simp only [view, Join.view, Merge.view] at hpending
      split at hpending
      next hpc => exact hpc
      next => cases hpending
    exact h.2.tended.heard i ⟨halive, by rw [hpc]; trivial⟩ hflag

/-- The flag of what has been woken is set. -/
theorem Good.noted (h : Good n c) (hi : i < n) (hunfin : ¬ c.Finished i) (hwoken : c.WokenSince i) :
    c.view.alive i = true ∧ c.view.wakers.isAwoken i = true := by
  rcases c with m | m | m
  · exact ⟨(h.1.1.isFut_iff i hi).2 hunfin,
      h.2.tended.since i (h.1.1.length_awoken.symm ▸ hi) hwoken⟩
  · exact ⟨(h.1.1.alive_iff i hi).2 hunfin,
      h.2.tended.since i (h.1.1.length_awoken.symm ▸ hi) hwoken⟩
  · exact ⟨(h.1.1.alive_iff i hi).2 hunfin,
      h.2.tended.since i (h.1.1.length_awoken.symm ▸ hi) hwoken⟩

/-- Nothing is being polled by a call that has returned. -/
theorem polling_eq_none (hpending : c.view.isPending = true) : c.view.polling = none := by
  rcases c with m | m | m
  all_goals
    simp only [view, Join.view, Merge.view] at hpending ⊢
    split at hpending
    next hpc => rw [hpc]
    next => cases hpending

theorem Good.length_awoken (h : Good n c) : c.view.wakers.awoken.length = n := by
  rcases c with m | m | m
  · exact h.1.1.length_awoken
  · exact h.1.1.length_awoken
  · exact h.1.1.length_awoken

end Comb

end LocalRuntime
