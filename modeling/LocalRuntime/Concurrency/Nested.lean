import LocalRuntime.Concurrency.Combinator

/-!
# Combinators in combinators

An inner future of a combinator may await another combinator: `join!` and the merges of
`src/concurrency.rs` are futures and streams themselves. The combinator inside is then polled with
the waker of the inner future that awaits it, so that its base waker holds a flag waker of the one
outside, and a wake climbs from flag to flag until it comes to the waker of the task.

A `Forest` is any number of combinators at any depth. Each of them is a `Join` or a `Merge` of its
own, step for step; what ties them together is whom a wake reaches. Taking a waker out of a base
waker and invoking it are two steps (`calls` are the wakers between the two), and a combinator is
polled with the waker of an inner future only while that inner future is being polled.

What the inner futures do is up to them, except that they await what they wait for (`Awaits`): one
that answers pending has polled the combinators that wait with its waker. `Linked` says what a
combinator may then rely on, and by induction along the way out a wake is not lost at any depth
(`nested_lose_no_wakeup`).
-/

namespace LocalRuntime

variable {V : Type}

/-- The waker of an inner future of a combinator. The wakers of tasks are even. -/
def innerWaker (q i : ℕ) : ℕ := 2 * Nat.pair q i + 1

/-- The combinator and the inner future that a waker belongs to. -/
def owner (w : ℕ) : Option (ℕ × ℕ) := if w % 2 = 1 then some (w / 2).unpair else none

@[simp] theorem owner_innerWaker (q i : ℕ) : owner (innerWaker q i) = some (q, i) := by
  have hmod : innerWaker q i % 2 = 1 := by rw [innerWaker]; omega
  have hdiv : innerWaker q i / 2 = Nat.pair q i := by rw [innerWaker]; omega
  rw [owner, if_pos hmod, hdiv, Nat.unpair_pair]

theorem innerWaker_inj {q q' i i' : ℕ} (h : innerWaker q i = innerWaker q' i') :
    q = q' ∧ i = i' := by
  have howner := congrArg owner h
  rw [owner_innerWaker, owner_innerWaker, Option.some.injEq, Prod.mk.injEq] at howner
  exact howner

theorem eq_innerWaker_of_owner {w q i : ℕ} (h : owner w = some (q, i)) : w = innerWaker q i := by
  rw [owner, Option.ite_none_right_eq_some, Option.some.injEq] at h
  obtain ⟨hmod, hpair⟩ := h
  have hunpair := Nat.pair_unpair (w / 2)
  rw [hpair] at hunpair
  show w = 2 * Nat.pair q i + 1
  dsimp only at hunpair
  omega

/-- A combinator and what has become of it. -/
structure Node (V : Type) where
  comb : Comb V
  dropped : Bool
  /-- The inner future that awaits it has been polled again since its own latest call began. -/
  stale : Bool

namespace Node

/-- The node after a step of its combinator. -/
def after (y : Node V) (a : CombAct V) (c : Comb V) : Node V where
  comb := c
  dropped := y.dropped
  stale :=
    match a with
    | .poll _ => false
    | _ => y.stale

/-- What a step takes out of the base waker. -/
def taken (y : Node V) : CombAct V → List ℕ
  | .env .fire => y.comb.view.wakers.baseWaker.slot.toList
  | _ => []

/-- What waits with this waker has not been polled yet. -/
def mark (w : Option ℕ) (y : Node V) : Node V :=
  { y with stale := y.stale || (w.isSome && y.comb.view.registered == w) }

/-- A call is under way, or the latest one has returned pending. -/
def Live (y : Node V) : Prop := y.comb.view.inCall = true ∨ y.comb.view.isPending = true

end Node

/-- The combinators that have been made, and the wakers that have been taken out of a base waker and
not been invoked yet. A dropped combinator can still be woken, and wakes the waker of its latest
call. -/
structure Forest (V : Type) where
  nodes : ℕ → Option (Node V)
  calls : List ℕ

/-- What happens: a combinator is made, dropped, polled with a waker, goes on with its loop, takes
an answer of the inner future that is being polled; somebody wakes an inner future, and a wake goes
on, by waking the base waker and by invoking what was in it. -/
inductive ForestAct (V : Type) where
  | create (p n : ℕ) (kind : CombKind)
  | drop (p : ℕ)
  | poll (p cx : ℕ)
  | tick (p : ℕ)
  | ret (p : ℕ) (ans : Answer V)
  | wake (p i : ℕ)
  | fire (p : ℕ)
  | deliver (w : ℕ)

namespace Forest

/-- There are no combinators yet. -/
def init : Forest V := ⟨fun _ ↦ none, []⟩

/-- A combinator as far as wakers go. -/
def view (s : Forest V) (p : ℕ) : Option CombView := (s.nodes p).map fun y ↦ y.comb.view

/-- The waker may be used in a poll: an inner waker only while its inner future is being polled. -/
def lends (s : Forest V) (cx : ℕ) : Bool :=
  match owner cx with
  | none => true
  | some (q, i) => (s.view q).any fun v ↦ v.polling = some i

/-- The waker of the inner future whose poll has begun in this step. -/
def started (p : ℕ) : CombAct V → Comb V → Option ℕ
  | .tick, c => c.view.polling.map (innerWaker p)
  | _, _ => none

/-- A step of one of the combinators. -/
def act (s : Forest V) (p : ℕ) (a : CombAct V) : Option (Forest V) :=
  (s.nodes p).bind fun y ↦ (y.comb.step a).map fun c ↦
    { nodes := fun j ↦
        (Function.update s.nodes p (some (y.after a c)) j).map (Node.mark (started p a c))
      calls := y.taken a ++ s.calls }

/-- A combinator that is not being polled is made or replaced. -/
def put (s : Forest V) (p : ℕ) (y : Node V) : Forest V :=
  { s with nodes := Function.update s.nodes p (some y) }

/-- The effect of an action. -/
def step (s : Forest V) : ForestAct V → Option (Forest V)
  | .create p n kind =>
    if 0 < n ∧ (s.nodes p).isNone then some (s.put p ⟨.new n kind, false, false⟩) else none
  | .drop p =>
    (s.nodes p).bind fun y ↦
      if y.comb.view.inCall then none else some (s.put p { y with dropped := true })
  | .poll p cx =>
    if s.lends cx ∧ (s.nodes p).any (!·.dropped) then s.act p (.poll cx) else none
  | .tick p => s.act p .tick
  | .ret p ans => s.act p (.ret ans)
  | .wake p i => s.act p (.env (.wake i))
  | .fire p => s.act p (.env .fire)
  | .deliver w =>
    if w ∈ s.calls then
      match owner w with
      | none => some { s with calls := s.calls.erase w }
      | some (q, i) => (s.act q (.env (.wake i))).map fun t ↦ { t with calls := t.calls.erase w }
    else none

/-- The machine of combinators in combinators. -/
def machine (V : Type) : Machine (Forest V) (ForestAct V) := ⟨step⟩

/-- The inner futures **await** what they wait for. When one of them answers, no combinator that is
polled with its waker is in the middle of a call; and if the answer is pending, those that are
pending have been polled by it, unless it has dropped them. -/
def Awaits (s : Forest V) : ForestAct V → Prop
  | .ret q ans => ∀ v i p y, s.view q = some v → v.polling = some i → s.nodes p = some y →
      y.dropped = false → y.comb.view.registered = some (innerWaker q i) →
      y.comb.view.inCall = false ∧
        (ans.isPending = true → y.comb.view.isPending = true → y.stale = false)
  | _ => True

/-- The flag of an inner future is set. -/
def IsAwoken (s : Forest V) (q i : ℕ) : Prop := ∃ v, s.view q = some v ∧ v.wakers.isAwoken i = true

/-- An inner future is being polled. -/
def Polling (s : Forest V) (q i : ℕ) : Prop := ∃ v, s.view q = some v ∧ v.polling = some i

/-- An inner future has not given its last answer. -/
def Alive (s : Forest V) (q i : ℕ) : Prop := ∃ v, s.view q = some v ∧ v.alive i = true

/-- What a combinator may rely on that is polled with the waker of an inner future `i` of `q`. -/
structure Linked (s : Forest V) (y : Node V) (q i : ℕ) : Prop where
  outer : ∃ v, s.view q = some v
  /-- The inner future is being polled as long as the combinator is. -/
  polling : y.comb.view.inCall = true → s.Polling q i
  /-- Once the waker has been taken out of the base waker, it is about to be invoked, or its flag is
  set, or the inner future has been polled since. -/
  woken : y.Live → y.comb.view.wakers.baseWaker.Woken →
    innerWaker q i ∈ s.calls ∨ s.IsAwoken q i ∨ y.stale = true
  /-- As long as it has not polled the combinator again, it is still being polled, or will be. -/
  stale : y.Live → y.stale = true → s.IsAwoken q i ∨ s.Polling q i ∨ ¬ s.Alive q i

/-- The invariant of combinators in combinators. -/
structure Inv (s : Forest V) : Prop where
  good : ∀ p y, s.nodes p = some y → ∃ n, y.comb.Good n
  linked : ∀ p y q i, s.nodes p = some y → y.dropped = false →
    y.comb.view.registered = some (innerWaker q i) → Linked s y q i

section Acts

variable {s t : Forest V} {x p q i : ℕ} {a : CombAct V} {y y₀ y₁ : Node V} {c : Comb V}

/-- A step of one of the combinators, taken apart. -/
structure Acts (s : Forest V) (x : ℕ) (a : CombAct V) (t : Forest V) (y : Node V) (c : Comb V) :
    Prop where
  node : s.nodes x = some y
  good : ∃ n, c.Good n
  effect : y.comb.view.Effect a.move c.view
  eq : t = { nodes := fun j ↦ (Function.update s.nodes x (some (y.after a c)) j).map
               (Node.mark (started x a c))
             calls := y.taken a ++ s.calls }

theorem Inv.acts (h : Inv s) (hact : s.act x a = some t) : ∃ y c, Acts s x a t y c := by
  obtain ⟨y, hy, hact⟩ := Option.bind_eq_some_iff.1 hact
  obtain ⟨c, hc, rfl⟩ := Option.map_eq_some_iff.1 hact
  obtain ⟨n, hgood⟩ := h.good x y hy
  obtain ⟨hgood, heffect⟩ := hgood.step hc
  exact ⟨y, c, hy, ⟨n, hgood⟩, heffect, rfl⟩

namespace Acts

theorem view_self (h : Acts s x a t y c) : t.view x = some c.view := by
  rw [h.eq, view]
  simp [Node.after, Node.mark]

theorem view_of_ne (h : Acts s x a t y c) (hne : q ≠ x) : t.view q = s.view q := by
  rw [h.eq, view, view]
  simp only [Function.update_of_ne hne, Option.map_map]
  rfl

theorem view_before (h : Acts s x a t y c) : s.view x = some y.comb.view := by
  rw [view, h.node]
  rfl

/-- The waker of the inner future whose poll has begun. -/
theorem started_eq (hstart : started x a c = some (innerWaker q i)) :
    q = x ∧ c.view.polling = some i := by
  rcases a with cx | - | ans | e
  case tick =>
    obtain ⟨j, hj, heq⟩ := Option.map_eq_some_iff.1 hstart
    obtain ⟨rfl, rfl⟩ := innerWaker_inj heq
    exact ⟨rfl, hj⟩
  all_goals cases hstart

theorem polling_of_started (h : Acts s x a t y c) (hstart : started x a c = some (innerWaker q i)) :
    t.Polling q i := by
  obtain ⟨rfl, hpolling⟩ := started_eq hstart
  exact ⟨c.view, h.view_self, hpolling⟩

theorem outer (h : Acts s x a t y c) (hq : ∃ v, s.view q = some v) : ∃ v, t.view q = some v := by
  rcases eq_or_ne q x with rfl | hne
  · exact ⟨c.view, h.view_self⟩
  · rw [h.view_of_ne hne]
    exact hq

/-- A flag is cleared only by the poll of its inner future. -/
theorem isAwoken (h : Acts s x a t y c) (hi : s.IsAwoken q i) :
    t.IsAwoken q i ∨ started x a c = some (innerWaker q i) := by
  obtain ⟨v, hv, hflag⟩ := hi
  rcases eq_or_ne q x with rfl | hne
  · obtain rfl := Option.some.inj (hv.symm.trans h.view_before)
    refine (h.effect.awoken hflag).imp (fun hflag' ↦ ⟨c.view, h.view_self, hflag'⟩) ?_
    rintro ⟨hmove, hpolling⟩
    rw [CombAct.eq_tick_of_move hmove]
    exact Option.map_eq_some_iff.2 ⟨i, hpolling, rfl⟩
  · exact Or.inl ⟨v, (h.view_of_ne hne).trans hv, hflag⟩

theorem alive (h : Acts s x a t y c) (hi : t.Alive q i) : s.Alive q i := by
  obtain ⟨v, hv, hlive⟩ := hi
  rcases eq_or_ne q x with rfl | hne
  · obtain rfl := Option.some.inj (hv.symm.trans h.view_self)
    exact ⟨y.comb.view, h.view_before, h.effect.alive hlive⟩
  · exact ⟨v, (h.view_of_ne hne).symm.trans hv, hlive⟩

/-- The poll of an inner future ends with its answer. -/
theorem polling (h : Acts s x a t y c) (hi : s.Polling q i) : t.Polling q i ∨
    q = x ∧ ∃ ans, a = .ret ans ∧ (ans.isPending = false → t.Alive q i → t.IsAwoken q i) := by
  obtain ⟨v, hv, hpolling⟩ := hi
  rcases eq_or_ne q x with rfl | hne
  · obtain rfl := Option.some.inj (hv.symm.trans h.view_before)
    rcases h.effect.polling hpolling with hgoes | hmove | ⟨hmove, hlast⟩
    · exact Or.inl ⟨c.view, h.view_self, hgoes⟩
    · obtain ⟨ans, rfl, hans⟩ := CombAct.exists_ret_of_move hmove
      exact Or.inr ⟨rfl, ans, rfl, fun hready ↦ absurd hready (by simp [hans])⟩
    · obtain ⟨ans, rfl, -⟩ := CombAct.exists_ret_of_move hmove
      refine Or.inr ⟨rfl, ans, rfl, fun _ ⟨w, hw, hlive⟩ ↦ ?_⟩
      obtain rfl := Option.some.inj (hw.symm.trans h.view_self)
      exact ⟨c.view, h.view_self, hlast hlive⟩
  · exact Or.inl ⟨v, (h.view_of_ne hne).trans hv, hpolling⟩

theorem calls_subset (h : Acts s x a t y c) {w : ℕ} (hw : w ∈ s.calls) : w ∈ t.calls := by
  rw [h.eq]
  exact List.mem_append_right _ hw

/-- What stays of a combinator that is not polled in this step. -/
structure Follows (t : Forest V) (w : Option ℕ) (y₀ y₁ : Node V) : Prop where
  dropped : y₁.dropped = y₀.dropped
  registered : y₁.comb.view.registered = y₀.comb.view.registered
  inCall : y₁.comb.view.inCall = true → y₀.comb.view.inCall = true
  live : y₁.Live → y₀.Live
  woken : y₁.comb.view.wakers.baseWaker.Woken → y₀.comb.view.wakers.baseWaker.Woken ∨
    ∀ cx, y₀.comb.view.registered = some cx → cx ∈ t.calls
  stale : y₁.stale = true ↔ y₀.stale = true ∨ ∃ cx, w = some cx ∧ y₀.comb.view.registered = some cx

theorem stale_mark {w : Option ℕ} : (Node.mark w y).stale = true ↔
    y.stale = true ∨ ∃ cx, w = some cx ∧ y.comb.view.registered = some cx := by
  rw [Node.mark]
  rcases w with - | cx
  · simp
  · simp

theorem follows (h : Acts s x a t y c) (hp : t.nodes p = some y₁) (hhear : ∀ w, a ≠ .env (.hear w))
    (hpoll : p = x → ∀ cx, a ≠ .poll cx) :
    ∃ y₀, s.nodes p = some y₀ ∧ Follows t (started x a c) y₀ y₁ := by
  have hnodes := hp
  rw [h.eq] at hnodes
  obtain ⟨y', hy', rfl⟩ := Option.map_eq_some_iff.1 hnodes
  rcases eq_or_ne p x with rfl | hne
  · have hpoll' (cx : ℕ) : a ≠ .poll cx := hpoll rfl cx
    rw [Function.update_self] at hy'
    obtain rfl := Option.some.inj hy'
    have hkeeps : CombView.Effect.Keeps y.comb.view a.move c.view :=
      h.effect.keeps (fun cx hmove ↦ hpoll' cx (CombAct.eq_poll_of_move hmove))
        fun w hmove ↦ hhear w (CombAct.eq_env_of_move hmove)
    have hstale : (y.after a c).stale = y.stale := by
      rcases a with cx' | - | ans | e
      case poll => exact absurd rfl (hpoll' cx')
      all_goals rfl
    refine ⟨y, h.node, rfl, hkeeps.registered, hkeeps.inCall, hkeeps.live, fun hw ↦ ?_, ?_⟩
    · refine (hkeeps.woken hw).imp_right fun ⟨hmove, hslot⟩ cx hcx ↦ ?_
      obtain rfl := CombAct.eq_env_of_move hmove
      rw [h.eq]
      refine List.mem_append_left _ ?_
      rw [Node.taken, hslot, hcx]
      exact List.mem_singleton_self cx
    · rw [stale_mark, hstale]
      have hreg : (y.after a c).comb.view.registered = y.comb.view.registered := hkeeps.registered
      rw [hreg]
  · rw [Function.update_of_ne hne] at hy'
    exact ⟨y', hy', rfl, rfl, id, id, Or.inl, stale_mark⟩

end Acts

/-- **A link is kept** by a step of any combinator: the one inside, the one outside, or another
one. -/
theorem Linked.acts (hlinked : Linked s y₀ q i) (h : Acts s x a t y c)
    (hfollows : Acts.Follows t (started x a c) y₀ y₁)
    (hreg : y₀.comb.view.registered = some (innerWaker q i))
    (hawaits : ∀ ans, a = .ret ans → q = x → s.Polling q i → y₀.comb.view.inCall = false ∧
      (ans.isPending = true → y₀.comb.view.isPending = true → y₀.stale = false)) :
    Linked t y₁ q i := by
  have hmarked (hstart : started x a c = some (innerWaker q i)) : y₁.stale = true :=
    hfollows.stale.2 (Or.inr ⟨_, hstart, hreg⟩)
  refine ⟨h.outer hlinked.outer, fun hin ↦ ?_, fun hlive hwoken ↦ ?_, fun hlive hstale ↦ ?_⟩
  · have hin₀ := hfollows.inCall hin
    refine (h.polling (hlinked.polling hin₀)).resolve_right ?_
    rintro ⟨rfl, ans, hans, -⟩
    exact absurd hin₀ (by simp [(hawaits ans hans rfl (hlinked.polling hin₀)).1])
  · rcases hfollows.woken hwoken with hwoken₀ | hcalls
    · rcases hlinked.woken (hfollows.live hlive) hwoken₀ with hcall | hflag | hstale
      · exact Or.inl (h.calls_subset hcall)
      · exact Or.inr ((h.isAwoken hflag).imp_right hmarked)
      · exact Or.inr (Or.inr (hfollows.stale.2 (Or.inl hstale)))
    · exact Or.inl (hcalls _ hreg)
  · rcases hfollows.stale.1 hstale with hstale₀ | ⟨cx, hstart, hcx⟩
    · rcases hlinked.stale (hfollows.live hlive) hstale₀ with hflag | hpolling | hdead
      · exact (h.isAwoken hflag).imp_right fun hstart ↦ Or.inl (h.polling_of_started hstart)
      · rcases h.polling hpolling with hpolling' | ⟨hx, ans, hans, hready⟩
        · exact Or.inr (Or.inl hpolling')
        · obtain ⟨hcall, hfresh⟩ := hawaits ans hans hx hpolling
          -- a pending answer comes after the combinator has been polled again
          rcases hpend : ans.isPending with - | -
          · by_cases halive : t.Alive q i
            · exact Or.inl (hready hpend halive)
            · exact Or.inr (Or.inr halive)
          · have hpending := (hfollows.live hlive).resolve_left (by simp [hcall])
            exact absurd hstale₀ (by simp [hfresh hpend hpending])
      · exact Or.inr (Or.inr fun halive ↦ hdead (h.alive halive))
    · obtain rfl := Option.some.inj (hreg.symm.trans hcx)
      exact Or.inr (Or.inl (h.polling_of_started hstart))

theorem polling_of_lends (h : s.lends (innerWaker q i) = true) : s.Polling q i := by
  rw [lends, owner_innerWaker] at h
  obtain ⟨v, hv, hpolling⟩ := (Option.any_eq_true _ _).1 h
  exact ⟨v, hv, of_decide_eq_true hpolling⟩

/-- **A step of one of the combinators** keeps the invariant. -/
theorem Inv.act (h : Inv s) (hact : s.act x a = some t) (hhear : ∀ w, a ≠ .env (.hear w))
    (hlends : ∀ cx, a = .poll cx → s.lends cx = true)
    (hawaits : ∀ ans, a = .ret ans → s.Awaits (.ret x ans)) : Inv t := by
  obtain ⟨y, c, hacts⟩ := h.acts hact
  refine ⟨fun p y₁ hp ↦ ?_, fun p y₁ q i hp hdropped hreg ↦ ?_⟩
  · have hnodes := hp
    rw [hacts.eq] at hnodes
    obtain ⟨y', hy', rfl⟩ := Option.map_eq_some_iff.1 hnodes
    rcases eq_or_ne p x with rfl | hne
    · rw [Function.update_self] at hy'
      obtain rfl := Option.some.inj hy'
      exact hacts.good
    · rw [Function.update_of_ne hne] at hy'
      exact h.good p y' hy'
  · by_cases hpoll : p = x ∧ ∃ cx, a = .poll cx
    · -- a call has begun, in the middle of the poll of the inner future
      obtain ⟨rfl, cx, rfl⟩ := hpoll
      rw [hacts.eq] at hp
      obtain ⟨y', hy', rfl⟩ := Option.map_eq_some_iff.1 hp
      rw [Function.update_self] at hy'
      obtain rfl := Option.some.inj hy'
      obtain ⟨hidle, hregister⟩ : y.comb.view.polling = none ∧
          c.view.wakers = y.comb.view.wakers.register cx := by
        cases hacts.effect with
        | begin hcall hpolling hwakers => exact ⟨hpolling, hwakers⟩
      have hcx : c.view.registered = some cx := by rw [CombView.registered, hregister]; rfl
      obtain rfl := Option.some.inj (hcx.symm.trans hreg)
      have hpolling : s.Polling q i := polling_of_lends (hlends _ rfl)
      have hne : q ≠ p := by
        rintro rfl
        obtain ⟨v, hv, hpolling⟩ := hpolling
        obtain rfl := Option.some.inj (hv.symm.trans hacts.view_before)
        rw [hidle] at hpolling
        cases hpolling
      have hpolling' : t.Polling q i := (hacts.polling hpolling).resolve_right fun h ↦ hne h.1
      refine ⟨hpolling'.imp fun _ h ↦ h.1, fun _ ↦ hpolling', fun _ hwoken ↦ ?_,
        fun _ _ ↦ Or.inr (Or.inl hpolling')⟩
      obtain ⟨w, -, hw⟩ : c.view.wakers.baseWaker.Woken := hwoken
      rw [hregister] at hw
      exact absurd hw List.not_mem_nil
    · have hpoll' (hpx : p = x) (cx : ℕ) (ha : a = .poll cx) : False := hpoll ⟨hpx, cx, ha⟩
      obtain ⟨y₀, hy₀, hfollows⟩ := hacts.follows hp hhear hpoll'
      rw [hfollows.dropped] at hdropped
      rw [hfollows.registered] at hreg
      refine (h.linked p y₀ q i hy₀ hdropped hreg).acts hacts hfollows hreg ?_
      rintro ans hans rfl ⟨v, hv, hpolling⟩
      exact hawaits ans hans v i p y₀ hv hpolling hy₀ hdropped hreg

/-- The wake of an inner future has set its flag. -/
theorem isAwoken_of_act (h : Inv s) (hact : s.act q (.env (.wake i)) = some t) :
    t.IsAwoken q i := by
  obtain ⟨y, c, hacts⟩ := h.acts hact
  refine ⟨c.view, hacts.view_self, ?_⟩
  cases hacts.effect with
  | env hwake => rw [(FlagWakers.act_eq_some hwake).2.2 i, decide_eq_true rfl, Bool.true_or]

theorem Inv.init : Inv (init : Forest V) :=
  ⟨fun _ _ hp ↦ absurd hp (by simp [Forest.init]),
    fun _ _ _ _ hp ↦ absurd hp (by simp [Forest.init])⟩

/-- Where the combinator outside is the same, and a call that is gone has set its flag. -/
theorem Linked.of_same (h : Linked s y q i) (hview : t.view q = s.view q)
    (hcalls : innerWaker q i ∈ s.calls → innerWaker q i ∈ t.calls ∨ t.IsAwoken q i) :
    Linked t y q i := by
  have hawoken (hflag : s.IsAwoken q i) : t.IsAwoken q i := by rwa [IsAwoken, hview]
  have hpolling (hpoll : s.Polling q i) : t.Polling q i := by rwa [Polling, hview]
  refine ⟨hview ▸ h.outer, fun hin ↦ hpolling (h.polling hin), fun hlive hwoken ↦ ?_,
    fun hlive hstale ↦ ?_⟩
  · rcases h.woken hlive hwoken with hcall | hflag | hstale
    · exact (hcalls hcall).imp_right Or.inl
    · exact Or.inr (Or.inl (hawoken hflag))
    · exact Or.inr (Or.inr hstale)
  · refine (h.stale hlive hstale).imp hawoken (Or.imp hpolling fun hdead ↦ ?_)
    rwa [Alive, hview]

theorem nodes_put (s : Forest V) (p : ℕ) (y : Node V) (p' : ℕ) :
    (s.put p y).nodes p' = if p' = p then some y else s.nodes p' :=
  Function.update_apply _ _ _ _

/-- A combinator that is made has not been polled yet, and one that is dropped will not be. -/
theorem Inv.put (h : Inv s) (hgood : ∃ n, y.comb.Good n)
    (hview : ∀ v, s.view p = some v → y.comb.view = v)
    (hown : y.dropped = true ∨ y.comb.view.registered = none) : Inv (s.put p y) := by
  have hnodes {p' : ℕ} {y' : Node V} (hp : (s.put p y).nodes p' = some y') :
      p' = p ∧ y' = y ∨ s.nodes p' = some y' := by
    rw [nodes_put] at hp
    split at hp
    next heq => exact Or.inl ⟨heq, (Option.some.inj hp).symm⟩
    next => exact Or.inr hp
  refine ⟨fun p' y' hp ↦ ?_, fun p' y' q i hp hdropped hreg ↦ ?_⟩
  · rcases hnodes hp with ⟨rfl, rfl⟩ | hp
    · exact hgood
    · exact h.good p' y' hp
  · rcases hnodes hp with ⟨rfl, rfl⟩ | hp
    · rcases hown with hdrop | hnone
      · rw [hdrop] at hdropped
        cases hdropped
      · rw [hnone] at hreg
        cases hreg
    · have hlinked := h.linked p' y' q i hp hdropped hreg
      refine hlinked.of_same ?_ Or.inl
      obtain ⟨v, hv⟩ := hlinked.outer
      rcases eq_or_ne q p with rfl | hne
      · rw [hv, view, nodes_put, if_pos rfl, Option.map_some, hview v hv]
      · rw [view, nodes_put, if_neg hne, view]

/-- **Every step keeps the invariant**, if the inner futures await what they wait for. -/
theorem Inv.step {a : ForestAct V} (h : Inv s) (hawaits : s.Awaits a) (hstep : s.step a = some t) :
    Inv t := by
  cases a with
  | create p n kind =>
    rw [Forest.step, Option.ite_none_right_eq_some] at hstep
    obtain ⟨⟨hn, hfree⟩, heq⟩ := hstep
    obtain rfl := Option.some.inj heq
    refine h.put ⟨n, .new hn kind⟩ (fun v hv ↦ ?_) (Or.inr ?_)
    · rw [view, Option.isNone_iff_eq_none.1 hfree] at hv
      cases hv
    · rcases kind with - | - | -
      all_goals rfl
  | drop p =>
    obtain ⟨y, hy, hstep⟩ := Option.bind_eq_some_iff.1 hstep
    rw [Option.ite_none_left_eq_some] at hstep
    obtain ⟨-, heq⟩ := hstep
    obtain rfl := Option.some.inj heq
    refine h.put (h.good p y hy) (fun v hv ↦ ?_) (Or.inl rfl)
    rw [view, hy] at hv
    exact Option.some.inj hv
  | poll p cx =>
    rw [Forest.step, Option.ite_none_right_eq_some] at hstep
    obtain ⟨⟨hlends, -⟩, hact⟩ := hstep
    refine h.act hact (by simp) (fun cx' heq ↦ ?_) (by simp)
    obtain rfl := CombAct.poll.inj heq
    exact hlends
  | tick p => exact h.act hstep (by simp) (by simp) (by simp)
  | ret p ans =>
    refine h.act hstep (by simp) (by simp) fun ans' heq ↦ ?_
    obtain rfl := CombAct.ret.inj heq
    exact hawaits
  | wake p i => exact h.act hstep (by simp) (by simp) (by simp)
  | fire p => exact h.act hstep (by simp) (by simp) (by simp)
  | deliver w =>
    rw [Forest.step, Option.ite_none_right_eq_some] at hstep
    obtain ⟨-, hstep⟩ := hstep
    split at hstep
    next hnone =>
      obtain rfl := Option.some.inj hstep
      refine ⟨h.good, fun p y q i hp hdropped hreg ↦ ?_⟩
      refine (h.linked p y q i hp hdropped hreg).of_same rfl fun hcall ↦ Or.inl ?_
      refine (List.mem_erase_of_ne ?_).2 hcall
      rintro rfl
      rw [owner_innerWaker] at hnone
      cases hnone
    next q' i' howner =>
      obtain rfl := eq_innerWaker_of_owner howner
      obtain ⟨u, hact, rfl⟩ := Option.map_eq_some_iff.1 hstep
      have hu : Inv u := h.act hact (by simp) (by simp) (by simp)
      have hflag : u.IsAwoken q' i' := isAwoken_of_act h hact
      refine ⟨hu.good, fun p y q i hp hdropped hreg ↦ ?_⟩
      refine (hu.linked p y q i hp hdropped hreg).of_same rfl fun hcall ↦ ?_
      -- the waker that is invoked has set its flag, the others are still to be invoked
      by_cases heq : innerWaker q i = innerWaker q' i'
      · obtain ⟨rfl, rfl⟩ := innerWaker_inj heq
        exact Or.inr hflag
      · exact Or.inl ((List.mem_erase_of_ne heq).2 hcall)

end Acts

/-! ### The way out -/

/-- A combinator that has not been dropped and whose latest call has returned pending. -/
def Pending (s : Forest V) (p : ℕ) : Prop :=
  ∃ y, s.nodes p = some y ∧ y.dropped = false ∧ y.comb.view.isPending = true

/-- The waker of the latest call of `p` is that of an inner future `i` of `q`. -/
def WaitsWith (s : Forest V) (p q i : ℕ) : Prop :=
  ∃ v, s.view p = some v ∧ v.registered = some (innerWaker q i)

/-- The combinators inside of `r`, with nothing but pending ones on the way: `p` is awaited by an
unfinished inner future of one that is inside of `r`, or is `r` itself. -/
inductive Within (s : Forest V) (r : ℕ) : ℕ → Prop where
  | self (hr : s.Pending r) : Within s r r
  | inner {p q i : ℕ} (hp : s.Pending p) (hwaits : s.WaitsWith p q i) (halive : s.Alive q i)
      (hq : Within s r q) : Within s r p

/-- The same, with the flags set on the way. -/
inductive Marked (s : Forest V) (r : ℕ) : ℕ → Prop where
  | self : Marked s r r
  | inner {p q i : ℕ} (hwaits : s.WaitsWith p q i) (hflag : s.IsAwoken q i) (hq : Marked s r q) :
      Marked s r p

/-- A wake is between two of its steps: a flag has been set and the base waker not woken yet, or the
waker of an inner future is about to be invoked. -/
def InFlight (s : Forest V) (x : ℕ) : Prop :=
  (∃ v, s.view x = some v ∧ 0 < v.wakers.flights) ∨ ∃ i, innerWaker x i ∈ s.calls

/-- The waker of the latest call has been taken out of the base waker, to be invoked. -/
def Woken (s : Forest V) (r : ℕ) : Prop := ∃ v, s.view r = some v ∧ v.wakers.baseWaker.Woken

section WayOut

variable {s : Forest V} {r p q i : ℕ}

theorem Within.pending (h : s.Within r p) : s.Pending p := by
  cases h with
  | self hr => exact hr
  | inner hp => exact hp

/-- A set flag of an unfinished inner future has been heard. -/
theorem Inv.heard (h : Inv s) (hp : s.Pending p) (halive : s.Alive p i) (hflag : s.IsAwoken p i) :
    s.Woken p ∨ s.InFlight p := by
  obtain ⟨y, hy, -, hpending⟩ := hp
  have hview : s.view p = some y.comb.view := by rw [view, hy]; rfl
  obtain ⟨v, hv, halive⟩ := halive
  obtain rfl := Option.some.inj (hv.symm.trans hview)
  obtain ⟨v, hv, hflag⟩ := hflag
  obtain rfl := Option.some.inj (hv.symm.trans hview)
  obtain ⟨n, hgood⟩ := h.good p y hy
  exact (hgood.heard hpending halive hflag).imp (fun hw ↦ ⟨_, hview, hw⟩) fun hf ↦
    Or.inl ⟨_, hview, hf⟩

/-- **One step out**: a combinator that has been woken has set the flag of the inner future that
awaits it, or is about to. -/
theorem Inv.isAwoken_outer (h : Inv s) (hp : s.Pending p) (hwaits : s.WaitsWith p q i)
    (halive : s.Alive q i) (hq : s.Pending q) (hwoken : s.Woken p) :
    s.IsAwoken q i ∨ s.InFlight q := by
  obtain ⟨y, hy, hdropped, hpending⟩ := hp
  have hview : s.view p = some y.comb.view := by rw [view, hy]; rfl
  obtain ⟨v, hv, hreg⟩ := hwaits
  obtain rfl := Option.some.inj (hv.symm.trans hview)
  obtain ⟨v, hv, hwoken⟩ := hwoken
  obtain rfl := Option.some.inj (hv.symm.trans hview)
  have hlinked := h.linked p y q i hy hdropped hreg
  rcases hlinked.woken (Or.inr hpending) hwoken with hcall | hflag | hstale
  · exact Or.inr (Or.inr ⟨i, hcall⟩)
  · exact Or.inl hflag
  · rcases hlinked.stale (Or.inr hpending) hstale with hflag | ⟨v, hv, hpolling⟩ | hdead
    · exact Or.inl hflag
    · -- the call outside has returned
      obtain ⟨z, hz, -, hidle⟩ := hq
      rw [view, hz] at hv
      obtain rfl := Option.some.inj hv
      rw [Comb.polling_eq_none hidle] at hpolling
      cases hpolling
    · exact absurd halive hdead

/-- **A wake climbs**, by induction on the way out. -/
theorem Inv.climbs (h : Inv s) (hpath : s.Within r p) (halive : s.Alive p i)
    (hflag : s.IsAwoken p i) :
    (∃ x, s.Within r x ∧ s.Within x p ∧ s.InFlight x) ∨ s.Woken r ∧ s.Marked r p := by
  induction hpath generalizing i with
  | self hr =>
    rcases h.heard hr halive hflag with hwoken | hflight
    · exact Or.inr ⟨hwoken, .self⟩
    · exact Or.inl ⟨r, .self hr, .self hr, hflight⟩
  | @inner p q j hp hwaits houter hq ih =>
    rcases h.heard hp halive hflag with hwoken | hflight
    · rcases h.isAwoken_outer hp hwaits houter hq.pending hwoken with hflag' | hflight
      · rcases ih houter hflag' with ⟨x, hx, hqx, hflight⟩ | ⟨hwoken, hmarked⟩
        · exact Or.inl ⟨x, hx, .inner hp hwaits houter hqx, hflight⟩
        · exact Or.inr ⟨hwoken, .inner hwaits hflag' hmarked⟩
      · exact Or.inl ⟨q, hq, .inner hp hwaits houter (.self hq.pending), hflight⟩
    · exact Or.inl ⟨p, .inner hp hwaits houter hq, .self hp, hflight⟩

end WayOut

/-- **No wakeup is lost at any depth.** Take any combinators in combinators whose inner futures
await what they wait for, in any state that they can reach, whatever wakes and polls there have
been. Let the inner future `i` of `p` be unfinished and woken since its latest poll began, and let
the calls of `p`, of the combinator that awaits `p`, and so on up to `r` have returned pending. Then
a wake is under way between `p` and `r`, or the waker of the latest call of `r` has been taken to be
invoked; and in that case the flags are set all the way from `r` down to `p`, so that a call of `r`
finds its way. -/
theorem nested_lose_no_wakeup {acts : List (ForestAct V)} {s : Forest V}
    (hall : (machine V).AllSteps Awaits init acts) (hrun : (machine V).run init acts = some s)
    {r p i : ℕ} (hpath : s.Within r p) {y : Node V} (hy : s.nodes p = some y)
    (hi : i < y.comb.view.wakers.awoken.length) (hunfin : ¬ y.comb.Finished i)
    (hwoken : y.comb.WokenSince i) :
    (∃ x, s.Within r x ∧ s.Within x p ∧ s.InFlight x) ∨ s.Woken r ∧ s.Marked r p := by
  have h : Inv s :=
    Machine.run_preserves_of_allSteps (M := machine V) (I := Inv)
      (fun _ _ _ h hawaits hstep ↦ h.step hawaits hstep) .init hall hrun
  obtain ⟨n, hgood⟩ := h.good p y hy
  obtain ⟨halive, hflag⟩ := hgood.noted (hgood.length_awoken ▸ hi) hunfin hwoken
  have hview : s.view p = some y.comb.view := by rw [view, hy]; rfl
  exact h.climbs hpath ⟨_, hview, halive⟩ ⟨_, hview, hflag⟩

/-- A merge in a join. The task polls both, everything is pending, and then an inner future of the
merge is woken. -/
def mergeInJoin : List (ForestAct ℕ) :=
  [.create 0 1 .join, .create 1 1 .mergeFutures, .poll 0 0, .tick 0,
    .poll 1 (innerWaker 0 0), .tick 1, .ret 1 (.future .pending), .tick 1,
    .ret 0 (.future .pending), .tick 0, .wake 1 0, .fire 1, .deliver (innerWaker 0 0), .fire 0]

theorem awaits_mergeInJoin : (machine ℕ).AllSteps Awaits init mergeInJoin := by
  refine ⟨trivial, fun s₁ h₁ ↦ ⟨trivial, fun s₂ h₂ ↦ ⟨trivial, fun s₃ h₃ ↦ ⟨trivial, fun s₄ h₄ ↦
    ⟨trivial, fun s₅ h₅ ↦
      ⟨trivial, fun s₆ h₆ ↦ ⟨?_, fun s₇ h₇ ↦ ⟨trivial, fun s₈ h₈ ↦ ⟨?_, fun _ _ ↦
      ⟨trivial, fun _ _ ↦ ⟨trivial, fun _ _ ↦ ⟨trivial, fun _ _ ↦ ⟨trivial, fun _ _ ↦ ⟨trivial,
        fun _ _ ↦ trivial⟩⟩⟩⟩⟩⟩⟩⟩⟩⟩⟩⟩⟩⟩
  · obtain rfl := Option.some.inj h₁
    obtain rfl := Option.some.inj h₂
    obtain rfl := Option.some.inj h₃
    obtain rfl := Option.some.inj h₄
    obtain rfl := Option.some.inj h₅
    obtain rfl := Option.some.inj h₆
    intro v i p y hv hpolling hy hdropped hreg
    obtain rfl := Option.some.inj hv
    obtain rfl := Option.some.inj hpolling
    rcases p with - | - | p
    · obtain rfl := Option.some.inj hy
      exact absurd hreg (by decide)
    · obtain rfl := Option.some.inj hy
      exact absurd hreg (by decide)
    · cases hy
  · obtain rfl := Option.some.inj h₁
    obtain rfl := Option.some.inj h₂
    obtain rfl := Option.some.inj h₃
    obtain rfl := Option.some.inj h₄
    obtain rfl := Option.some.inj h₅
    obtain rfl := Option.some.inj h₆
    obtain rfl := Option.some.inj h₇
    obtain rfl := Option.some.inj h₈
    intro v i p y hv hpolling hy hdropped hreg
    obtain rfl := Option.some.inj hv
    obtain rfl := Option.some.inj hpolling
    rcases p with - | - | p
    · obtain rfl := Option.some.inj hy
      exact absurd hreg (by decide)
    · obtain rfl := Option.some.inj hy
      exact ⟨rfl, fun _ _ ↦ rfl⟩
    · cases hy

theorem nested_lose_no_wakeup_mergeInJoin :
    ∃ s, (machine ℕ).run init mergeInJoin = some s ∧ s.Within 0 1 ∧ s.Woken 0 ∧ s.Marked 0 1 := by
  obtain ⟨s, y, hrun, hy, hpath, hi, hunfin, hwoken, hflights, hcalls⟩ : ∃ s y,
      (machine ℕ).run init mergeInJoin = some s ∧ s.nodes 1 = some y ∧ s.Within 0 1 ∧
        0 < y.comb.view.wakers.awoken.length ∧ ¬ y.comb.Finished 0 ∧ y.comb.WokenSince 0 ∧
        (∀ p v, s.view p = some v → v.wakers.flights = 0) ∧ s.calls = [0] := by
    refine ⟨_, _, rfl, rfl, ?_, Nat.one_pos, ?_, Or.inl rfl, fun p v hv ↦ ?_, rfl⟩
    · exact .inner ⟨_, rfl, rfl, rfl⟩ ⟨_, rfl, rfl⟩ ⟨_, rfl, rfl⟩ (.self ⟨_, rfl, rfl, rfl⟩)
    · rintro ⟨o, -, hmem⟩
      change _ ∈ [Ev.wake 0, .ret MergeRet.pending, .done 0 .pending, .start 0, .call] at hmem
      simp at hmem
    · rcases p with - | - | p
      · obtain rfl := Option.some.inj hv
        rfl
      · obtain rfl := Option.some.inj hv
        rfl
      · cases hv
  refine ⟨s, hrun, hpath, ?_⟩
  refine (nested_lose_no_wakeup awaits_mergeInJoin hrun hpath hy hi hunfin hwoken).resolve_left ?_
  rintro ⟨x, -, -, ⟨v, hv, hflight⟩ | ⟨i, hcall⟩⟩
  · exact absurd (hflights x v hv) hflight.ne'
  · rw [hcalls, List.mem_singleton, innerWaker] at hcall
    omega

end Forest

end LocalRuntime
