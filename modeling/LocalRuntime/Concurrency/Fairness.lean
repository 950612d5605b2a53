import LocalRuntime.Concurrency.Merge
import Mathlib.Data.List.Rotate

/-!
# How long an inner stream waits

`poll_merged` visits the inner streams in turn from `idx` on, and returns at the first item, with
`idx` left at the stream that has yielded it: as the comment there says, the next call starts by
polling that stream again. A stream that always has an item ready is thus the only one that is
polled from its first item on (`merge_polls_only`).

A stream `j` that is unfinished and flagged waits for nothing else. `ahead` is the number of streams
in the order of the next call before `j`. A call that does not reach `j` returns an item, of the
stream that the order starts with or of a later one, and in the second case `ahead` goes down; so
`n` calls reach `j`, apart from those that repeat the stream of the call before.
-/

namespace LocalRuntime

namespace Merge

variable {O T : Type}

/-! ### The order of a call -/

/-- The number of inner streams that a call starting at `idx` visits before `j`. -/
def ahead (n idx j : ℕ) : ℕ := ((List.range n).rotate idx).idxOf j

section Ahead

variable {n idx j : ℕ}

/-- The order starts at the index; with the next index, what was first comes last. -/
theorem exists_rotate_eq_cons (hidx : idx < n) : ∃ tail,
    (List.range n).rotate idx = idx :: tail ∧
      (List.range n).rotate ((idx + 1) % n) = tail ++ [idx] := by
  have hlt : idx < (List.range n).length := by rwa [List.length_range]
  refine ⟨(List.range n).drop (idx + 1) ++ (List.range n).take idx, ?_⟩
  have hcons : (List.range n).rotate idx =
      idx :: ((List.range n).drop (idx + 1) ++ (List.range n).take idx) := by
    rw [List.rotate_eq_drop_append_take hlt.le, List.drop_eq_getElem_cons hlt, List.getElem_range,
      List.cons_append]
  refine ⟨hcons, ?_⟩
  have hmod := List.rotate_mod (List.range n) (idx + 1)
  rw [List.length_range] at hmod
  rw [hmod, ← List.rotate_rotate, hcons, List.rotate_cons_succ, List.rotate_zero]

/-- What is left of the order after its first, in the order of the next index. -/
theorem prefix_rotate_succ {i : ℕ} {rest : List ℕ} (hidx : idx < n)
    (h : i :: rest <+: (List.range n).rotate idx) :
    i = idx ∧ rest <+: (List.range n).rotate ((idx + 1) % n) := by
  obtain ⟨tail, hcons, hnext⟩ := exists_rotate_eq_cons hidx
  rw [hcons] at h
  obtain ⟨rfl, htail⟩ := List.cons_prefix_cons.1 h
  rw [hnext]
  exact ⟨rfl, htail.trans (List.prefix_append _ _)⟩

theorem ahead_lt (hj : j < n) : ahead n idx j < n := by
  have hmem : j ∈ (List.range n).rotate idx := List.mem_rotate.2 (List.mem_range.2 hj)
  calc ahead n idx j < ((List.range n).rotate idx).length := List.idxOf_lt_length_of_mem hmem
    _ = n := by rw [List.length_rotate, List.length_range]

/-- Passing another stream brings `j` nearer. -/
theorem ahead_succ (hidx : idx < n) (hj : j < n) (hne : idx ≠ j) :
    ahead n ((idx + 1) % n) j + 1 = ahead n idx j := by
  obtain ⟨tail, hcons, hnext⟩ := exists_rotate_eq_cons hidx
  have hmem : j ∈ (List.range n).rotate idx := List.mem_rotate.2 (List.mem_range.2 hj)
  rw [hcons] at hmem
  have htail : j ∈ tail := (List.mem_cons.1 hmem).resolve_left hne.symm
  rw [ahead, ahead, hcons, hnext, List.idxOf_append_of_mem htail, List.idxOf_cons_ne _ hne]

end Ahead

/-! ### The calls since a moment -/

/-- What the calls have returned, latest first. -/
def returned (log : Log O (MergeRet T)) : List (MergeRet T) :=
  log.filterMap fun
    | .ret out => some out
    | _ => none

/-- A call returns an item of the stream of which the call before has returned one. -/
def isRepeat : MergeRet T → List (MergeRet T) → Bool
  | .item i _, .item j _ :: _ => decide (i = j)
  | _, _ => false

/-- The number of calls that return an item of the same stream as the call before. -/
def repeats : List (MergeRet T) → ℕ
  | [] => 0
  | out :: rets => repeats rets + if isRepeat out rets then 1 else 0

/-- The calls have all returned items of other streams than `j`, and the index has got nearer to `j`
with each of them that is not a repetition. -/
def Progress (n j idx : ℕ) : List (MergeRet T) → Prop
  | [] => True
  | .item i val :: rets => i ≠ j ∧
      (i = idx ∧ ahead n idx j + (rets.length + 1) ≤ n + repeats (.item i val :: rets) ∨
        ahead n idx j + (rets.length + 1) + 1 ≤ n + repeats (.item i val :: rets))
  | .pending :: _ | .ended :: _ => False

section Progress

variable {n j idx : ℕ} {rets : List (MergeRet T)}

theorem Progress.advance (h : Progress n j idx rets) (hidx : idx < n) (hj : j < n) (hne : idx ≠ j) :
    Progress n j ((idx + 1) % n) rets := by
  have hsucc := ahead_succ hidx hj hne
  rcases rets with - | ⟨- | ⟨i, val⟩ | -, rets⟩
  · trivial
  · exact h
  · refine ⟨h.1, Or.inr ?_⟩
    rcases h.2 with ⟨-, hle⟩ | hle
    · omega
    · omega
  · exact h

/-- An item of the stream at the index. -/
theorem Progress.item (h : Progress n j idx rets) (hj : j < n) (hne : idx ≠ j) (val : T) :
    Progress n j idx (.item idx val :: rets) := by
  refine ⟨hne, Or.inl ⟨rfl, ?_⟩⟩
  have hlt : ahead n idx j < n := ahead_lt hj
  rcases rets with - | ⟨- | ⟨i, val'⟩ | -, rets⟩
  · exact hlt
  · exact h.elim
  · rw [repeats, isRepeat, List.length_cons]
    rcases h.2 with ⟨rfl, hle⟩ | hle
    · rw [if_pos (decide_eq_true rfl)]
      omega
    · omega
  · exact h.elim

theorem Progress.length_lt (h : Progress n j idx rets) (hidx : idx < n) (hj : j < n) :
    rets.length < n + repeats rets := by
  rcases rets with - | ⟨- | ⟨i, val⟩ | -, rets⟩
  · exact Nat.lt_of_le_of_lt (Nat.zero_le _) hidx
  · exact h.elim
  · rw [List.length_cons]
    rcases h.2 with ⟨rfl, hle⟩ | hle
    · have hsucc := ahead_succ hidx hj h.1
      omega
    · omega
  · exact h.elim

end Progress

/-! ### Waiting -/

/-- The call is still to visit `j`, in the order that the index gives. -/
def Approaches (n j : ℕ) (m : Merge O T) : Prop :=
  match m.pc with
  | .idle _ => True
  | .visit rest => rest <+: (List.range n).rotate m.idx ∧ j ∈ rest
  | .polling i rest => i :: rest <+: (List.range n).rotate m.idx ∧ i ≠ j ∧ j ∈ rest
  | .panicked => False

/-- The stream `j` has not been polled in the events `since` and is to be polled when it is
visited. -/
structure Waiting (n j : ℕ) (since : Log O (MergeRet T)) (m : Merge O T) : Prop where
  alive : m.alive j = true
  awoken : m.wakers.isAwoken j = true
  progress : Progress n j m.idx (returned since)
  approaches : Approaches n j m

section Steps

variable {K : MergeKind O T} {n i j : ℕ} {since : Log O (MergeRet T)} {rest : List ℕ}
  {m m' : Merge O T}

/-- The loop goes past another stream. It does not end the merge, since `j` is unfinished. -/
theorem advance_waits (hcount : m.noneCount = m.pollers.count false)
    (hlength : m.pollers.length = n) (hidx : m.idx < n) (hj : j < n) (halive : m.alive j = true)
    (hawoken : m.wakers.isAwoken j = true) (hprogress : Progress n j m.idx (returned since))
    (hrest : i :: rest <+: (List.range n).rotate m.idx) (hne : i ≠ j) (hmem : j ∈ rest) :
    (m.advance rest).log = m.log ∧ Waiting n j since (m.advance rest) := by
  obtain ⟨rfl, hnext⟩ := prefix_rotate_succ hidx hrest
  simp only [advance]
  split
  next hall => exact absurd halive (by simp [alive_eq_false hcount hall j])
  next =>
    refine ⟨rfl, halive, hawoken, ?_, ?_, hmem⟩
    · rw [hlength]
      exact hprogress.advance hidx hj hne
    · rw [hlength]
      exact hnext

/-- The order of a call, for the index that it finds. -/
theorem Core.order_eq_rotate (h : Core K n m) :
    (List.range m.pollers.length).drop m.idx ++ (List.range m.pollers.length).take m.idx =
      (List.range n).rotate m.idx := by
  have hidx : m.idx ≤ (List.range n).length := by
    rw [List.length_range]
    exact h.idx_lt.le
  rw [h.length_pollers, List.rotate_eq_drop_append_take hidx]

theorem Waiting.begin (h : Waiting n j since m) (hcore : Core K n m) (hj : j < n) (cx : ℕ) :
    (m.begin cx).log = .call :: m.log ∧ Waiting n j (.call :: since) (m.begin cx) := by
  have hidx : m.idx ≤ m.pollers.length := hcore.length_pollers ▸ hcore.idx_lt.le
  simp only [Merge.begin, if_pos hidx, hcore.order_eq_rotate]
  refine ⟨trivial, h.alive, h.awoken, h.progress, List.prefix_refl _, ?_⟩
  exact List.mem_rotate.2 (List.mem_range.2 hj)

/-- A visit of `j` polls it. -/
theorem Waiting.visit (h : Waiting n j since m) (hcore : Core K n m) (hj : j < n)
    (hpc : m.pc = .visit (i :: rest)) :
    (i = j ∧ (m.visit i rest).log = .start j :: m.log) ∨
      ∃ e, (m.visit i rest).log = e ++ m.log ∧ Waiting n j (e ++ since) (m.visit i rest) := by
  have happroaches := h.approaches
  rw [Approaches, hpc] at happroaches
  obtain ⟨hrest, hmem⟩ := happroaches
  rw [Merge.visit]
  rcases eq_or_ne i j with rfl | hne
  · refine Or.inl ⟨rfl, ?_⟩
    rw [if_pos h.alive, if_pos h.awoken]
  · have hmem : j ∈ rest := (List.mem_cons.1 hmem).resolve_left hne.symm
    have hcheck : (m.wakers.checkAwoken i).isAwoken j = true := by
      rw [FlagWakers.isAwoken_checkAwoken, h.awoken]
      simp [hne]
    refine Or.inr ?_
    split
    next =>
      split
      next => exact ⟨[.start i], rfl, h.alive, hcheck, h.progress, hrest, hne, hmem⟩
      next =>
        exact ⟨[], advance_waits (m := { m with wakers := m.wakers.checkAwoken i }) hcore.count_eq
          hcore.length_pollers hcore.idx_lt hj h.alive hcheck h.progress hrest hne hmem⟩
    next =>
      exact ⟨[], advance_waits hcore.count_eq hcore.length_pollers hcore.idx_lt hj h.alive h.awoken
        h.progress hrest hne hmem⟩

/-- An answer of another stream: an item is returned, and otherwise the loop goes on. -/
theorem Waiting.answer (h : Waiting n j since m) (hcore : Core K n m) (hj : j < n)
    (hpc : m.pc = .polling i rest) (hi : m.alive i = true) (p : Poll O) :
    ∃ e, (m.answer K i rest p).log = e ++ m.log ∧
      Waiting n j (e ++ since) (m.answer K i rest p) := by
  have happroaches := h.approaches
  rw [Approaches, hpc] at happroaches
  obtain ⟨hrest, hne, hmem⟩ := happroaches
  have hhead : i = m.idx := (prefix_rotate_succ hcore.idx_lt hrest).1
  rcases p with - | out
  · refine ⟨[.done i .pending], ?_⟩
    exact advance_waits (m := { m with log := .done i .pending :: m.log }) hcore.count_eq
      hcore.length_pollers hcore.idx_lt hj h.alive h.awoken h.progress hrest hne hmem
  · obtain ⟨hwakers, hidx, hlog, hlength⟩ := settle_eq K m i out
    have halive : (settle K m i out).alive j = true := by
      rw [alive_settle, h.alive]
      simp [hne]
    simp only [Merge.answer]
    split
    next val hval =>
      refine ⟨[.ret (.item i val), .done i (.ready out)], by rw [Merge.finish, hlog]; rfl,
        halive, ?_, ?_, trivial⟩
      · have hlt : i < (settle K m i out).wakers.awoken.length := by
          rw [hwakers, hcore.length_awoken, ← hcore.length_pollers]
          exact lt_of_alive hi
        show (FlagWakers.setAwoken _ i).isAwoken j = true
        rw [FlagWakers.isAwoken_setAwoken hlt, hwakers, h.awoken, Bool.or_true]
      · show Progress n j (settle K m i out).idx (.item i val :: returned since)
        rw [hidx, hhead]
        exact h.progress.item hj (hhead ▸ hne) val
    next =>
      refine ⟨[.done i (.ready out)], ?_⟩
      have hwaits : _ ∧ Waiting n j (.done i (.ready out) :: since) _ :=
        advance_waits (m := settle K m i out) (hcore.settle out hi).1
          (hlength.trans hcore.length_pollers) (hidx ▸ hcore.idx_lt) hj halive (hwakers ▸ h.awoken)
          (hidx ▸ h.progress) (hidx ▸ hrest) hne hmem
      rw [hlog] at hwaits
      exact hwaits

theorem returned_act {a : FlagWakers.Act} {log : Log O (MergeRet T)} :
    returned (log.act a) = returned log := by
  rcases a with i | - | w
  · rfl
  · rfl
  · rfl

theorem Waiting.env (h : Waiting n j since m) {a : FlagWakers.Act} (ha : m.env a = some m') :
    m'.log = m.log.act a ∧ Waiting n j (since.act a) m' := by
  obtain ⟨wakers, hact, rfl⟩ := Option.map_eq_some_iff.1 ha
  refine ⟨rfl, h.alive, ?_, ?_, h.approaches⟩
  · rw [(FlagWakers.act_eq_some hact).2.2, h.awoken, Bool.or_true]
  · rw [returned_act]
    exact h.progress

/-- A step either polls `j` or leaves it waiting. -/
theorem Waiting.step (h : Waiting n j since m) (hinv : Inv K n m) (hj : j < n) {a : MergeAct O}
    (hstep : m.step K a = some m') :
    ∃ e, m'.log = e ++ m.log ∧ (.start j ∈ e ∨ Waiting n j (e ++ since) m') := by
  obtain ⟨hcore, hplace⟩ := hinv
  rcases step_cases hstep with hpc | hpc | hpc | hpc | @⟨a, m', henv⟩
  · obtain ⟨hlog, hwaits⟩ := h.begin hcore hj _
    exact ⟨[.call], hlog, Or.inr hwaits⟩
  · have happroaches := h.approaches
    rw [Approaches, hpc] at happroaches
    exact absurd happroaches.2 List.not_mem_nil
  · rcases h.visit hcore hj hpc with ⟨-, hlog⟩ | ⟨e, hlog, hwaits⟩
    · exact ⟨[.start j], hlog, Or.inl List.mem_cons_self⟩
    · exact ⟨e, hlog, Or.inr hwaits⟩
  · rw [Place, hpc] at hplace
    obtain ⟨e, hlog, hwaits⟩ := h.answer hcore hj hpc hplace.2.1 _
    exact ⟨e, hlog, Or.inr hwaits⟩
  · obtain ⟨hlog, hwaits⟩ := h.env henv
    rcases a with i | - | w
    · exact ⟨[.wake i], hlog, Or.inr hwaits⟩
    · exact ⟨[], hlog, Or.inr hwaits⟩
    · exact ⟨[], hlog, Or.inr hwaits⟩

/-- Since the log was `base`, the stream `j` has been polled or is waiting. -/
def PolledOrWaiting (n j : ℕ) (base : Log O (MergeRet T)) (m : Merge O T) : Prop :=
  ∃ since, m.log = since ++ base ∧ (.start j ∈ since ∨ Waiting n j since m)

theorem PolledOrWaiting.step {base : Log O (MergeRet T)} (h : PolledOrWaiting n j base m)
    (hinv : Inv K n m) (hj : j < n) {a : MergeAct O} (hstep : m.step K a = some m') :
    PolledOrWaiting n j base m' := by
  obtain ⟨since, hlog, hpolled | hwaits⟩ := h
  · obtain ⟨e, hlog'⟩ := log_suffix_of_step hstep
    refine ⟨e ++ since, ?_, Or.inl (List.mem_append_right _ hpolled)⟩
    rw [← hlog', hlog, List.append_assoc]
  · obtain ⟨e, hlog', hpolled | hwaits⟩ := hwaits.step hinv hj hstep
    · exact ⟨e ++ since, by rw [hlog', hlog, List.append_assoc],
        Or.inl (List.mem_append_left _ hpolled)⟩
    · exact ⟨e ++ since, by rw [hlog', hlog, List.append_assoc], Or.inr hwaits⟩

end Steps

/-- **A merged stream waits for at most `n` calls**, apart from those that return an item of the
same stream as the call before. From any moment between two calls at which the stream `j` is
unfinished and its flag is set, once the calls since number `n` and the repetitions among them, `j`
has been polled. -/
theorem merge_polls_within {T : Type} {n j : ℕ} (hn : 0 < n) (hj : j < n)
    {acts more : List (MergeAct (Option T))} {m₀ m : Merge (Option T) T}
    (hrun₀ : (machine (.streams T)).run (new n) acts = some m₀)
    {last : Option (MergeRet T)} (hidle : m₀.pc = .idle last)
    (hunfin : ¬ m₀.log.Finished Option.isNone j) (hflag : m₀.wakers.isAwoken j = true)
    (hrun : (machine (.streams T)).run m₀ more = some m) :
    ∃ since, m.log = since ++ m₀.log ∧
      (n + repeats (returned since) ≤ (returned since).length → .start j ∈ since) := by
  have hinv₀ : Inv (.streams T) n m₀ := Inv.of_run hn hrun₀
  have hstart : PolledOrWaiting n j m₀.log m₀ := by
    refine ⟨[], rfl, Or.inr ⟨(hinv₀.1.alive_iff j hj).2 hunfin, hflag, trivial, ?_⟩⟩
    rw [Approaches, hidle]
    trivial
  have hend : Inv (.streams T) n m ∧ PolledOrWaiting n j m₀.log m :=
    Machine.run_preserves (I := fun m ↦ Inv (.streams T) n m ∧ PolledOrWaiting n j m₀.log m)
      (fun _ _ _ h hstep ↦ ⟨h.1.step hstep, h.2.step h.1 hj hstep⟩) ⟨hinv₀, hstart⟩ hrun
  obtain ⟨hinv, since, hlog, hpolled⟩ := hend
  refine ⟨since, hlog, fun hcalls ↦ hpolled.resolve_right fun hwaits ↦ ?_⟩
  exact Nat.not_lt.2 hcalls (hwaits.progress.length_lt hinv.1.idx_lt hj)

/-- The first stream has an item ready in the first call, and the second stream in the second. -/
def takeTurns : List (MergeAct (Option ℕ)) :=
  [.poll 7, .tick, .ret (.ready (some 5)), .poll 8, .tick, .ret .pending, .tick,
    .ret (.ready (some 6))]

theorem merge_polls_within_takeTurns :
    ∃ m, (machine (.streams ℕ)).run (new 2) takeTurns = some m ∧
      returned m.log = [.item 1 6, .item 0 5] ∧ .start 1 ∈ m.log := by
  obtain ⟨m, hrun, hreturned⟩ : ∃ m, (machine (.streams ℕ)).run (new 2) takeTurns = some m ∧
      returned m.log = [.item 1 6, .item 0 5] := ⟨_, rfl, rfl⟩
  obtain ⟨since, hlog, hpolls⟩ := merge_polls_within (j := 1) (by decide) (by decide)
    (show (machine (.streams ℕ)).run (new 2) [] = some (new 2) from rfl) rfl
    (by simp [new, Log.Finished]) rfl hrun
  have hsince : m.log = since := hlog.trans (List.append_nil since)
  refine ⟨m, hrun, hreturned, hsince ▸ hpolls ?_⟩
  rw [← hsince, hreturned]
  decide

/-! ### Starving -/

section Starving

variable {n i : ℕ} {rest : List ℕ} {m m' : Merge (Option T) T} {a : MergeAct (Option T)}

/-- The index is at the stream, which is unfinished and flagged: a call begins with it. -/
structure Leads (i : ℕ) (m : Merge (Option T) T) : Prop where
  idx_eq : m.idx = i
  alive : m.alive i = true
  awoken : m.wakers.isAwoken i = true

/-- Where the loop is in the order of the index. An item leaves the index at the stream that has
yielded it. -/
def Ordered (n : ℕ) (m : Merge (Option T) T) : Prop :=
  match m.pc with
  | .idle (some (.item i _)) => Leads i m
  | .visit rest => rest <+: (List.range n).rotate m.idx
  | .polling i rest => i :: rest <+: (List.range n).rotate m.idx
  | _ => True

/-- A call that has begun polls the stream first. -/
def Favoured (i : ℕ) (m : Merge (Option T) T) : Prop :=
  match m.pc with
  | .idle _ => Leads i m
  | .visit rest => rest.head? = some i ∧ Leads i m
  | .polling k _ => k = i ∧ m.idx = i
  | .panicked => False

/-- When the stream is polled, it yields an item. -/
def Yields (i : ℕ) (m : Merge (Option T) T) (a : MergeAct (Option T)) : Prop :=
  ∀ rest out, m.pc = .polling i rest → a = .ret out → ∃ val, out = .ready (some val)

theorem env_same {e : FlagWakers.Act} (he : m.env e = some m') :
    m'.pc = m.pc ∧ m'.idx = m.idx ∧ m'.log = m.log.act e := by
  obtain ⟨wakers, -, rfl⟩ := Option.map_eq_some_iff.1 he
  exact ⟨rfl, rfl, rfl⟩

theorem Leads.env (h : Leads i m) {e : FlagWakers.Act} (he : m.env e = some m') : Leads i m' := by
  obtain ⟨wakers, hact, rfl⟩ := Option.map_eq_some_iff.1 he
  refine ⟨h.idx_eq, h.alive, ?_⟩
  rw [(FlagWakers.act_eq_some hact).2.2, h.awoken, Bool.or_true]

/-- The stream that yields an item leads. -/
theorem Inv.leads_of_item (h : Inv (.streams T) n m) (hpc : m.pc = .polling i rest)
    (hidx : m.idx = i) (val : T) :
    ∃ m', m.answer (.streams T) i rest (.ready (some val)) = m' ∧
      m'.pc = .idle (some (.item i val)) ∧
      m'.log = .ret (.item i val) :: .done i (.ready (some val)) :: m.log ∧ Leads i m' := by
  obtain ⟨hcore, hplace⟩ := h
  rw [Place, hpc] at hplace
  have hlt : i < m.wakers.awoken.length := hcore.length_awoken ▸ hplace.1
  refine ⟨_, rfl, rfl, rfl, hidx, hplace.2.1, ?_⟩
  show (FlagWakers.setAwoken m.wakers i).isAwoken i = true
  rw [FlagWakers.isAwoken_setAwoken hlt, decide_eq_true rfl, Bool.true_or]

theorem ordered_advance (hlength : m.pollers.length = n) (hidx : m.idx < n)
    (hrest : i :: rest <+: (List.range n).rotate m.idx) : Ordered n (m.advance rest) := by
  simp only [advance]
  split
  · trivial
  · rw [hlength]
    exact (prefix_rotate_succ hidx hrest).2

theorem Ordered.step (h : Ordered n m) (hinv : Inv (.streams T) n m)
    (hstep : m.step (.streams T) a = some m') : Ordered n m' := by
  obtain ⟨hcore, hplace⟩ := id hinv
  rcases step_cases hstep with hpc | hpc | @⟨i, rest, hpc⟩ | @⟨i, rest, out, hpc⟩ | @⟨e, m', henv⟩
  · have hidx : m.idx ≤ m.pollers.length := hcore.length_pollers ▸ hcore.idx_lt.le
    simp only [begin, if_pos hidx, hcore.order_eq_rotate]
    exact List.prefix_refl _
  · trivial
  · rw [Ordered, hpc] at h
    rw [Merge.visit]
    split
    · split
      · exact h
      · exact ordered_advance (m := { m with wakers := m.wakers.checkAwoken i })
          hcore.length_pollers hcore.idx_lt h
    · exact ordered_advance hcore.length_pollers hcore.idx_lt h
  · rw [Ordered, hpc] at h
    rcases out with - | - | val
    · exact ordered_advance (m := { m with log := .done i .pending :: m.log }) hcore.length_pollers
        hcore.idx_lt h
    · obtain ⟨-, hidx, -, hlength⟩ := settle_eq (.streams T) m i none
      refine ordered_advance (i := i) (m := settle (.streams T) m i none)
        (hlength.trans hcore.length_pollers) (hidx ▸ hcore.idx_lt) ?_
      rw [hidx]
      exact h
    · have hidx := (prefix_rotate_succ hcore.idx_lt h).1.symm
      obtain ⟨m', rfl, hpc', -, hleads⟩ := hinv.leads_of_item hpc hidx val
      rw [Ordered, hpc']
      exact hleads
  · obtain ⟨hpc', hidx, -⟩ := env_same henv
    rw [Ordered] at h ⊢
    rw [hpc', hidx]
    rcases hpc : m.pc with ⟨- | ⟨- | ⟨i, val⟩ | -⟩⟩ | rest | ⟨i, rest⟩ | -
    all_goals rw [hpc] at h
    case idle.some.item => exact Leads.env h henv
    all_goals exact h

/-- A step of a call that begins with the stream polls no other one and returns its item. -/
theorem Favoured.step (h : Favoured i m) (hinv : Inv (.streams T) n m) (hyields : Yields i m a)
    (hstep : m.step (.streams T) a = some m') :
    Favoured i m' ∧ ∃ e, m'.log = e ++ m.log ∧ (∀ j, .start j ∈ e → j = i) ∧
      ∀ out, .ret out ∈ e → ∃ val, out = .item i val := by
  obtain ⟨hcore, hplace⟩ := id hinv
  rcases step_cases hstep with @⟨last, cx, hpc⟩ | hpc | @⟨k, rest, hpc⟩ | @⟨k, rest, out, hpc⟩ |
    @⟨e, m', henv⟩
  · rw [Favoured, hpc] at h
    have hidx : m.idx ≤ m.pollers.length := hcore.length_pollers ▸ hcore.idx_lt.le
    obtain ⟨tail, hcons, -⟩ := exists_rotate_eq_cons hcore.idx_lt
    simp only [begin, if_pos hidx, hcore.order_eq_rotate, hcons]
    exact ⟨⟨congrArg some h.idx_eq, h.idx_eq, h.alive, h.awoken⟩, [.call], rfl, by simp, by simp⟩
  · rw [Favoured, hpc] at h
    exact absurd h.1 (by simp)
  · rw [Favoured, hpc] at h
    obtain ⟨hhead, hleads⟩ := h
    obtain rfl := Option.some.inj hhead
    rw [Merge.visit, if_pos hleads.alive, if_pos hleads.awoken]
    exact ⟨⟨rfl, hleads.idx_eq⟩, [.start k], rfl, by simp, by simp⟩
  · rw [Favoured, hpc] at h
    obtain ⟨rfl, hidx⟩ := h
    obtain ⟨val, rfl⟩ := hyields rest out hpc rfl
    obtain ⟨m', rfl, hpc', hlog, hleads⟩ := hinv.leads_of_item hpc hidx val
    refine ⟨?_, [.ret (.item k val), .done k (.ready (some val))], hlog, by simp, by simp⟩
    rw [Favoured, hpc']
    exact hleads
  · obtain ⟨hpc', hidx, hlog⟩ := env_same henv
    refine ⟨?_, ?_⟩
    · rw [Favoured] at h ⊢
      rw [hpc', hidx]
      rcases hpc : m.pc with last | rest | ⟨k, rest⟩ | -
      all_goals rw [hpc] at h
      case idle => exact Leads.env h henv
      case visit => exact ⟨h.1, h.2.env henv⟩
      case polling | panicked => exact h
    · rw [hlog]
      rcases e with k | - | w
      · exact ⟨[.wake k], rfl, by simp, by simp⟩
      · exact ⟨[], rfl, by simp, by simp⟩
      · exact ⟨[], rfl, by simp, by simp⟩

end Starving

/-- **A stream that yields in every call keeps the others from being polled**: after a call that has
returned an item of the stream `i`, for as long as `i` answers every poll with an item, no other
stream is polled, in any number of calls, and all of them return items of `i`. -/
theorem merge_polls_only {T : Type} {n i : ℕ} {val : T} (hn : 0 < n)
    {acts more : List (MergeAct (Option T))} {m₀ m : Merge (Option T) T}
    (hrun₀ : (machine (.streams T)).run (new n) acts = some m₀)
    (hitem : m₀.pc = .idle (some (.item i val)))
    (hyields : (machine (.streams T)).AllSteps (Yields i) m₀ more)
    (hrun : (machine (.streams T)).run m₀ more = some m) :
    ∃ since, m.log = since ++ m₀.log ∧ (∀ j, .start j ∈ since → j = i) ∧
      ∀ out, .ret out ∈ since → ∃ val, out = .item i val := by
  have hinv₀ : Inv (.streams T) n m₀ ∧ Ordered n m₀ :=
    Machine.run_preserves (I := fun m ↦ Inv (.streams T) n m ∧ Ordered n m)
      (fun _ _ _ h hstep ↦ ⟨h.1.step hstep, h.2.step h.1 hstep⟩) ⟨.new hn, trivial⟩ hrun₀
  have hfavoured : Favoured i m₀ := by
    have hordered := hinv₀.2
    rw [Ordered, hitem] at hordered
    rw [Favoured, hitem]
    exact hordered
  have hend := Machine.run_preserves_of_allSteps (I := fun m ↦ Inv (.streams T) n m ∧ Favoured i m ∧
      ∃ since, m.log = since ++ m₀.log ∧ (∀ j, .start j ∈ since → j = i) ∧
        ∀ out, .ret out ∈ since → ∃ val, out = .item i val) ?_
    ⟨hinv₀.1, hfavoured, [], rfl, by simp, by simp⟩ hyields hrun
  · exact hend.2.2
  · rintro m a m' ⟨hinv, hfav, since, hlog, hstart, hret⟩ hy hstep
    obtain ⟨hfav', e, hlog', hstart', hret'⟩ := hfav.step hinv hy hstep
    refine ⟨hinv.step hstep, hfav', e ++ since, by rw [hlog', hlog, List.append_assoc], ?_, ?_⟩
    · exact fun j hj ↦ (List.mem_append.1 hj).elim (hstart' j) (hstart j)
    · exact fun out hout ↦ (List.mem_append.1 hout).elim (hret' out) (hret out)

/-- The first stream always has an item ready. -/
def alwaysReady : List (MergeAct (Option ℕ)) :=
  [.poll 7, .tick, .ret (.ready (some 5)), .poll 8, .tick, .ret (.ready (some 6))]

/-- **A stream that always has an item ready keeps the others from being polled**: of two streams,
the second one is unfinished and its flag is set, and two calls that return items do not poll it. -/
theorem merge_starves :
    (new 2 : Merge (Option ℕ) ℕ).pc = .idle none ∧
    ¬ (new 2 : Merge (Option ℕ) ℕ).log.Finished Option.isNone 1 ∧
    (new 2 : Merge (Option ℕ) ℕ).wakers.isAwoken 1 = true ∧
    ∃ m, (machine (.streams ℕ)).run (new 2) alwaysReady = some m ∧
      returned m.log = [.item 0 6, .item 0 5] ∧ .start 1 ∉ m.log := by
  obtain ⟨m, hrun, hlog⟩ : ∃ m, (machine (.streams ℕ)).run (new 2) alwaysReady = some m ∧
      m.log = [.ret (.item 0 6), .done 0 (.ready (some 6)), .start 0, .call, .ret (.item 0 5),
        .done 0 (.ready (some 5)), .start 0, .call] := ⟨_, rfl, rfl⟩
  refine ⟨rfl, by simp [new, Log.Finished], rfl, m, hrun, by rw [hlog]; rfl, ?_⟩
  rw [hlog]
  simp

end Merge

end LocalRuntime
