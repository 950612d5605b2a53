import LocalRuntime.Lib.Machine
import Mathlib.Data.List.Induction

/-!
# Machines with histories

A machine can be made to write down what its steps do. Each step adds events to the histories of the
objects it touches, so that a property of a whole run ("never again after", "at most once", "the
latest of") becomes a property of a list.

* `Machine.logged` adds the histories; its runs are runs of the machine (`state_of_run_logged`), and
  `run_logged_preserves` is the invariant rule for a state together with its histories.
* `Leads` says what a history means: the events lead from one abstract state to another, each by a
  step of a labelled relation. Induction on it, latest event last, shows what a state knows about
  its history; `Leads.split` cuts a history at an event.
* `Since` says that something has happened after the latest event of some kind; `since_concat`
  follows it from event to event.
-/

/-- A state with a history for each object. -/
structure Logged (σ ι ε : Type*) where
  state : σ
  log : ι → List ε

/-! ### What a history means -/

section Leads

variable {σ ε : Type*} {R : σ → ε → σ → Prop} {s t : σ}

/-- The events of a history, in order, lead from `s` to a state by steps of `R`. -/
inductive Leads (R : σ → ε → σ → Prop) (s : σ) : List ε → σ → Prop where
  | nil : Leads R s [] s
  | snoc {h : List ε} {u t : σ} {e : ε} : Leads R s h u → R u e t → Leads R s (h ++ [e]) t

theorem leads_concat_iff {h : List ε} {e : ε} :
    Leads R s (h ++ [e]) t ↔ ∃ u, Leads R s h u ∧ R u e t := by
  constructor
  · intro hl
    generalize hk : h ++ [e] = k at hl
    cases hl with
    | nil => exact absurd hk (by simp)
    | snoc hl hR =>
      obtain ⟨rfl, he⟩ := List.append_inj' hk rfl
      obtain rfl := List.singleton_inj.1 he
      exact ⟨_, hl, hR⟩
  · rintro ⟨u, hl, hR⟩
    exact hl.snoc hR

theorem Leads.append {h k : List ε} {u : σ} (hh : Leads R s h u) (hk : Leads R u k t) :
    Leads R s (h ++ k) t := by
  induction hk with
  | nil => simpa using hh
  | snoc _ hR ih =>
    rw [← List.append_assoc]
    exact ih.snoc hR

theorem Leads.of_append {h k : List ε} (hl : Leads R s (h ++ k) t) :
    ∃ u, Leads R s h u ∧ Leads R u k t := by
  induction k using List.reverseRecOn generalizing t with
  | nil => exact ⟨t, by simpa using hl, .nil⟩
  | append_singleton k e ih =>
    rw [← List.append_assoc] at hl
    obtain ⟨v, hl, hR⟩ := leads_concat_iff.1 hl
    obtain ⟨u, hh, hk⟩ := ih hl
    exact ⟨u, hh, hk.snoc hR⟩

/-- **Cutting a history at an event.** -/
theorem Leads.split {before after : List ε} {e : ε} (hl : Leads R s (before ++ e :: after) t) :
    ∃ u v, Leads R s before u ∧ R u e v ∧ Leads R v after t := by
  rw [List.append_cons] at hl
  obtain ⟨v, hv, hafter⟩ := hl.of_append
  obtain ⟨u, hbefore, hR⟩ := leads_concat_iff.1 hv
  exact ⟨u, v, hbefore, hR, hafter⟩

end Leads

/-! ### What has happened lately -/

section Since

variable {ε : Type*} {P : List ε → ε → Prop} {q : ε → Prop}

/-- An event that meets `P`, together with the history before it, and none after it that meets
`q`. -/
def Since (P : List ε → ε → Prop) (q : ε → Prop) (h : List ε) : Prop :=
  ∃ before e after, h = before ++ e :: after ∧ P before e ∧ ∀ x ∈ after, ¬ q x

/-- An event of a history is the latest one, or it was there before. -/
theorem cut_concat {h before after : List ε} {e x : ε} (heq : h ++ [e] = before ++ x :: after) :
    h = before ∧ e = x ∧ after = [] ∨ ∃ rest, after = rest ++ [e] ∧ h = before ++ x :: rest := by
  rcases List.eq_nil_or_concat after with rfl | ⟨rest, y, rfl⟩
  · obtain ⟨hbefore, hsingle⟩ := List.append_inj' heq rfl
    exact Or.inl ⟨hbefore, List.singleton_inj.1 hsingle, rfl⟩
  · rw [List.concat_eq_append, ← List.cons_append, ← List.append_assoc] at heq
    obtain ⟨hbefore, hsingle⟩ := List.append_inj' heq rfl
    refine Or.inr ⟨rest, ?_, hbefore⟩
    rw [List.concat_eq_append, hsingle]

/-- **The latest event decides, or changes nothing.** -/
theorem since_concat {h : List ε} {e : ε} : Since P q (h ++ [e]) ↔ P h e ∨ ¬ q e ∧ Since P q h := by
  constructor
  · rintro ⟨before, x, after, heq, hx, hafter⟩
    obtain ⟨rfl, rfl, -⟩ | ⟨rest, rfl, rfl⟩ := cut_concat heq
    · exact Or.inl hx
    · refine Or.inr ⟨hafter e (by simp), before, x, rest, rfl, hx, fun z hz ↦ hafter z ?_⟩
      exact List.mem_append_left _ hz
  · rintro (hP | ⟨hq, before, x, after, rfl, hx, hafter⟩)
    · exact ⟨h, e, [], rfl, hP, fun x hx ↦ absurd hx List.not_mem_nil⟩
    · refine ⟨before, x, after ++ [e], by simp, hx, fun z hz ↦ ?_⟩
      rcases List.mem_append.1 hz with hz | hz
      · exact hafter z hz
      · rwa [List.mem_singleton.1 hz]

end Since

/-! ### Keeping histories -/

namespace Machine

variable {σ α ι ε : Type*} {M : Machine σ α}

/-- The machine that keeps histories: a step from `s` under `a` adds the events `events s a i` to
the history of the object `i`. -/
def logged (M : Machine σ α) (events : σ → α → ι → List ε) : Machine (Logged σ ι ε) α :=
  ⟨fun s a ↦ (M.step s.state a).map fun t ↦ ⟨t, fun i ↦ s.log i ++ events s.state a i⟩⟩

variable {events : σ → α → ι → List ε}

theorem step_logged_eq_some {s t : Logged σ ι ε} {a : α} :
    (M.logged events).step s a = some t ↔
      ∃ u, M.step s.state a = some u ∧ ⟨u, fun i ↦ s.log i ++ events s.state a i⟩ = t :=
  Option.map_eq_some_iff

/-- Without the histories, a run is one of the machine. -/
theorem state_of_run_logged {as : List α} {s t : Logged σ ι ε}
    (hrun : (M.logged events).run s as = some t) : M.run s.state as = some t.state := by
  induction as generalizing s with
  | nil =>
    obtain rfl := Option.some.inj hrun
    rfl
  | cons a as ih =>
    obtain ⟨u, hu, hrun⟩ := run_cons_eq_some _ |>.1 hrun
    obtain ⟨v, hv, rfl⟩ := step_logged_eq_some.1 hu
    exact M.run_cons_eq_some.2 ⟨v, hv, ih hrun⟩

/-- **The invariant rule for a state and its histories**, under a side condition on the steps of the
machine. -/
theorem run_logged_preserves {I : Logged σ ι ε → Prop} {C : σ → α → Prop}
    (hstep : ∀ s a t, I s → C s.state a → M.step s.state a = some t →
      I ⟨t, fun i ↦ s.log i ++ events s.state a i⟩)
    {as : List α} {s t : Logged σ ι ε} (hs : I s) (hall : M.AllSteps C s.state as)
    (hrun : (M.logged events).run s as = some t) : I t := by
  induction as generalizing s with
  | nil => exact Option.some.inj hrun ▸ hs
  | cons a as ih =>
    obtain ⟨u, hu, hrun⟩ := run_cons_eq_some _ |>.1 hrun
    obtain ⟨v, hv, rfl⟩ := step_logged_eq_some.1 hu
    exact ih (hstep s a v hs hall.1 hv) (hall.2 v hv) hrun

/-- Histories only grow. -/
theorem log_prefix_of_run {as : List α} {s t : Logged σ ι ε}
    (hrun : (M.logged events).run s as = some t) (i : ι) : s.log i <+: t.log i := by
  induction as generalizing s with
  | nil =>
    obtain rfl := Option.some.inj hrun
    exact List.prefix_rfl
  | cons a as ih =>
    obtain ⟨u, hu, hrun⟩ := run_cons_eq_some _ |>.1 hrun
    obtain ⟨v, -, rfl⟩ := step_logged_eq_some.1 hu
    exact (List.prefix_append _ _).trans (ih hrun)

end Machine
