import Mathlib.Data.List.Basic

/-!
# Machines with a partial step function

A machine is a partial step function `σ → α → Option σ`: the action `a` carries every choice the
environment makes (which thread moves, what a callback returns), so a run is nothing but a list of
actions and can be evaluated. `none` means that the action is not enabled.

Three rules are proved once here and used by every safety argument built on top:

* `run_preserves`: what every step keeps, every run keeps;
* `run_preserves_of_allSteps`: the same for runs all of whose steps meet a side condition;
* `forall_visits_iff_allSteps`: when a step that breaks the side condition lands outside the
  property, the property holds in every visited state **exactly** for the runs that meet the side
  condition throughout.
-/

/-- A machine with states `σ` and actions `α`. -/
structure Machine (σ α : Type*) where
  /-- The successor under an action, if the action is enabled. -/
  step : σ → α → Option σ

namespace Machine

variable {σ α : Type*} (M : Machine σ α)

/-! ### Runs -/

/-- Perform the actions of a list in order. -/
def run : σ → List α → Option σ
  | s, [] => some s
  | s, a :: as => (M.step s a).bind fun t ↦ run t as

@[simp] theorem run_nil (s : σ) : M.run s [] = some s := rfl

theorem run_cons (s : σ) (a : α) (as : List α) :
    M.run s (a :: as) = (M.step s a).bind fun t ↦ M.run t as := rfl

theorem run_cons_eq_some {s t : σ} {a : α} {as : List α} :
    M.run s (a :: as) = some t ↔ ∃ u, M.step s a = some u ∧ M.run u as = some t := by
  rw [run_cons, Option.bind_eq_some_iff]

theorem run_append (s : σ) (as bs : List α) :
    M.run s (as ++ bs) = (M.run s as).bind fun t ↦ M.run t bs := by
  induction as generalizing s with
  | nil => rfl
  | cons a as ih => rw [List.cons_append, run_cons, run_cons, Option.bind_assoc]; simp only [ih]

/-- The run `as` from `s` passes through the state `t`, at its start or after some step. -/
def Visits (s : σ) (as : List α) (t : σ) : Prop :=
  ∃ pre, pre <+: as ∧ M.run s pre = some t

/-- Every step of the run `as` from `s` meets the side condition `C`, read at the state before
the step. -/
def AllSteps (C : σ → α → Prop) : σ → List α → Prop
  | _, [] => True
  | s, a :: as => C s a ∧ ∀ t, M.step s a = some t → AllSteps C t as

variable {M}

/-- A side condition that can be checked at a state can be checked along a run. -/
instance decidableAllSteps {C : σ → α → Prop} [∀ s a, Decidable (C s a)] :
    ∀ (s : σ) (as : List α), Decidable (M.AllSteps C s as)
  | _, [] => isTrue trivial
  | s, a :: as =>
    match h : M.step s a with
    | none =>
      decidable_of_iff (C s a) ⟨fun hC ↦ ⟨hC, fun t ht ↦ absurd (h.symm.trans ht) (by simp)⟩,
        And.left⟩
    | some t =>
      have := decidableAllSteps (C := C) t as
      decidable_of_iff (C s a ∧ M.AllSteps C t as)
        ⟨fun hall ↦ ⟨hall.1, fun u hu ↦ Option.some.inj (h.symm.trans hu) ▸ hall.2⟩,
          fun hall ↦ ⟨hall.1, hall.2 t h⟩⟩

theorem visits_self (s : σ) (as : List α) : M.Visits s as s :=
  ⟨[], List.nil_prefix, rfl⟩

theorem Visits.cons {s t u : σ} {a : α} {as : List α} (hs : M.step s a = some u)
    (h : M.Visits u as t) : M.Visits s (a :: as) t := by
  obtain ⟨pre, hpre, hrun⟩ := h
  exact ⟨a :: pre, (List.prefix_cons_inj a).2 hpre, M.run_cons_eq_some.2 ⟨u, hs, hrun⟩⟩

/-- A state visited by a nonempty run is its start or is visited after the first step. -/
theorem Visits.cases_cons {s t : σ} {a : α} {as : List α} (h : M.Visits s (a :: as) t) :
    t = s ∨ ∃ u, M.step s a = some u ∧ M.Visits u as t := by
  obtain ⟨pre, hpre, hrun⟩ := h
  rcases pre with - | ⟨b, pre⟩
  · exact Or.inl (Option.some.inj hrun).symm
  · obtain ⟨rfl, hrest⟩ := List.cons_prefix_cons.1 hpre
    obtain ⟨u, hu, hrun⟩ := M.run_cons_eq_some.1 hrun
    exact Or.inr ⟨u, hu, pre, hrest, hrun⟩

/-! ### Invariants -/

variable {I P : σ → Prop} {C : σ → α → Prop}

/-- **The invariant rule under a side condition.** -/
theorem run_preserves_of_allSteps
    (hstep : ∀ s a t, I s → C s a → M.step s a = some t → I t) :
    ∀ {as : List α} {s t : σ}, I s → M.AllSteps C s as → M.run s as = some t → I t := by
  intro as
  induction as with
  | nil =>
    intro s t hs _ hrun
    exact Option.some.inj hrun ▸ hs
  | cons a as ih =>
    intro s t hs hall hrun
    obtain ⟨u, hu, hrun⟩ := M.run_cons_eq_some.1 hrun
    exact ih (hstep s a u hs hall.1 hu) (hall.2 u hu) hrun

theorem allSteps_of_forall {as : List α} (h : ∀ s, ∀ a ∈ as, C s a) :
    ∀ s, M.AllSteps C s as := by
  induction as with
  | nil => exact fun _ ↦ trivial
  | cons a as ih =>
    intro s
    refine ⟨h s a List.mem_cons_self, fun t _ ↦ ih (fun u b hb ↦ ?_) t⟩
    exact h u b (List.mem_cons_of_mem _ hb)

/-- **The invariant rule.** -/
theorem run_preserves (hstep : ∀ s a t, I s → M.step s a = some t → I t) {as : List α} {s t : σ}
    (hs : I s) (hrun : M.run s as = some t) : I t :=
  run_preserves_of_allSteps (C := fun _ _ ↦ True) (fun s a t hI _ ↦ hstep s a t hI) hs
    (allSteps_of_forall (fun _ _ _ ↦ trivial) s) hrun

/-- The invariant holds at every visited state, not only at the end of the run. -/
theorem visits_preserves_of_allSteps
    (hstep : ∀ s a t, I s → C s a → M.step s a = some t → I t) :
    ∀ {as : List α} {s t : σ}, I s → M.AllSteps C s as → M.Visits s as t → I t := by
  intro as
  induction as with
  | nil =>
    rintro s t hs - ⟨pre, hpre, hrun⟩
    rw [List.prefix_nil.1 hpre] at hrun
    exact Option.some.inj hrun ▸ hs
  | cons a as ih =>
    intro s t hs hall hvis
    rcases hvis.cases_cons with rfl | ⟨u, hu, hvis⟩
    · exact hs
    · exact ih (hstep s a u hs hall.1 hu) (hall.2 u hu) hvis

/-- A side condition that follows from another one at the states of the invariant. -/
theorem AllSteps.imp {D : σ → α → Prop} (hstep : ∀ s a t, I s → C s a → M.step s a = some t → I t)
    (himp : ∀ s a, I s → C s a → D s a) :
    ∀ {as : List α} {s : σ}, I s → M.AllSteps C s as → M.AllSteps D s as := by
  intro as
  induction as with
  | nil => exact fun _ _ ↦ trivial
  | cons a as ih =>
    intro s hs hall
    exact ⟨himp s a hs hall.1, fun t ht ↦ ih (hstep s a t hs hall.1 ht) (hall.2 t ht)⟩

/-- **The exact side condition of a property.** If the invariant gives the property and is kept by
the steps that meet `C`, and a step that breaks `C` lands outside the property, then a run keeps
the property throughout iff all its steps meet `C`. -/
theorem forall_visits_iff_allSteps (hI : ∀ s, I s → P s)
    (hstep : ∀ s a t, I s → C s a → M.step s a = some t → I t)
    (hbad : ∀ s a t, I s → ¬ C s a → M.step s a = some t → ¬ P t) :
    ∀ {as : List α} {s t : σ}, I s → M.run s as = some t →
      ((∀ u, M.Visits s as u → P u) ↔ M.AllSteps C s as) := by
  intro as s t hs hrun
  refine ⟨fun hP ↦ ?_, fun hall u hu ↦ hI u (visits_preserves_of_allSteps hstep hs hall hu)⟩
  induction as generalizing s with
  | nil => trivial
  | cons a as ih =>
    obtain ⟨u, hu, hrun⟩ := M.run_cons_eq_some.1 hrun
    have hC : C s a := by
      by_contra hC
      exact hbad s a u hs hC hu (hP u ((visits_self u as).cons hu))
    refine ⟨hC, fun v hv ↦ ?_⟩
    obtain rfl : u = v := Option.some.inj (hu ▸ hv)
    exact ih (hstep s a u hs hC hu) hrun fun v hv ↦ hP v (hv.cons hu)

end Machine
