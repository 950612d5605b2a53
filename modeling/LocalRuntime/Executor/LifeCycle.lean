import LocalRuntime.Executor.Basic
import LocalRuntime.Lib.History

/-!
# The life of a task

What a spawned task and its handle go through, without the executor: a task waits for its first
poll, is polled and pending by turns, and is ready or cancelled in the end; its handle is polled,
takes the value once, and leaves a waker while there is none. `Life.Step` lists what may happen
when. A task

* is polled only while it rests and has not been cancelled;
* is dropped only if it has been cancelled while it rests, or is ready, or if the executor clears
  all;
* gives its value to the first poll of its handle after it is ready, and wakes the waker of the
  latest one before.

What may happen in which order follows by induction on the history of a task (`Leads`). That the
tasks of the executor live such lives is shown in `LocalRuntime.Executor.Tasks`.
-/

namespace LocalRuntime

variable {V : Type}

/-- Where a task is in its life. -/
inductive Stage where
  | unborn
  /-- Waiting for its first poll. -/
  | waiting
  | polling
  /-- Its latest poll has returned pending. -/
  | idle
  /-- Its latest poll has returned ready. -/
  | finished
  | dropped
  deriving DecidableEq

/-- The task is not polled, and will be. -/
def Stage.Rests (st : Stage) : Prop := st = waiting ∨ st = idle

/-- Something that happens to a task or to its handle. -/
inductive TaskEvent (V : Type) where
  | spawned
  /-- A poll of the future begins. -/
  | polled
  /-- The poll returns pending. -/
  | pended
  /-- The poll returns ready. -/
  | completed (v : V)
  /-- `TaskHandle::cancel` is called, by the running poll of the task itself or by other code. -/
  | cancelled (own : Bool)
  /-- `TaskHandle::poll` is called, with its answer. -/
  | awaited (waker : WakerRef) (out : Poll V)
  /-- The executor drops the task. -/
  | dropped
  /-- `run` completes and the executor drops the task, as it drops all. -/
  | cleared

/-- The executor drops the task, alone or with all. -/
def TaskEvent.isDrop : TaskEvent V → Bool
  | .dropped | .cleared => true
  | _ => false

/-- A task with its handle. -/
structure Life (V : Type) where
  stage : Stage
  cancelled : Bool
  /-- The value that the handle has not taken yet. -/
  value : Option V
  /-- The waker of the latest poll of the handle, while there is no value. -/
  waker : Option WakerRef

namespace Life

/-- A task that has not been spawned. -/
def new : Life V := ⟨.unborn, false, none, none⟩

/-- What may happen to a task, and what it does to it. -/
inductive Step : Life V → TaskEvent V → Life V → Prop where
  | spawned {l : Life V} (h : l.stage = .unborn) : Step l .spawned { l with stage := .waiting }
  | polled {l : Life V} (h : l.stage.Rests) (hc : l.cancelled = false) :
      Step l .polled { l with stage := .polling }
  | pended {l : Life V} (h : l.stage = .polling) : Step l .pended { l with stage := .idle }
  | completed {l : Life V} {v : V} (h : l.stage = .polling) :
      Step l (.completed v) { l with stage := .finished, value := some v, waker := none }
  | cancelled {l : Life V} {own : Bool} (h : l.stage ≠ .unborn)
      (hown : own = true ↔ l.stage = .polling) :
      Step l (.cancelled own) { l with cancelled := true }
  | taken {l : Life V} {w : WakerRef} {v : V} (h : l.value = some v) :
      Step l (.awaited w (.ready v)) { l with value := none }
  | awaited {l : Life V} {w : WakerRef} (h : l.stage ≠ .unborn) (hv : l.value = none) :
      Step l (.awaited w .pending) { l with waker := some w }
  | dropped {l : Life V} (h : l.stage = .finished ∨ l.stage.Rests ∧ l.cancelled = true) :
      Step l .dropped { l with stage := .dropped }
  | cleared {l : Life V} (h : l.stage.Rests) : Step l .cleared { l with stage := .dropped }

end Life

/-- A history leads a task to where it is. -/
def Lives (h : List (TaskEvent V)) (l : Life V) : Prop := Leads Life.Step .new h l

/-- The latest poll of the handle in a history, with its answer. -/
def lastAwait (h : List (TaskEvent V)) : Option (WakerRef × Poll V) :=
  h.reverse.findSome? fun
    | .awaited w out => some (w, out)
    | _ => none

theorem lastAwait_concat (h : List (TaskEvent V)) (e : TaskEvent V) :
    lastAwait (h ++ [e]) =
      match e with
      | .awaited w out => some (w, out)
      | _ => lastAwait h := by
  rw [lastAwait, List.reverse_concat, List.findSome?_cons]
  cases e <;> rfl

namespace Lives

variable {h : List (TaskEvent V)} {l : Life V}

/-! ### Polls -/

/-- A task that has been cancelled stays so. -/
theorem cancelled_of_mem {own : Bool} (hl : Lives h l) (hmem : .cancelled own ∈ h) :
    l.cancelled = true := by
  induction hl with
  | nil => exact absurd hmem List.not_mem_nil
  | snoc _ hs ih =>
    rcases List.mem_append.1 hmem with hold | hnew
    · have hc := ih hold
      cases hs
      case cancelled => rfl
      all_goals exact hc
    · obtain rfl := List.mem_singleton.1 hnew
      cases hs
      rfl

/-- A task is cancelled because somebody has cancelled it. -/
theorem exists_cancelled (hl : Lives h l) (hc : l.cancelled = true) :
    ∃ own, .cancelled own ∈ h := by
  induction hl with
  | nil => exact absurd hc (by simp [Life.new])
  | snoc _ hs ih =>
    cases hs
    case cancelled own _ _ => exact ⟨own, List.mem_append_right _ (List.mem_singleton_self _)⟩
    all_goals
      obtain ⟨own, hmem⟩ := ih hc
      exact ⟨own, List.mem_append_left _ hmem⟩

/-- A task that has been cancelled by other code is not being polled. -/
theorem stage_ne_polling (hl : Lives h l) (hmem : .cancelled false ∈ h) : l.stage ≠ .polling := by
  induction hl with
  | nil => exact absurd hmem List.not_mem_nil
  | snoc hl hs ih =>
    rcases List.mem_append.1 hmem with hold | hnew
    · have hc := cancelled_of_mem hl hold
      have hne := ih hold
      cases hs
      case polled hfalse => exact absurd hc (by simp [hfalse])
      case cancelled | taken | awaited => exact hne
      all_goals simp
    · obtain rfl := List.mem_singleton.1 hnew
      cases hs
      case cancelled hown => exact fun hp ↦ absurd (hown.2 hp) (by simp)

/-- A task that has returned ready rests no more. -/
theorem stage_of_completed {v : V} (hl : Lives h l) (hmem : .completed v ∈ h) :
    l.stage = .finished ∨ l.stage = .dropped := by
  induction hl with
  | nil => exact absurd hmem List.not_mem_nil
  | snoc _ hs ih =>
    rcases List.mem_append.1 hmem with hold | hnew
    · have hst := ih hold
      cases hs
      case dropped | cleared => exact Or.inr rfl
      case completed => exact Or.inl rfl
      case cancelled | taken | awaited => exact hst
      -- the other steps are not open to it
      case spawned h | pended h => rcases hst with hst | hst <;> exact absurd hst (by simp [h])
      case polled h _ =>
        rcases h with h | h <;> rcases hst with hst | hst <;> exact absurd hst (by simp [h])
    · obtain rfl := List.mem_singleton.1 hnew
      cases hs
      exact Or.inl rfl

/-- A task that waits for its first poll has not been polled. -/
theorem not_mem_polled (hl : Lives h l) (hst : l.stage = .unborn ∨ l.stage = .waiting) :
    .polled ∉ h := by
  induction hl with
  | nil => exact List.not_mem_nil
  | snoc _ hs ih =>
    rw [List.mem_append, List.mem_singleton, not_or]
    cases hs
    case spawned h => exact ⟨ih (Or.inl h), by simp⟩
    case cancelled | taken | awaited => exact ⟨ih hst, by simp⟩
    all_goals exact absurd hst (by simp)

/-- A task that has been dropped is gone. -/
theorem stage_of_dropped (hl : Lives h l) (hmem : .dropped ∈ h) : l.stage = .dropped := by
  induction hl with
  | nil => exact absurd hmem List.not_mem_nil
  | snoc _ hs ih =>
    rcases List.mem_append.1 hmem with hold | hnew
    · have hst := ih hold
      cases hs
      case cancelled | taken | awaited => exact hst
      case dropped | cleared => rfl
      -- the other steps are not open to it
      case spawned h | pended h | completed h => exact absurd hst (by simp [h])
      case polled h _ => rcases h with h | h <;> exact absurd hst (by simp [h])
    · obtain rfl := List.mem_singleton.1 hnew
      cases hs
      rfl

/-- **A cancelled task rests until it is dropped**, as long as the executor does not clear all. -/
theorem rests_or_dropped {l₀ : Life V} (hl : Leads Life.Step l₀ h l) (hst : l₀.stage.Rests)
    (hc : l₀.cancelled = true) (hcleared : .cleared ∉ h) :
    .dropped ∈ h ∨ l.stage = l₀.stage ∧ l.cancelled = true := by
  induction hl with
  | nil => exact Or.inr ⟨rfl, hc⟩
  | snoc _ hs ih =>
    rw [List.mem_append, List.mem_singleton, not_or] at hcleared
    rw [List.mem_append, List.mem_singleton]
    rcases ih hcleared.1 with hmem | ⟨heq, hcancelled⟩
    · exact Or.inl (Or.inl hmem)
    · cases hs
      case dropped => exact Or.inl (Or.inr rfl)
      case cleared => exact absurd rfl hcleared.2
      case cancelled => exact Or.inr ⟨heq, rfl⟩
      case taken | awaited => exact Or.inr ⟨heq, hcancelled⟩
      case polled hfalse => exact absurd hcancelled (by simp [hfalse])
      case spawned h | pended h | completed h =>
        rw [h] at heq
        rcases hst with hst | hst <;> exact absurd hst (by simp [← heq])

/-- A poll that has begun is over once something else has come of it. -/
theorem polling_or_ended {l₀ : Life V} (hl : Leads Life.Step l₀ h l) (hst : l₀.stage = .polling) :
    l.stage = .polling ∨ .pended ∈ h ∨ ∃ v, .completed v ∈ h := by
  induction hl with
  | nil => exact Or.inl hst
  | snoc _ hs ih =>
    simp only [List.mem_append, List.mem_singleton]
    rcases ih with hp | hp | ⟨v, hv⟩
    · cases hs
      case pended => exact Or.inr (Or.inl (Or.inr rfl))
      case completed v _ => exact Or.inr (Or.inr ⟨v, Or.inr rfl⟩)
      case cancelled | taken | awaited => exact Or.inl hp
      case polled => exact Or.inl rfl
      case spawned h => exact absurd hp (by simp [h])
      case dropped h =>
        rcases h with h | ⟨h | h, -⟩ <;> exact absurd hp (by simp [h])
      case cleared h => rcases h with h | h <;> exact absurd hp (by simp [h])
    · exact Or.inr (Or.inl (Or.inl hp))
    · exact Or.inr (Or.inr ⟨v, Or.inl hv⟩)

/-- **When a task is polled**: not after it has been cancelled, not after it has returned ready, and
not while it is being polled. -/
theorem of_polled {before after : List (TaskEvent V)} (hl : Lives (before ++ .polled :: after) l) :
    (∀ own, .cancelled own ∉ before) ∧ (∀ v, .completed v ∉ before) ∧
      ∀ b₁ b₂, before = b₁ ++ .polled :: b₂ → .pended ∈ b₂ := by
  obtain ⟨u, v, hbefore, hs, -⟩ := Leads.split hl
  obtain ⟨hrests, hc⟩ : u.stage.Rests ∧ u.cancelled = false := by
    cases hs
    case polled h hc => exact ⟨h, hc⟩
  have hcompleted : ∀ v, .completed v ∉ before := by
    intro v hmem
    rcases stage_of_completed hbefore hmem with hst | hst <;> rcases hrests with h | h <;>
      exact absurd hst (by simp [h])
  refine ⟨fun own hmem ↦ ?_, hcompleted, fun b₁ b₂ hb ↦ ?_⟩
  · exact absurd (cancelled_of_mem hbefore hmem) (by simp [hc])
  · rw [hb] at hbefore
    obtain ⟨u₁, u₂, -, hs₁, hb₂⟩ := Leads.split hbefore
    have hpolling : u₂.stage = .polling := by
      cases hs₁
      rfl
    rcases polling_or_ended hb₂ hpolling with h | h | ⟨v, hv⟩
    · rcases hrests with h' | h' <;> exact absurd h (by simp [h'])
    · exact h
    · exact absurd (hb ▸ List.mem_append_right _ (List.mem_cons_of_mem _ hv)) (hcompleted v)

/-! ### The value -/

/-- A value is one that the future has returned. -/
theorem mem_completed_of_value {v : V} (hl : Lives h l) (hv : l.value = some v) :
    .completed v ∈ h := by
  induction hl with
  | nil => exact absurd hv (by simp [Life.new])
  | snoc _ hs ih =>
    rw [List.mem_append]
    cases hs
    case completed =>
      obtain rfl := Option.some.inj hv
      exact Or.inr (List.mem_singleton_self _)
    case taken => exact absurd hv (by simp)
    all_goals exact Or.inl (ih hv)

/-- A value that has been taken is one that the future has returned. -/
theorem exists_completed_of_taken {w : WakerRef} {v : V} (hl : Lives h l)
    (hmem : .awaited w (.ready v) ∈ h) : ∃ v, .completed v ∈ h := by
  induction hl with
  | nil => exact absurd hmem List.not_mem_nil
  | snoc hl hs ih =>
    rcases List.mem_append.1 hmem with hold | hnew
    · obtain ⟨v, hv⟩ := ih hold
      exact ⟨v, List.mem_append_left _ hv⟩
    · obtain rfl := List.mem_singleton.1 hnew
      cases hs
      case taken hv => exact ⟨v, List.mem_append_left _ (mem_completed_of_value hl hv)⟩

/-- A value that is there has not been taken. -/
theorem not_taken_of_value {v : V} (hl : Lives h l) (hv : l.value = some v) (w : WakerRef)
    (v' : V) : .awaited w (.ready v') ∉ h := by
  induction hl with
  | nil => exact List.not_mem_nil
  | snoc hl hs ih =>
    rw [List.mem_append, List.mem_singleton, not_or]
    cases hs
    case completed h =>
      -- before a task is ready there is nothing to take
      refine ⟨fun hmem ↦ ?_, by simp⟩
      obtain ⟨v₀, hv₀⟩ := exists_completed_of_taken hl hmem
      rcases stage_of_completed hl hv₀ with hst | hst <;> exact absurd hst (by simp [h])
    case taken => exact absurd hv (by simp)
    case awaited => exact ⟨ih hv, by simp⟩
    all_goals exact ⟨ih hv, by simp⟩

/-- **When a future returns ready**: once, and not after other code has cancelled the task. -/
theorem of_completed {before after : List (TaskEvent V)} {v : V}
    (hl : Lives (before ++ .completed v :: after) l) :
    (∀ v', .completed v' ∉ before) ∧ .cancelled false ∉ before := by
  obtain ⟨u, _, hbefore, hs, -⟩ := Leads.split hl
  have hpolling : u.stage = .polling := by
    cases hs
    case completed h => exact h
  refine ⟨fun v' hmem ↦ ?_, fun hmem ↦ stage_ne_polling hbefore hmem hpolling⟩
  rcases stage_of_completed hbefore hmem with h | h <;> exact absurd h (by simp [hpolling])

/-- **When a handle gives out a value**: once, and the value that the future has returned, which
other code had not cancelled before. -/
theorem of_taken {before after : List (TaskEvent V)} {w : WakerRef} {v : V}
    (hl : Lives (before ++ .awaited w (.ready v) :: after) l) :
    (∃ b₁ b₂, before = b₁ ++ .completed v :: b₂ ∧ .cancelled false ∉ b₁) ∧
      ∀ w' v', .awaited w' (.ready v') ∉ before := by
  obtain ⟨u, _, hbefore, hs, -⟩ := Leads.split hl
  have hv : u.value = some v := by
    cases hs
    case taken h => exact h
  obtain ⟨b₁, b₂, hb⟩ := List.append_of_mem (mem_completed_of_value hbefore hv)
  refine ⟨⟨b₁, b₂, hb, ?_⟩, not_taken_of_value hbefore hv⟩
  rw [hb] at hbefore
  exact (of_completed hbefore).2

/-- **While the future has not returned ready, the waker of the latest poll of the handle is
there.** -/
theorem waker_of_lastAwait {w : WakerRef} (hl : Lives h l)
    (hlast : lastAwait h = some (w, .pending)) (hnot : ∀ v, .completed v ∉ h) :
    l.waker = some w := by
  induction hl with
  | nil => exact absurd hlast (by simp [lastAwait])
  | snoc hl hs ih =>
    have hold := fun hlast ↦ ih hlast fun v hmem ↦ hnot v (List.mem_append_left _ hmem)
    rw [lastAwait_concat] at hlast
    cases hs
    case completed v _ =>
      exact absurd (List.mem_append_right _ (List.mem_singleton_self _)) (hnot v)
    case awaited =>
      obtain ⟨rfl, -⟩ := Prod.mk.inj (Option.some.inj hlast)
      rfl
    case taken => exact absurd hlast (by simp)
    all_goals exact hold hlast

/-- **A value stays until it is taken.** -/
theorem value_of_completed {v : V} (hl : Lives h l) (hmem : .completed v ∈ h)
    (hnot : ∀ w v', .awaited w (.ready v') ∉ h) : l.value = some v := by
  induction hl with
  | nil => exact absurd hmem List.not_mem_nil
  | snoc hl hs ih =>
    have hkeep := fun hold ↦ ih hold fun w v' htaken ↦ hnot w v' (List.mem_append_left _ htaken)
    rcases List.mem_append.1 hmem with hold | hnew
    · cases hs
      case taken w v' _ =>
        exact absurd (List.mem_append_right _ (List.mem_singleton_self _)) (hnot w v')
      case completed h =>
        -- a task that has returned ready is not polled again
        rcases stage_of_completed hl hold with hst | hst <;> exact absurd hst (by simp [h])
      all_goals exact hkeep hold
    · obtain rfl := List.mem_singleton.1 hnew
      cases hs
      rfl

/-! ### The end -/

theorem stage_of_spawned (hl : Lives h l) (hmem : .spawned ∈ h) : l.stage ≠ .unborn := by
  induction hl with
  | nil => exact absurd hmem List.not_mem_nil
  | snoc _ hs ih =>
    rcases List.mem_append.1 hmem with hold | hnew
    · have hst := ih hold
      cases hs
      case cancelled | taken | awaited => exact hst
      all_goals simp
    · obtain rfl := List.mem_singleton.1 hnew
      cases hs
      simp

/-- **A task is dropped at most once**, and exactly once if that is where it is. -/
theorem countP_isDrop (hl : Lives h l) :
    h.countP TaskEvent.isDrop = if l.stage = .dropped then 1 else 0 := by
  induction hl with
  | nil => rfl
  | snoc _ hs ih =>
    rw [List.countP_append, ih]
    cases hs
    case spawned h | pended h | completed h => simp [h, TaskEvent.isDrop]
    case polled h _ | cleared h => rcases h with h | h <;> simp [h, TaskEvent.isDrop]
    case cancelled | taken | awaited => simp [TaskEvent.isDrop]
    case dropped h => rcases h with h | ⟨h | h, -⟩ <;> simp [h, TaskEvent.isDrop]

/-- **Nothing becomes of a task that has been dropped**: its handle may still be cancelled and
polled, and that is all. -/
theorem of_stage_dropped {l₀ : Life V} (hl : Leads Life.Step l₀ h l) (hst : l₀.stage = .dropped) :
    l.stage = .dropped ∧ ∀ e ∈ h, (∃ own, e = .cancelled own) ∨ ∃ w out, e = .awaited w out := by
  induction hl with
  | nil => exact ⟨hst, fun _ he ↦ absurd he List.not_mem_nil⟩
  | snoc _ hs ih =>
    obtain ⟨hst', hevents⟩ := ih
    simp only [List.mem_append, List.mem_singleton, or_imp, forall_and, forall_eq]
    cases hs
    case cancelled own _ _ => exact ⟨hst', hevents, Or.inl ⟨own, rfl⟩⟩
    case taken w v _ | awaited w _ _ => exact ⟨hst', hevents, Or.inr ⟨w, _, rfl⟩⟩
    -- the other steps are not open to it
    case spawned h | pended h | completed h => exact absurd hst' (by simp [h])
    case polled h _ | cleared h => rcases h with h | h <;> exact absurd hst' (by simp [h])
    case dropped h => rcases h with h | ⟨h | h, -⟩ <;> exact absurd hst' (by simp [h])

end Lives

end LocalRuntime
