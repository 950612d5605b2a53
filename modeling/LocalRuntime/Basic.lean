import Mathlib

/-!
# Shared vocabulary

The names the whole crate shares: the answer of a poll, the size of a machine word, and the way time
is measured. Instants and durations are numbers of nanoseconds; every operation of the source that
reads the clock takes the reading as an argument.
-/

namespace LocalRuntime

/-- The answer of `Future::poll` and `Stream::poll_next`. -/
inductive Poll (α : Type*) where
  | pending
  | ready (out : α)
  deriving DecidableEq

/-- `Poll::is_ready`. -/
def Poll.isReady {α : Type*} : Poll α → Bool
  | pending => false
  | ready _ => true

/-- `usize::MAX` on a 64-bit target. -/
def USIZE_MAX : ℕ := 2 ^ 64 - 1

/-- A point in time. -/
abbrev Instant := ℕ

/-- A span of time. -/
abbrev Duration := ℕ

end LocalRuntime
