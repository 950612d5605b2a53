import LocalRuntime.Lib.Machine
import LocalRuntime.Lib.AtomicWaker
import LocalRuntime.Lib.Slab
import LocalRuntime.Time.TimerQueue
import LocalRuntime.Time.Timer
import LocalRuntime.Time.PendingTimers
import LocalRuntime.Time.Periodic
import LocalRuntime.Reactor.Basic
import LocalRuntime.Reactor.Unix
import LocalRuntime.Reactor.Timeouts
import LocalRuntime.Reactor.Wait
import LocalRuntime.Reactor.Events
import LocalRuntime.Reactor.History
import LocalRuntime.Reactor.BlockOn
import LocalRuntime.Reactor.Nested
import LocalRuntime.Io.Async
import LocalRuntime.Io.Ready
import LocalRuntime.Executor.Basic
import LocalRuntime.Executor.Run
import LocalRuntime.Executor.Borrow
import LocalRuntime.Executor.Wakeups
import LocalRuntime.Executor.Reset
import LocalRuntime.Executor.BaseWaker
import LocalRuntime.Executor.Spawned
import LocalRuntime.Executor.LifeCycle
import LocalRuntime.Executor.Tasks
import LocalRuntime.Executor.Histories
import LocalRuntime.Executor.Drain
import LocalRuntime.Executor.PollTasks
import LocalRuntime.Executor.Handles
import LocalRuntime.Executor.Cancel
import LocalRuntime.Executor.TaskLives
import LocalRuntime.Executor.MainEvents
import LocalRuntime.Executor.Overlap
import LocalRuntime.Executor.MainWakeups
import LocalRuntime.Executor.Ledger
import LocalRuntime.Executor.QueueBound
import LocalRuntime.Concurrency.FlagWaker
import LocalRuntime.Concurrency.Merge
import LocalRuntime.Concurrency.Join
import LocalRuntime.Concurrency.JoinResults
import LocalRuntime.Concurrency.Wakeups
import LocalRuntime.Concurrency.MinimalPolling
import LocalRuntime.Concurrency.Fairness
import LocalRuntime.Executor.BlockOn
import LocalRuntime.Time.Expiry
import LocalRuntime.Reactor.Deadlines
import LocalRuntime.Io.Tcp
import LocalRuntime.Time.Timeout
import LocalRuntime.Io.Descriptors
import LocalRuntime.Reactor.Notifications
import LocalRuntime.Concurrency.Combinator
import LocalRuntime.Concurrency.Nested
import LocalRuntime.Io.Stream
import LocalRuntime.Executor.Completion
import LocalRuntime.Executor.Fairness
import LocalRuntime.Executor.Termination
