import PosixSignals.Signal.Basic
import PosixSignals.Signal.Set
import PosixSignals.Signal.Info
import PosixSignals.Errno
import PosixSignals.Configuration
import PosixSignals.Limits
import PosixSignals.SystemInfo
import PosixSignals.Disposition.Basic
import PosixSignals.Disposition.Table
import PosixSignals.Inbox
import PosixSignals.IdPool
import PosixSignals.Lock
import PosixSignals.Text.Blank
import PosixSignals.Text.Field
import PosixSignals.Trace.Level
import PosixSignals.Trace.Line
import PosixSignals.Trace.Script
import PosixSignals.Process.Status
import PosixSignals.Process.WaitOptions
import PosixSignals.Process.Program
import PosixSignals.Process.Task
import PosixSignals.Process.Event
import PosixSignals.Process.Basic
import PosixSignals.Process.Generation
import PosixSignals.Process.Delivery
import PosixSignals.Process.Waiting
import PosixSignals.Process.Calls
import PosixSignals.Process.Step
import PosixSignals.System.Registry
import PosixSignals.System.Basic
import PosixSignals.System.Lifecycle
import PosixSignals.System.Calls
import PosixSignals.System.Step
import PosixSignals.System.Journal
import PosixSignals.Scenario.Basic
import PosixSignals.Scenario.Observation
import PosixSignals.Scenario.Run
import PosixSignals.Proofs.Scenario.MaskDiscipline
import PosixSignals.Proofs.Scenario.Results
import PosixSignals.Proofs.Scenario.CheckPoint
import PosixSignals.Proofs.Scenario.Reentry
import PosixSignals.Proofs.Scenario.Wakeup
import PosixSignals.Proofs.Scenario.Conservation
import PosixSignals.Proofs.Scenario.Forest
import PosixSignals.Proofs.Scenario.Groups
import PosixSignals.Proofs.Scenario.Unwinding
import PosixSignals.Proofs.Process.Interruption
import PosixSignals.Proofs.Scenario.Interruption
import PosixSignals.Proofs.Scenario.Reason
import PosixSignals.Proofs.Scenario.Endings
import PosixSignals.Proofs.Process.Candour
import PosixSignals.Proofs.Scenario.Candour
import PosixSignals.Proofs.Scenario.Marks
import PosixSignals.Proofs.Process.Status
import PosixSignals.Proofs.Scenario.Truthfulness
import PosixSignals.Proofs.Inbox.PartialMap
import PosixSignals.Proofs.Scenario.Untouchable
import PosixSignals.Proofs.Pool.Supply
import PosixSignals.Proofs.Scenario.Numbers
import PosixSignals.Proofs.Scenario.Looks
import PosixSignals.Proofs.Scenario.Reaped
import PosixSignals.Proofs.Scenario.Mourning
import PosixSignals.Proofs.Scenario.Owed
import PosixSignals.Proofs.Scenario.ReapedOnce
import PosixSignals.Proofs.Pool.Rotation
import PosixSignals.Proofs.Trace.Nesting
import PosixSignals.Proofs.Scenario.Continuity
import PosixSignals.Proofs.Scenario.LimitsKept
import PosixSignals.Proofs.Scenario.Limits
import PosixSignals.Proofs.Scenario.Isolation
import PosixSignals.Proofs.Pool.Search
import PosixSignals.Proofs.Scenario.Deliveries
import PosixSignals.Proofs.Scenario.Suspension
import PosixSignals.Proofs.Scenario.SignalWait
import PosixSignals.Proofs.Signal.Walk
import PosixSignals.Proofs.Scenario.Sending
import PosixSignals.Proofs.Scenario.Respect
import PosixSignals.Proofs.Process.Installations
import PosixSignals.Proofs.Scenario.OneShot
import PosixSignals.Proofs.Scenario.FailedCalls
