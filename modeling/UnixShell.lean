import UnixShell.Foundation.Runs
import UnixShell.Foundation.LinkedQueue
import UnixShell.Foundation.RunnerUp
import UnixShell.Foundation.Transfers
import UnixShell.Foundation.Words
import UnixShell.Foundation.ReferenceCount
import UnixShell.Foundation.Descriptors
import UnixShell.Foundation.Numerals
import UnixShell.Foundation.Lines
import UnixShell.Foundation.ReadAhead
import UnixShell.Foundation.Tilings
import UnixShell.Foundation.Heaps
import UnixShell.Foundation.Requests
import UnixShell.Foundation.Journals
import UnixShell.Parser.Lines
import UnixShell.Parser.Grammar
import UnixShell.Parser.Bounds
import UnixShell.Parser.Quoting
import UnixShell.Parser.Tokens
import UnixShell.Parser.Plain
import UnixShell.Parser.Acceptance
import UnixShell.Parser.Pointers
import UnixShell.Parser.Renderings
import UnixShell.Parser.Spellings
import UnixShell.Parser.Storage
import UnixShell.Parser.Ledger
import UnixShell.Parser.Overruns
import UnixShell.Pipes.System
import UnixShell.Pipes.Wiring
import UnixShell.Pipes.Failures
import UnixShell.Pipes.Basic
import UnixShell.Scheduler.Task
import UnixShell.Scheduler.Queue
import UnixShell.Scheduler.System
import UnixShell.Scheduler.Records
import UnixShell.Scheduler.Placement
import UnixShell.Scheduler.Accounting
import UnixShell.Scheduler.Effects
import UnixShell.Scheduler.Refinement
import UnixShell.Scheduler.LinkedRuns
import UnixShell.Scheduler.Conservation
import UnixShell.Scheduler.Lifetimes
import UnixShell.Scheduler.Stopping
import UnixShell.Scheduler.Wakeups
import UnixShell.Scheduler.Dispatch
import UnixShell.Scheduler.Cancellation
import UnixShell.Scheduler.Preemption
import UnixShell.Scheduler.Draining
import UnixShell.Scheduler.Resting
import UnixShell.Scheduler.Lifecycle
import UnixShell.Scheduler.Harness
import UnixShell.Scheduler.HarnessRuns
import UnixShell.Server.Context
import UnixShell.Server.Executor
import UnixShell.Server.System
import UnixShell.Server.Moves
import UnixShell.Server.Turns
import UnixShell.Server.Threads
import UnixShell.Server.Rounds
import UnixShell.Server.Polling
import UnixShell.Server.Completion
import UnixShell.Server.Clients
import UnixShell.Server.Connections
import UnixShell.Server.Settling
import UnixShell.Server.Answers
import UnixShell.Server.Arguments
import UnixShell.Server.Holding
import UnixShell.Server.Footprint
import UnixShell.Server.References
import UnixShell.Server.Children
import UnixShell.Server.Dialogue
import UnixShell.Server.Contexts
import UnixShell.Server.Bursts
import UnixShell.Server.Piping
import UnixShell.Server.Output
import UnixShell.Server.Readings
import UnixShell.Server.Blocking
import UnixShell.Server.Disconnects
import UnixShell.Server.Timeline
import UnixShell.Server.Summaries
import UnixShell.Server.Batches
import UnixShell.Server.Demo
import UnixShell.Server.Vectors
import UnixShell.Server.Creation
import UnixShell.Server.Fillings
import UnixShell.Server.Remains
import UnixShell.Server.Overwrites
import UnixShell.Server.Tiles
import UnixShell.Server.Transcripts
import UnixShell.Server.Console
import UnixShell.Protocol.Framing
import UnixShell.Protocol.Display
import UnixShell.Protocol.Commands
import UnixShell.Session.System
import UnixShell.Session.Stream
import UnixShell.Session.Reasons
import UnixShell.Session.Replies
import UnixShell.Session.Alternation
import UnixShell.Shell.Invocation
import UnixShell.Shell.Unclosed
import UnixShell.Shell.Interactive
import UnixShell.Shell.Capture
import UnixShell.Shell.Exits
import UnixShell.Shell.Leaks
import UnixShell.Shell.Foreground
