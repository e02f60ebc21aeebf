import UnixShell.Server.Context
import UnixShell.Scheduler.System

/-! # The executor, step by step

`execute_program_task` is cut at every point where another thread may act or the
operating system answers. The way a round ends is a value, with the operations that
are still to be done and the result that is returned to the scheduler.
-/
namespace UnixShell.Server
open Scheduler

/-- The calls of `task_context_drain_pipe`. -/
inductive Site
  | tick
  | reaped
  | preempted
  | quantumEnd
  | final
  deriving DecidableEq, Repr

inductive Exit
  | noContext
  | noArgv
  | startFailed
  | resumeFailed
  | cancelled
  | drainFailed (site : Site)
  | reaped
  | preempted
  | quantumEnd
  | final
  | shellNoLine
  | shellDone (exitRequested : Bool) (output : Text)
  | shellNoOutput
  deriving DecidableEq, Repr

inductive ExitOp
  | terminateChild
  /-- `duplicate_text` of a message, and `set_done` where it succeeds. -/
  | fail (message : String)
  | setDone (exitRequested : Bool) (output : Text)
  /-- `set_done` with the output collected so far. -/
  | finishDone
  | advanceClock (preempted : Bool)
  | appendSlice
  deriving DecidableEq, Repr

def captureFailed : ExitOp := .fail "Failed while capturing program output.\n"

/-- What is done between the decision to leave and the `return`. -/
def exitOps : Exit → List ExitOp
  | .noContext => []
  | .noArgv => [.fail "Invalid program task.\n"]
  | .startFailed => [.fail "Failed to start demo program.\n"]
  | .resumeFailed => [.fail "Failed to resume demo program.\n"]
  | .cancelled => [.terminateChild,.advanceClock false,.appendSlice]
  | .drainFailed .tick => [.terminateChild,captureFailed,.advanceClock false,.appendSlice]
  -- the exit after a reaped child appends no slice
  | .drainFailed .reaped => [captureFailed,.advanceClock false]
  | .drainFailed _ => [captureFailed,.advanceClock false,.appendSlice]
  | .reaped => [.advanceClock false,.appendSlice,.finishDone]
  | .preempted => [.advanceClock true,.appendSlice]
  | .quantumEnd => [.advanceClock true,.appendSlice]
  | .final => [.advanceClock false,.appendSlice,.finishDone]
  | .shellNoLine => [.fail "Failed to allocate shell command buffer.\n"]
  | .shellDone exitRequested output => [.setDone exitRequested output]
  | .shellNoOutput => []

def exitResult : Exit → TaskRunResult
  | .noContext => .failed
  | .noArgv => .failed
  | .startFailed => .failed
  | .resumeFailed => .failed
  | .cancelled => .cancelled
  | .drainFailed .tick => .requeue
  | .drainFailed .reaped => .failed
  | .drainFailed .preempted => .requeue
  | .drainFailed .quantumEnd => .requeue
  | .drainFailed .final => .failed
  | .reaped => .complete
  | .preempted => .requeue
  | .quantumEnd => .requeue
  | .final => .complete
  | .shellNoLine => .failed
  | .shellDone _ _ => .complete
  | .shellNoOutput => .failed

/-- Where the scheduler thread stands in the executor. -/
inductive ExecutorPc
  | start
  | shell
  | program
  | loopTest
  | sleeping
  | draining (site : Site)
  | sending (site : Site) (chunk : Text) (pieces : List Piece)
  | decrement
  | reap
  | pollPreempt
  | afterLoop
  | waitChild
  | exiting (exit : Exit) (ops : List ExitOp)
  | returned (exit : Exit)
  deriving DecidableEq, Repr

structure Round where
  task : TaskRef
  context : ContextRef
  quantum : ℤ
  slice : ℤ
  slicesRun : ℤ
  sliceEnd : ℤ
  pc : ExecutorPc
  deriving DecidableEq, Repr

/-- Timeline of the summary, its slices in order. -/
structure Clock where
  timeline : List (ℤ × ℤ)
  hadPreemption : Bool
  currentSliceStartTime : ℤ
  deriving DecidableEq, Repr

def maxTimelineSlices : ℕ := 100

def appendTimelineSlice (clock : Clock) (clientNumber sliceEnd : ℤ) : Clock :=
  if clock.timeline.length < maxTimelineSlices then
    { clock with timeline := clock.timeline ++ [(clientNumber,sliceEnd)] }
  else clock

/-- The history of the server: calls of the executor, its ticks and polls, every
piece written to a connection, and every `set_done`. -/
inductive ServerEvent
  | invoked (task : TaskRef)
  | tick (task : TaskRef)
  | polled (task : TaskRef)
  | roundEnded (task : TaskRef)
  | setDone (context : ContextRef)
  | progress (connection : ThreadId) (context : ContextRef) (piece : Piece)
  /-- A `send_all` of a progress packet failed. -/
  | sendFailed (context : ContextRef)
  | answer (connection : ThreadId) (context : ContextRef) (piece : Piece)
  | answered (context : ContextRef)
  | farewell (connection : ThreadId) (piece : Piece)
  | printed (timeline : List (ℤ × ℤ))
  deriving DecidableEq, Repr

/-- What the executor sees: its task and the two polls, its context, and the world. -/
structure View where
  task : Task
  shouldCancel : Bool
  shouldPreempt : Bool
  context : TaskContext
  connection : Option ThreadId
  procs : Processes
  nextPid : Pid
  clock : Clock

/-- What one step of the executor leaves behind. -/
structure Move where
  round : Round
  context : TaskContext
  procs : Processes
  nextPid : Pid
  clock : Clock
  action : Option Action
  events : List ServerEvent

/-- Answers of the operating system and of the allocator. -/
inductive Input
  | go
  | started (ok : Bool)
  | resumed (ok : Bool)
  | readSome (size : ℕ) (allocOk : Bool)
  | readEof
  | readAgain
  | readError
  | sent (ok : Bool)
  | allocated (ok : Bool)
  | shellRun (lineOk exitRequested : Bool) (captured : Option Text) (textOk : Bool)
  deriving DecidableEq, Repr

section Steps
variable (v : View) (r : Round)

/-- Nothing but the point of control changes. -/
def goto (pc : ExecutorPc) : Move where
  round := { r with pc := pc }
  context := v.context
  procs := v.procs
  nextPid := v.nextPid
  clock := v.clock
  action := none
  events := []

def leave (exit : Exit) : Move := goto v r (.exiting exit (exitOps exit))

def executeShellTask : Input → Option Move
  | .shellRun lineOk exitRequested captured textOk =>
    if lineOk then
      match captured with
      | some output => some (leave v r (.shellDone exitRequested output))
      | none =>
        if textOk then
          some (leave v r (.shellDone exitRequested "Failed to capture shell output.\n".toList))
        else some (leave v r .shellNoOutput)
    else some (leave v r .shellNoLine)
  | _ => none

/-- The head of `execute_program_task`: start the child or let it go on. -/
def executeProgramTask (i : Input) : Option Move :=
  match v.context.argv with
  | none => some (leave v r .noArgv)
  | some _ =>
    match v.context.childPid,i with
    | none,.started true =>
      let started := taskContextStartChild v.context v.procs v.nextPid
      some { goto v r .loopTest with
        context := started.1
        procs := started.2
        nextPid := v.nextPid + 1 }
    | none,.started false => some (leave v r .startFailed)
    | some _,.resumed ok =>
      if v.context.childRunning then some (goto v r .loopTest)
      else if ok then
        let resumed := taskContextResumeChild v.context v.procs
        some { goto v r .loopTest with context := resumed.1, procs := resumed.2 }
      else some (leave v r .resumeFailed)
    | _,_ => none

/-- The loop's condition and, inside, the cancellation poll before the sleep. -/
def loopTest : Move :=
  if r.slice < r.quantum ∧ 0 < v.task.remainingBurst then
    if v.shouldCancel || v.task.cancelRequested then leave v r .cancelled
    else { goto v r .sleeping with events := [.tick r.task] }
  else goto v r .afterLoop

/-- Where control goes when `task_context_drain_pipe` returns. -/
def drained (ok : Bool) : Site → ExecutorPc
  | .tick => if ok then .decrement else .exiting (.drainFailed .tick) (exitOps (.drainFailed .tick))
  | .reaped =>
    if ok then .exiting .reaped (exitOps .reaped)
    else .exiting (.drainFailed .reaped) (exitOps (.drainFailed .reaped))
  | .preempted =>
    if ok then .exiting .preempted (exitOps .preempted)
    else .exiting (.drainFailed .preempted) (exitOps (.drainFailed .preempted))
  | .quantumEnd =>
    if ok then .exiting .quantumEnd (exitOps .quantumEnd)
    else .exiting (.drainFailed .quantumEnd) (exitOps (.drainFailed .quantumEnd))
  | .final =>
    if ok then .exiting .final (exitOps .final)
    else .exiting (.drainFailed .final) (exitOps (.drainFailed .final))

/-- One `read` of `task_context_drain_pipe`. Without a pipe it returns at once. -/
def taskContextDrainPipe (site : Site) (i : Input) : Option Move :=
  match v.context.pipeFd,i with
  | none,.go => some (goto v r (drained true site))
  | some pid,.readSome size allocOk =>
    let chunk := (v.procs pid).pipe.take size
    if 0 < chunk.length ∧ size ≤ 512 then
      let read := { v.procs pid with pipe := (v.procs pid).pipe.drop size }
      let m := { goto v r (.draining site) with procs := Function.update v.procs pid read }
      if streams v.context then
        some { m with
          round := { r with pc := .sending site chunk (packetPieces .serverProgress chunk) } }
      else if allocOk then some { m with context := taskContextAppend v.context chunk }
      else some { m with round := { r with pc := drained false site } }
    else none
  | some pid,.readEof =>
    if (v.procs pid).pipe = [] ∧ !(v.procs pid).alive then
      some { goto v r (drained true site) with context := { v.context with pipeFd := none } }
    else none
  | some _,.readAgain => some (goto v r (drained true site))
  | some _,.readError => some (goto v r (drained false site))
  | _,_ => none

/-- One `send_all` of a progress packet. Without a connection it cannot succeed. -/
def sendProgress (site : Site) (chunk : Text) (pieces : List Piece) (i : Input) : Option Move :=
  match pieces,i,v.connection with
  | piece :: rest,.sent true,some connection =>
    let m := { goto v r (.sending site chunk rest) with
      events := [.progress connection r.context piece] }
    if rest = [] then
      some { m with
        round := { r with pc := .draining site }
        context := { v.context with
          bytesSentTotal := v.context.bytesSentTotal + chunk.length } }
    else some m
  | _ :: _,.sent false,_ =>
    some { goto v r (drained false site) with events := [.sendFailed r.context] }
  | _,_,_ => none

/-- `waitpid` with `WNOHANG`: a child that has exited uses up the burst. -/
def reap : Move :=
  match v.context.childPid with
  | some pid =>
    if (v.procs pid).state = .zombie then
      let reaped := childReaped v.context v.procs pid
      { goto v r (.draining .reaped) with
        context := reaped.1
        procs := reaped.2
        action := some (.setBurst 0) }
    else goto v r .pollPreempt
  | none => goto v r .pollPreempt

def stopAndDrain (site : Site) : Move :=
  let stopped := taskContextStopChild v.context v.procs
  { goto v r (.draining site) with context := stopped.1, procs := stopped.2 }

def pollPreempt : Move :=
  let m := if v.shouldPreempt then stopAndDrain v r .preempted
    else goto v { r with slice := r.slice + 1 } .loopTest
  { m with events := [.polled r.task] }

def afterLoop : Move :=
  if 0 < v.task.remainingBurst then stopAndDrain v r .quantumEnd
  else
    match v.context.childPid with
    | some _ => goto v r .waitChild
    | none => goto v r (.draining .final)

/-- `waitpid` without `WNOHANG` returns when the child has exited. -/
def waitChild : Option Move :=
  match v.context.childPid with
  | some pid =>
    if (v.procs pid).state = .zombie then
      let reaped := childReaped v.context v.procs pid
      some { goto v r (.draining .final) with context := reaped.1, procs := reaped.2 }
    else none
  | none => none

def doneWith (m : Move) (status : Status) (output : Text) : Move :=
  { m with context := taskContextSetDone v.context status output, events := [.setDone r.context] }

/-- One operation on the way out. -/
def exitStep (exit : Exit) (op : ExitOp) (rest : List ExitOp) (i : Input) : Option Move :=
  let m := goto v r (.exiting exit rest)
  match op,i with
  | .terminateChild,.go =>
    let ended := taskContextTerminateChild v.context v.procs
    some { m with context := ended.1, procs := ended.2 }
  | .fail message,.allocated ok =>
    if ok then some (doneWith v r m .serverContinue message.toList) else some m
  | .setDone exitRequested output,.go =>
    some (doneWith v r m (if exitRequested then .serverExit else .serverContinue) output)
  | .finishDone,.go => some (doneWith v r m .serverContinue v.context.output)
  | .advanceClock preempted,.go =>
    let start := v.clock.currentSliceStartTime + r.slicesRun
    some { m with
      round := { r with sliceEnd := start, pc := .exiting exit rest }
      clock := { v.clock with
        currentSliceStartTime := start
        hadPreemption := preempted || v.clock.hadPreemption } }
  | .appendSlice,.go =>
    if 0 < r.slicesRun then
      some { m with clock := appendTimelineSlice v.clock v.task.clientNumber r.sliceEnd }
    else some m
  | _,_ => none

/-- One step of `server_task_executor`. -/
def serverTaskExecutor (i : Input) : Option Move :=
  match r.pc,i with
  | .start,.go =>
    if v.task.userData = none then some (leave v r .noContext)
    else
      match v.task.type with
      | .shell => some (goto v r .shell)
      | .program => some (goto v r .program)
  | .shell,i => executeShellTask v r i
  | .program,i => executeProgramTask v r i
  | .loopTest,.go => some (loopTest v r)
  | .sleeping,.go => some (goto v { r with slicesRun := r.slicesRun + 1 } (.draining .tick))
  | .draining site,i => taskContextDrainPipe v r site i
  | .sending site chunk pieces,i => sendProgress v r site chunk pieces i
  | .decrement,.go =>
    some { goto v r .reap with
      action := if 0 < v.task.remainingBurst then some (.setBurst (v.task.remainingBurst - 1))
        else none }
  | .reap,.go => some (reap v r)
  | .pollPreempt,.go => some (pollPreempt v r)
  | .afterLoop,.go => some (afterLoop v r)
  | .waitChild,.go => waitChild v r
  | .exiting exit (op :: rest),i => exitStep v r exit op rest i
  | .exiting exit [],.go =>
    some { goto v r (.returned exit) with
      action := some (.result (exitResult exit))
      events := [.roundEnded r.task] }
  | _,_ => none

end Steps

end UnixShell.Server
