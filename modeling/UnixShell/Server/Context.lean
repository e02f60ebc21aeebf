import UnixShell.Scheduler.Task
import Mathlib.Logic.Function.Basic

/-! # Task contexts and child processes

A context is what a client thread and the executor share about one task. The size of
the stored output is its length. Descriptors of sockets are numbers; a pipe is named
by the child that writes to it. A character stands for one byte.
-/
namespace UnixShell.Server
open Scheduler

abbrev Fd := ℕ
abbrev Pid := ℕ
abbrev Text := List Char

inductive Status
  | serverContinue
  | serverExit
  | serverProgress
  deriving DecidableEq, Repr

inductive ProcessState
  | running
  | stopped
  | zombie
  | reaped
  deriving DecidableEq, Repr

/-- A child and the bytes in its pipe that nobody has read. -/
structure Process where
  state : ProcessState
  pipe : Text
  deriving DecidableEq, Repr

/-- The write end of the pipe is open. -/
def Process.alive (p : Process) : Bool := p.state = .running || p.state = .stopped

structure TaskContext where
  refcount : ℤ
  done : Bool
  responseStatus : Status
  output : Text
  bytesSentTotal : ℕ
  argv : Option (List Text)
  childPid : Option Pid
  childRunning : Bool
  pipeFd : Option Pid
  initialBurst : ℤ
  socketFd : Option Fd
  deriving DecidableEq, Repr

def taskContextCreate : TaskContext where
  refcount := 2
  done := false
  responseStatus := .serverContinue
  output := []
  bytesSentTotal := 0
  argv := none
  childPid := none
  childRunning := false
  pipeFd := none
  initialBurst := 0
  socketFd := none

/-- The part of a packet that one call of `send_all` writes. -/
inductive Piece
  | status (status : Status)
  | size (size : ℕ)
  | payload (bytes : Text)
  deriving DecidableEq, Repr

/-- The calls of `send_all` for one packet, as in `send_response`. -/
def packetPieces (status : Status) (payload : Text) : List Piece :=
  [.status status,.size payload.length] ++ if payload = [] then [] else [.payload payload]

def taskContextSetDone (context : TaskContext) (status : Status) (output : Text) : TaskContext :=
  { context with
    responseStatus := status
    output := output
    bytesSentTotal := if context.initialBurst ≤ 0 then output.length else context.bytesSentTotal
    done := true }

def taskContextAppend (context : TaskContext) (bytes : Text) : TaskContext :=
  { context with output := context.output ++ bytes }

/-- Progress packets go out only for tasks with a burst and a socket. -/
def streams (context : TaskContext) : Bool :=
  decide (0 < context.initialBurst) && context.socketFd.isSome

section Children

abbrev Processes := Pid → Process

def setState (procs : Processes) (pid : Pid) (state : ProcessState) : Processes :=
  Function.update procs pid { procs pid with state := state }

/-- `kill` with a signal that ends the child, and the `waitpid` that follows. -/
def killAndReap (procs : Processes) (pid : Option Pid) : Processes :=
  match pid with
  | none => procs
  | some pid => setState procs pid .reaped

def taskContextStopChild (context : TaskContext) (procs : Processes) : TaskContext × Processes :=
  match context.childPid with
  | some pid =>
    if context.childRunning then
      ({ context with childRunning := false },
        if (procs pid).state = .running then setState procs pid .stopped else procs)
    else (context,procs)
  | none => (context,procs)

def taskContextTerminateChild (context : TaskContext) (procs : Processes) :
    TaskContext × Processes :=
  ({ context with childPid := none, childRunning := false, pipeFd := none },
    killAndReap procs context.childPid)

/-- `task_context_start_child` where `pipe`, `fork` and `fcntl` succeed. -/
def taskContextStartChild (context : TaskContext) (procs : Processes) (pid : Pid) :
    TaskContext × Processes :=
  ({ context with childPid := some pid, childRunning := true, pipeFd := some pid },
    Function.update procs pid { state := .running, pipe := [] })

/-- `task_context_resume_child` where `kill` succeeds or finds no process. -/
def taskContextResumeChild (context : TaskContext) (procs : Processes) : TaskContext × Processes :=
  match context.childPid with
  | some pid =>
    if context.childRunning then (context,procs)
    else
      ({ context with childRunning := true },
        if (procs pid).state = .stopped then setState procs pid .running else procs)
  | none => (context,procs)

/-- What happens to the child that `waitpid` returned. -/
def childReaped (context : TaskContext) (procs : Processes) (pid : Pid) : TaskContext × Processes :=
  ({ context with childPid := none, childRunning := false },setState procs pid .reaped)

/-- One side lets go of the context; the last one releases what it holds. -/
def taskContextRelease (context : TaskContext) (procs : Processes) : TaskContext × Processes :=
  let context := { context with refcount := context.refcount - 1 }
  if context.refcount = 0 then
    ({ context with pipeFd := none, argv := none, output := [] },
      killAndReap procs context.childPid)
  else (context,procs)

end Children

end UnixShell.Server
