import Mathlib.Data.Int.Notation
import Mathlib.Data.Nat.Notation

/-! # Task records and the scheduler's shared data

A task record is named by the address that `scheduler_create_task` got for it;
addresses are never reused, so a name stands for one record for ever. The link
field of a record is not part of it: links live in the queue representation.
Counters are unbounded.
-/
namespace UnixShell.Scheduler

abbrev TaskRef := ℕ
abbrev ContextRef := ℕ
/-- The threads that call into the scheduler. -/
abbrev ThreadId := ℕ

inductive TaskType
  | shell
  | program
  deriving DecidableEq, Repr

inductive TaskState
  | waiting
  | running
  | finished
  | cancelled
  deriving DecidableEq, Repr

inductive TaskRunResult
  | complete
  | requeue
  | cancelled
  | failed
  deriving DecidableEq, Repr

structure Task where
  taskId : ℤ
  clientNumber : ℤ
  type : TaskType
  state : TaskState
  predictedBurst : ℤ
  remainingBurst : ℤ
  roundsCompleted : ℕ
  arrivalOrder : ℕ
  preemptRequested : Bool
  cancelRequested : Bool
  commandText : Option (List Char)
  userData : Option ContextRef
  deriving DecidableEq, Repr

structure SchedulerConfig where
  firstRoundQuantum : ℤ
  laterRoundQuantum : ℤ
  defaultProgramBurst : ℤ
  deriving DecidableEq, Repr

def defaultFirstRoundQuantum : ℤ := 3
def defaultLaterRoundQuantum : ℤ := 7
def defaultProgramBurst : ℤ := 5

/-- The configuration a scheduler runs with: `scheduler_init` leaves no tunable
value below one. -/
structure PolicyConfig extends SchedulerConfig where
  firstRoundQuantum_pos : 0 < firstRoundQuantum
  laterRoundQuantum_pos : 0 < laterRoundQuantum
  defaultProgramBurst_pos : 0 < defaultProgramBurst

/-- A requested value, or the default when the request is missing or not positive. -/
def positiveOr (requested : Option ℤ) (default : {n : ℤ // 0 < n}) : {n : ℤ // 0 < n} :=
  match requested with
  | none => default
  | some n => if h : 0 < n then ⟨n,h⟩ else default

/-- The configuration part of `scheduler_init`. -/
def initConfig (config : Option SchedulerConfig) : PolicyConfig :=
  let first := positiveOr (config.map (·.firstRoundQuantum)) ⟨defaultFirstRoundQuantum,by decide⟩
  let later := positiveOr (config.map (·.laterRoundQuantum)) ⟨defaultLaterRoundQuantum,by decide⟩
  let burst := positiveOr (config.map (·.defaultProgramBurst)) ⟨defaultProgramBurst,by decide⟩
  { firstRoundQuantum := first.val
    laterRoundQuantum := later.val
    defaultProgramBurst := burst.val
    firstRoundQuantum_pos := first.property
    laterRoundQuantum_pos := later.property
    defaultProgramBurst_pos := burst.property }

/-- What the scheduler's logger is told about a task. -/
inductive LogEvent
  | enqueue
  | preemptRequest
  | dispatch
  | waiting
  | cancel
  | finish
  | fail
  deriving DecidableEq, Repr

/-- The history of a run: logger calls with their quantum, records taken out of the
queue by a cancellation, and records handed to the cleanup callback (or destroyed,
when there is none). -/
inductive Event
  | log (event : LogEvent) (task : TaskRef) (quantum : ℤ)
  | unlinked (task : TaskRef)
  | cleanup (task : TaskRef)
  deriving DecidableEq, Repr

/-- Where the scheduler thread stands: before taking the lock at the loop's head, in
`pthread_cond_wait` (with a signal delivered since its last test or not), inside the
executor, back from it and before the second critical section, or past the loop. -/
inductive MainThread
  | top
  | blocked (signalled : Bool)
  | executing (task : TaskRef) (quantum : ℤ)
  | returned (task : TaskRef) (quantum : ℤ) (result : TaskRunResult)
  | exited
  deriving DecidableEq, Repr

/-- The task a thread holds that is not at the loop's head. -/
def MainThread.task : MainThread → Option TaskRef
  | .executing t _ => some t
  | .returned t _ _ => some t
  | _ => none

/-- Only the scheduler thread ever waits on `queue_ready`, so a signal and a
broadcast do the same, and nothing unless it is waiting. -/
def MainThread.signal : MainThread → MainThread
  | .blocked _ => .blocked true
  | m => m

@[simp] theorem MainThread.signal_task (m : MainThread) : m.signal.task = m.task := by
  cases m <;> rfl

theorem MainThread.signal_ne_blocked (m : MainThread) : m.signal ≠ .blocked false := by
  cases m <;> simp [MainThread.signal]

/-- The shared scheduler data without the queue, and the scheduler thread. -/
structure Core where
  tasks : TaskRef → Task
  allocated : ℕ
  currentTask : Option TaskRef
  stopRequested : Bool
  activeTaskCount : ℤ
  queuedSignalCount : ℕ
  nextTaskId : ℤ
  lastSelectedTaskId : ℤ
  nextArrivalOrder : ℕ
  config : PolicyConfig
  hasCleanup : Bool
  main : MainThread
  events : List Event

/-- A scheduler over some representation of the waiting queue and of the lists of
records that cancelling threads are about to free. -/
structure System (Q : Type) extends Core where
  queue : Q

/-- What a caller passes to `scheduler_create_task`. -/
structure TaskRequest where
  type : TaskType
  clientNumber : ℤ
  commandText : Option (List Char)
  predictedBurst : ℤ
  userData : Option ContextRef
  deriving DecidableEq, Repr

def schedulerCreateTask (r : TaskRequest) : Task where
  taskId := 0
  clientNumber := r.clientNumber
  type := r.type
  state := .waiting
  predictedBurst := r.predictedBurst
  remainingBurst := r.predictedBurst
  roundsCompleted := 0
  arrivalOrder := 0
  preemptRequested := false
  cancelRequested := false
  commandText := r.commandText
  userData := r.userData

end UnixShell.Scheduler
