import UnixShell.Foundation.Runs
import UnixShell.Scheduler.Queue

/-! # Critical sections of the scheduler and their interleavings

Each locked section of the source is one function on the scheduler. The executor
is arbitrary: while it runs it may store any remaining burst, and it may return
any result. A step relation interleaves the sections of the scheduler thread with
those of any number of submitting, cancelling and stopping threads.
-/
namespace UnixShell.Scheduler
open Foundation TaskQueue

variable {Q : Type}

section Sections
variable [TaskQueue Q] (s : System Q)

def logSchedulerEvent (event : LogEvent) (task : TaskRef) (quantum : ℤ) : System Q :=
  { s with events := .log event task quantum :: s.events }

def setTask (t : TaskRef) (task : Task) : System Q :=
  { s with tasks := Function.update s.tasks t task }

def condSignal : System Q := { s with main := s.main.signal }

def shouldPreemptCurrentLocked (incoming : Task) : Bool :=
  match s.currentTask with
  | none => false
  | some c =>
    let current := s.tasks c
    if current.type ≠ .program then false
    else if incoming.type = .shell then true
    else decide (incoming.type = .program ∧ incoming.remainingBurst < current.remainingBurst)

/-- The fields `scheduler_submit_task` stores in a fresh record. -/
def submittedTask (task : Task) : Task :=
  let task := { task with
    taskId := s.nextTaskId
    arrivalOrder := s.nextArrivalOrder
    state := .waiting }
  if task.type = .shell then { task with predictedBurst := -1, remainingBurst := -1 }
  else if task.predictedBurst ≤ 0 then
    { task with
      predictedBurst := s.config.defaultProgramBurst
      remainingBurst := s.config.defaultProgramBurst }
  else task

def requestPreemption (incoming : Task) : System Q :=
  match s.currentTask with
  | none => s
  | some c =>
    if shouldPreemptCurrentLocked s incoming then
      logSchedulerEvent (setTask s c { s.tasks c with preemptRequested := true })
        .preemptRequest c 0
    else s

/-- The record is the next one allocated. -/
def schedulerSubmitTask (task : Task) : System Q :=
  let t := s.allocated
  let task := submittedTask s task
  let s := { (setTask s t task) with
    allocated := s.allocated + 1
    nextTaskId := s.nextTaskId + 1
    nextArrivalOrder := s.nextArrivalOrder + 1
    queue := enqueue s.queue t
    activeTaskCount := s.activeTaskCount + 1
    queuedSignalCount := s.queuedSignalCount + 1 }
  condSignal (requestPreemption (logSchedulerEvent s .enqueue t 0) task)

def cancelCurrent (clientNumber : ℤ) : System Q :=
  match s.currentTask with
  | none => s
  | some c =>
    if (s.tasks c).clientNumber = clientNumber then
      setTask s c { s.tasks c with cancelRequested := true, preemptRequested := true }
    else s

/-- The locked part; the caller's records are then freed one by one, unlocked. -/
def schedulerCancelClientTasks (thread : ThreadId) (clientNumber : ℤ) : System Q :=
  let r := unlinkClient s.allocated s.tasks thread clientNumber s.queue
  cancelCurrent
    { s with
      queue := r.2
      activeTaskCount := s.activeTaskCount - r.1.length
      events := (r.1.map Event.unlinked).reverse ++ s.events }
    clientNumber

/-- The value `scheduler_cancel_client_tasks` returns. -/
def cancelledCount (thread : ThreadId) (clientNumber : ℤ) : ℤ :=
  (unlinkClient s.allocated s.tasks thread clientNumber s.queue).1.length +
    match s.currentTask with
    | none => 0
    | some c => if (s.tasks c).clientNumber = clientNumber then 1 else 0

/-- `scheduler->cleanup`, or `scheduler_destroy_task` where no callback is set. -/
def cleanupTask (t : TaskRef) : System Q := { s with events := .cleanup t :: s.events }

/-- One turn of the freeing loop after the unlocked part of a cancellation. -/
def freeNext (thread : ThreadId) : Option (System Q) :=
  match toFree s.queue thread with
  | none => none
  | some t =>
    let s := if s.hasCleanup then setTask s t { s.tasks t with state := .cancelled } else s
    some (cleanupTask { s with queue := popFree s.queue thread } t)

/-- Polled by the executor; `scheduler_task_should_cancel` is the same on the other flag. -/
def schedulerTaskShouldPreempt (s : Core) (t : TaskRef) : Bool :=
  decide (s.currentTask = some t) && (s.tasks t).preemptRequested

def schedulerTaskShouldCancel (s : Core) (t : TaskRef) : Bool :=
  decide (s.currentTask = some t) && (s.tasks t).cancelRequested

def schedulerRequestStop : System Q := condSignal { s with stopRequested := true }

def schedulerHasActiveWork (s : Core) : Bool := decide (0 < s.activeTaskCount)

def finalizeTask (t : TaskRef) (state : TaskState) (event : LogEvent) : System Q :=
  let s := setTask s t { s.tasks t with state := state }
  let s := { s with activeTaskCount := s.activeTaskCount - 1 }
  cleanupTask (logSchedulerEvent s event t 0) t

def quantumFor (task : Task) : ℤ :=
  if task.roundsCompleted = 0 then s.config.firstRoundQuantum else s.config.laterRoundQuantum

def dispatchTask (t : TaskRef) : System Q :=
  let task := { s.tasks t with state := .running, preemptRequested := false }
  let quantum := quantumFor s task
  logSchedulerEvent
    { (setTask s t task) with
      currentTask := some t
      lastSelectedTaskId := task.taskId
      main := .executing t quantum }
    .dispatch t quantum

def mayExit : Prop := s.stopRequested = true ∧ s.activeTaskCount = 0

instance : Decidable (mayExit s) := inferInstanceAs (Decidable (_ ∧ _))

/-- The first critical section of `scheduler_main`, from taking the lock (at the
loop's head or on waking up) to waiting again, leaving, going round or dispatching. -/
def schedulerMainEnter : System Q :=
  if s.queuedSignalCount = 0 ∧ ¬ mayExit s then { s with main := .blocked false }
  else
    let s := { s with queuedSignalCount := s.queuedSignalCount - 1 }
    if mayExit s then { s with main := .exited }
    else
      match dequeue s.allocated s.tasks s.lastSelectedTaskId s.queue with
      | (none,q) => { s with queue := q, main := .top }
      | (some t,q) => dispatchTask { s with queue := q } t

def requeueTask (t : TaskRef) (quantum : ℤ) : System Q :=
  let task := s.tasks t
  let s := logSchedulerEvent
    (setTask s t { task with
      roundsCompleted := task.roundsCompleted + 1
      state := .waiting
      preemptRequested := false })
    .waiting t quantum
  -- the signal that follows finds no waiter: this thread is the only one that waits
  { s with queue := enqueue s.queue t, queuedSignalCount := s.queuedSignalCount + 1 }

/-- The test by which the second critical section sends a task back to the queue. -/
def mayRequeue (task : Task) (result : TaskRunResult) : Prop :=
  result = .requeue ∧ task.cancelRequested = false ∧ 0 < task.remainingBurst

instance (task : Task) (result : TaskRunResult) : Decidable (mayRequeue task result) :=
  inferInstanceAs (Decidable (_ ∧ _ ∧ _))

/-- The second critical section of `scheduler_main`. -/
def schedulerMainFinish (t : TaskRef) (quantum : ℤ) (result : TaskRunResult) : System Q :=
  let s := { s with currentTask := none, main := .top }
  let task := s.tasks t
  if mayRequeue task result then requeueTask s t quantum
  else if result = .cancelled ∨ task.cancelRequested then finalizeTask s t .cancelled .cancel
  else if task.remainingBurst ≤ 0 ∨ result = .complete then finalizeTask s t .finished .finish
  else finalizeTask s t .cancelled .fail

end Sections

inductive Action
  | submit (request : TaskRequest)
  | cancel (thread : ThreadId) (clientNumber : ℤ)
  | free (thread : ThreadId)
  | requestStop
  | enter
  | setBurst (remaining : ℤ)
  | result (result : TaskRunResult)
  | finish
  deriving DecidableEq, Repr

def step [TaskQueue Q] (s : System Q) : Action → Option (System Q)
  | .submit request => some (schedulerSubmitTask s (schedulerCreateTask request))
  | .cancel thread client =>
    -- a thread is inside one call at a time: its last call has freed its records
    if (toFree s.queue thread).isNone then some (schedulerCancelClientTasks s thread client)
    else none
  | .free thread => freeNext s thread
  | .requestStop => some (schedulerRequestStop s)
  | .enter =>
    match s.main with
    | .top | .blocked _ => some (schedulerMainEnter s)
    | _ => none
  | .setBurst remaining =>
    match s.main with
    | .executing t _ => some (setTask s t { s.tasks t with remainingBurst := remaining })
    | _ => none
  | .result r =>
    match s.main with
    | .executing t quantum => some { s with main := .returned t quantum r }
    | _ => none
  | .finish =>
    match s.main with
    | .returned t quantum r => some (schedulerMainFinish s t quantum r)
    | _ => none

def blankTask : Task where
  taskId := 0
  clientNumber := 0
  type := .shell
  state := .waiting
  predictedBurst := 0
  remainingBurst := 0
  roundsCompleted := 0
  arrivalOrder := 0
  preemptRequested := false
  cancelRequested := false
  commandText := none
  userData := none

def schedulerInit (Q : Type) [TaskQueue Q] (config : Option SchedulerConfig) (hasCleanup : Bool) :
    System Q where
  tasks _ := blankTask
  allocated := 0
  currentTask := none
  stopRequested := false
  activeTaskCount := 0
  queuedSignalCount := 0
  nextTaskId := 1
  lastSelectedTaskId := -1
  nextArrivalOrder := 1
  config := initConfig config
  hasCleanup := hasCleanup
  main := .top
  events := []
  queue := empty

section Frames
variable (s : System Q)

/-- A preemption request touches the current task's record and the log only. -/
@[simp] theorem requestPreemption_frame (incoming : Task) :
    (requestPreemption s incoming).allocated = s.allocated ∧
    (requestPreemption s incoming).currentTask = s.currentTask ∧
    (requestPreemption s incoming).stopRequested = s.stopRequested ∧
    (requestPreemption s incoming).activeTaskCount = s.activeTaskCount ∧
    (requestPreemption s incoming).queuedSignalCount = s.queuedSignalCount ∧
    (requestPreemption s incoming).nextTaskId = s.nextTaskId ∧
    (requestPreemption s incoming).lastSelectedTaskId = s.lastSelectedTaskId ∧
    (requestPreemption s incoming).nextArrivalOrder = s.nextArrivalOrder ∧
    (requestPreemption s incoming).main = s.main ∧
    (requestPreemption s incoming).queue = s.queue := by
  unfold requestPreemption
  split
  · simp
  · split <;> simp [logSchedulerEvent,setTask]

theorem requestPreemption_tasks (incoming : Task) (t : TaskRef) :
    (requestPreemption s incoming).tasks t =
      if s.currentTask = some t ∧ shouldPreemptCurrentLocked s incoming = true then
        { s.tasks t with preemptRequested := true }
      else s.tasks t := by
  unfold requestPreemption
  cases hc : s.currentTask with
  | none => simp
  | some c =>
    by_cases hp : shouldPreemptCurrentLocked s incoming = true
    · by_cases ht : c = t
      · subst ht; simp [hp,logSchedulerEvent,setTask]
      · simp [hp,logSchedulerEvent,setTask,ht,Function.update_of_ne (Ne.symm ht)]
    · simp [hp]

theorem requestPreemption_events (incoming : Task) :
    ∃ new, (requestPreemption s incoming).events = new ++ s.events ∧
      ∀ e ∈ new, ∃ t, e = .log .preemptRequest t 0 := by
  unfold requestPreemption
  split
  · exact ⟨[],rfl,by simp⟩
  · rename_i c _
    split
    · exact ⟨[.log .preemptRequest c 0],rfl,by simp⟩
    · exact ⟨[],rfl,by simp⟩

/-- Marking the current task for cancellation touches its record only. -/
@[simp] theorem cancelCurrent_frame (client : ℤ) :
    (cancelCurrent s client).allocated = s.allocated ∧
    (cancelCurrent s client).currentTask = s.currentTask ∧
    (cancelCurrent s client).stopRequested = s.stopRequested ∧
    (cancelCurrent s client).activeTaskCount = s.activeTaskCount ∧
    (cancelCurrent s client).queuedSignalCount = s.queuedSignalCount ∧
    (cancelCurrent s client).nextTaskId = s.nextTaskId ∧
    (cancelCurrent s client).lastSelectedTaskId = s.lastSelectedTaskId ∧
    (cancelCurrent s client).nextArrivalOrder = s.nextArrivalOrder ∧
    (cancelCurrent s client).main = s.main ∧
    (cancelCurrent s client).events = s.events ∧
    (cancelCurrent s client).queue = s.queue := by
  unfold cancelCurrent
  split
  · simp
  · split <;> simp [setTask]

theorem cancelCurrent_tasks (client : ℤ) (t : TaskRef) :
    (cancelCurrent s client).tasks t =
      if s.currentTask = some t ∧ (s.tasks t).clientNumber = client then
        { s.tasks t with cancelRequested := true, preemptRequested := true }
      else s.tasks t := by
  unfold cancelCurrent
  cases hc : s.currentTask with
  | none => simp
  | some c =>
    by_cases ht : c = t
    · subst ht
      by_cases hp : (s.tasks c).clientNumber = client <;> simp [hp,setTask]
    · by_cases hp : (s.tasks c).clientNumber = client <;>
        simp [hp,setTask,ht,Function.update_of_ne (Ne.symm ht)]

@[simp] theorem submittedTask_frame (task : Task) :
    (submittedTask s task).taskId = s.nextTaskId ∧
    (submittedTask s task).arrivalOrder = s.nextArrivalOrder ∧
    (submittedTask s task).state = .waiting ∧
    (submittedTask s task).type = task.type ∧
    (submittedTask s task).clientNumber = task.clientNumber ∧
    (submittedTask s task).roundsCompleted = task.roundsCompleted ∧
    (submittedTask s task).preemptRequested = task.preemptRequested ∧
    (submittedTask s task).cancelRequested = task.cancelRequested ∧
    (submittedTask s task).commandText = task.commandText ∧
    (submittedTask s task).userData = task.userData := by
  unfold submittedTask
  dsimp only
  split
  · simp
  · split <;> simp

@[simp] theorem dispatchTask_frame (t : TaskRef) :
    (dispatchTask s t).allocated = s.allocated ∧
    (dispatchTask s t).currentTask = some t ∧
    (dispatchTask s t).stopRequested = s.stopRequested ∧
    (dispatchTask s t).activeTaskCount = s.activeTaskCount ∧
    (dispatchTask s t).queuedSignalCount = s.queuedSignalCount ∧
    (dispatchTask s t).nextTaskId = s.nextTaskId ∧
    (dispatchTask s t).lastSelectedTaskId = (s.tasks t).taskId ∧
    (dispatchTask s t).nextArrivalOrder = s.nextArrivalOrder ∧
    (dispatchTask s t).main = .executing t (quantumFor s (s.tasks t)) ∧
    (dispatchTask s t).events = .log .dispatch t (quantumFor s (s.tasks t)) :: s.events ∧
    (dispatchTask s t).queue = s.queue ∧
    (dispatchTask s t).tasks = Function.update s.tasks t
      { s.tasks t with state := .running, preemptRequested := false } :=
  ⟨rfl,rfl,rfl,rfl,rfl,rfl,rfl,rfl,rfl,rfl,rfl,rfl⟩

@[simp] theorem requeueTask_frame [TaskQueue Q] (t : TaskRef) (quantum : ℤ) :
    (requeueTask s t quantum).allocated = s.allocated ∧
    (requeueTask s t quantum).currentTask = s.currentTask ∧
    (requeueTask s t quantum).stopRequested = s.stopRequested ∧
    (requeueTask s t quantum).activeTaskCount = s.activeTaskCount ∧
    (requeueTask s t quantum).queuedSignalCount = s.queuedSignalCount + 1 ∧
    (requeueTask s t quantum).nextTaskId = s.nextTaskId ∧
    (requeueTask s t quantum).lastSelectedTaskId = s.lastSelectedTaskId ∧
    (requeueTask s t quantum).nextArrivalOrder = s.nextArrivalOrder ∧
    (requeueTask s t quantum).main = s.main ∧
    (requeueTask s t quantum).events = .log .waiting t quantum :: s.events ∧
    (requeueTask s t quantum).queue = enqueue s.queue t ∧
    (requeueTask s t quantum).tasks = Function.update s.tasks t
      { s.tasks t with
        roundsCompleted := (s.tasks t).roundsCompleted + 1
        state := .waiting
        preemptRequested := false } :=
  ⟨rfl,rfl,rfl,rfl,rfl,rfl,rfl,rfl,rfl,rfl,rfl,rfl⟩

@[simp] theorem finalizeTask_frame (t : TaskRef) (state : TaskState) (event : LogEvent) :
    (finalizeTask s t state event).allocated = s.allocated ∧
    (finalizeTask s t state event).currentTask = s.currentTask ∧
    (finalizeTask s t state event).stopRequested = s.stopRequested ∧
    (finalizeTask s t state event).activeTaskCount = s.activeTaskCount - 1 ∧
    (finalizeTask s t state event).queuedSignalCount = s.queuedSignalCount ∧
    (finalizeTask s t state event).nextTaskId = s.nextTaskId ∧
    (finalizeTask s t state event).lastSelectedTaskId = s.lastSelectedTaskId ∧
    (finalizeTask s t state event).nextArrivalOrder = s.nextArrivalOrder ∧
    (finalizeTask s t state event).main = s.main ∧
    (finalizeTask s t state event).events = .cleanup t :: .log event t 0 :: s.events ∧
    (finalizeTask s t state event).queue = s.queue ∧
    (finalizeTask s t state event).tasks =
      Function.update s.tasks t { s.tasks t with state := state } :=
  ⟨rfl,rfl,rfl,rfl,rfl,rfl,rfl,rfl,rfl,rfl,rfl,rfl⟩

end Frames

section Cases
variable [TaskQueue Q] (s : System Q)

/-- The scheduler right after the new record is queued, before preemption is decided. -/
def queuedTask (task : Task) : System Q :=
  { (setTask s s.allocated (submittedTask s task)) with
    allocated := s.allocated + 1
    nextTaskId := s.nextTaskId + 1
    nextArrivalOrder := s.nextArrivalOrder + 1
    queue := enqueue s.queue s.allocated
    activeTaskCount := s.activeTaskCount + 1
    queuedSignalCount := s.queuedSignalCount + 1
    events := .log .enqueue s.allocated 0 :: s.events }

theorem schedulerSubmitTask_eq (task : Task) : schedulerSubmitTask s task =
    condSignal (requestPreemption (queuedTask s task) (submittedTask s task)) := rfl

@[simp] theorem schedulerSubmitTask_frame (task : Task) :
    (schedulerSubmitTask s task).allocated = s.allocated + 1 ∧
    (schedulerSubmitTask s task).currentTask = s.currentTask ∧
    (schedulerSubmitTask s task).stopRequested = s.stopRequested ∧
    (schedulerSubmitTask s task).activeTaskCount = s.activeTaskCount + 1 ∧
    (schedulerSubmitTask s task).queuedSignalCount = s.queuedSignalCount + 1 ∧
    (schedulerSubmitTask s task).nextTaskId = s.nextTaskId + 1 ∧
    (schedulerSubmitTask s task).lastSelectedTaskId = s.lastSelectedTaskId ∧
    (schedulerSubmitTask s task).nextArrivalOrder = s.nextArrivalOrder + 1 ∧
    (schedulerSubmitTask s task).main = s.main.signal ∧
    (schedulerSubmitTask s task).queue = enqueue s.queue s.allocated := by
  simp [schedulerSubmitTask_eq,condSignal,queuedTask,setTask]

theorem schedulerSubmitTask_tasks (task : Task) (t : TaskRef) :
    (schedulerSubmitTask s task).tasks t =
      let t' := Function.update s.tasks s.allocated (submittedTask s task) t
      if s.currentTask = some t ∧
          shouldPreemptCurrentLocked (queuedTask s task) (submittedTask s task) = true then
        { t' with preemptRequested := true }
      else t' :=
  requestPreemption_tasks (queuedTask s task) (submittedTask s task) t

theorem schedulerSubmitTask_events (task : Task) :
    ∃ new, (schedulerSubmitTask s task).events = new ++ s.events ∧
      ∀ e ∈ new, e = .log .enqueue s.allocated 0 ∨ ∃ t, e = .log .preemptRequest t 0 := by
  obtain ⟨new,he,hnew⟩ := requestPreemption_events (queuedTask s task) (submittedTask s task)
  refine ⟨new ++ [.log .enqueue s.allocated 0],?_,?_⟩
  · rw [schedulerSubmitTask_eq,List.append_assoc]
    exact he
  · intro e he
    rcases List.mem_append.mp he with he | he
    · exact Or.inr (hnew e he)
    · exact Or.inl (List.mem_singleton.mp he)

/-- The four ways through the first critical section. -/
theorem enter_cases :
    (s.queuedSignalCount = 0 ∧ ¬ mayExit s ∧
      schedulerMainEnter s = { s with main := .blocked false }) ∨
    (mayExit s ∧ schedulerMainEnter s =
      { s with queuedSignalCount := s.queuedSignalCount - 1, main := .exited }) ∨
    (0 < s.queuedSignalCount ∧ ¬ mayExit s ∧ ∃ q,
      dequeue s.allocated s.tasks s.lastSelectedTaskId s.queue = (none,q) ∧
      schedulerMainEnter s =
        { s with queuedSignalCount := s.queuedSignalCount - 1, queue := q, main := .top }) ∨
    (0 < s.queuedSignalCount ∧ ¬ mayExit s ∧ ∃ t q,
      dequeue s.allocated s.tasks s.lastSelectedTaskId s.queue = (some t,q) ∧
      schedulerMainEnter s = dispatchTask
        { s with queuedSignalCount := s.queuedSignalCount - 1, queue := q } t) := by
  unfold schedulerMainEnter
  by_cases he : mayExit s
  · have he' : mayExit { s with queuedSignalCount := s.queuedSignalCount - 1 } := he
    exact Or.inr (Or.inl ⟨he,by simp only [he,not_true_eq_false,and_false,if_false,if_pos he']⟩)
  · by_cases hz : s.queuedSignalCount = 0
    · exact Or.inl ⟨hz,he,by simp only [hz,he,not_false_eq_true,and_self,if_true]⟩
    · have hpos : 0 < s.queuedSignalCount := Nat.pos_of_ne_zero hz
      have he' : ¬ mayExit { s with queuedSignalCount := s.queuedSignalCount - 1 } := he
      simp only [hz,false_and,if_false,if_neg he']
      cases hd : dequeue s.allocated s.tasks s.lastSelectedTaskId s.queue with
      | mk found q =>
        cases found with
        | none => exact Or.inr (Or.inr (Or.inl ⟨hpos,he,q,rfl,rfl⟩))
        | some t => exact Or.inr (Or.inr (Or.inr ⟨hpos,he,t,q,rfl,rfl⟩))

/-- The second critical section sends the task back, or finalises it: as cancelled
when that was asked for or reported, as finished when the burst is used up. -/
theorem finish_cases (t : TaskRef) (quantum : ℤ) (r : TaskRunResult) :
    (mayRequeue (s.tasks t) r ∧ schedulerMainFinish s t quantum r =
      requeueTask { s with currentTask := none, main := .top } t quantum) ∨
    (¬ mayRequeue (s.tasks t) r ∧ ∃ state event,
      schedulerMainFinish s t quantum r =
        finalizeTask { s with currentTask := none, main := .top } t state event ∧
      state ≠ .waiting ∧ (event = .cancel ∨ event = .finish ∨ event = .fail) ∧
      ((s.tasks t).cancelRequested = true → state = .cancelled ∧ event = .cancel)) := by
  unfold schedulerMainFinish
  by_cases hr : mayRequeue (s.tasks t) r
  · exact Or.inl ⟨hr,if_pos hr⟩
  · refine Or.inr ⟨hr,?_⟩
    simp only [if_neg hr]
    by_cases hc : r = .cancelled ∨ (s.tasks t).cancelRequested = true
    · exact ⟨.cancelled,.cancel,if_pos hc,by simp,by simp,by simp⟩
    · simp only [if_neg hc]
      have hcancel : ¬ (s.tasks t).cancelRequested = true := fun h => hc (Or.inr h)
      split
      · exact ⟨.finished,.finish,rfl,by simp,by simp,fun h => (hcancel h).elim⟩
      · exact ⟨.cancelled,.fail,rfl,by simp,by simp,fun h => (hcancel h).elim⟩

variable {s} {s' : System Q}

theorem step_cancel {thread : ThreadId} {client : ℤ}
    (he : step s (.cancel thread client) = some s') :
    toFree s.queue thread = none ∧ s' = schedulerCancelClientTasks s thread client := by
  simp only [step] at he
  split at he
  · rename_i hf
    exact ⟨Option.isNone_iff_eq_none.mp hf,(Option.some.inj he).symm⟩
  · cases he

theorem step_enter (he : step s .enter = some s') :
    s.main.task = none ∧ s.main ≠ .exited ∧ s' = schedulerMainEnter s := by
  simp only [step] at he
  split at he
  · rename_i hm
    exact ⟨by rw [hm]; rfl,by simp [hm],(Option.some.inj he).symm⟩
  · rename_i hm
    exact ⟨by rw [hm]; rfl,by simp [hm],(Option.some.inj he).symm⟩
  · cases he

theorem step_setBurst {remaining : ℤ} (he : step s (.setBurst remaining) = some s') :
    ∃ t quantum, s.main = .executing t quantum ∧
      s' = setTask s t { s.tasks t with remainingBurst := remaining } := by
  simp only [step] at he
  split at he
  · rename_i t quantum hm
    exact ⟨t,quantum,hm,(Option.some.inj he).symm⟩
  · cases he

theorem step_result {r : TaskRunResult} (he : step s (.result r) = some s') :
    ∃ t quantum, s.main = .executing t quantum ∧ s' = { s with main := .returned t quantum r } := by
  simp only [step] at he
  split at he
  · rename_i t quantum hm
    exact ⟨t,quantum,hm,(Option.some.inj he).symm⟩
  · cases he

theorem step_finish (he : step s .finish = some s') :
    ∃ t quantum r, s.main = .returned t quantum r ∧ s' = schedulerMainFinish s t quantum r := by
  simp only [step] at he
  split at he
  · rename_i t quantum r hm
    exact ⟨t,quantum,r,hm,(Option.some.inj he).symm⟩
  · cases he

/-- A step that moves the scheduler thread or raises the stop flag, and writes no record. -/
structure Quiet (s s' : System Q) : Prop where
  tasks : s'.tasks = s.tasks
  allocated : s'.allocated = s.allocated
  currentTask : s'.currentTask = s.currentTask
  activeTaskCount : s'.activeTaskCount = s.activeTaskCount
  nextTaskId : s'.nextTaskId = s.nextTaskId
  lastSelectedTaskId : s'.lastSelectedTaskId = s.lastSelectedTaskId
  nextArrivalOrder : s'.nextArrivalOrder = s.nextArrivalOrder
  events : s'.events = s.events
  queue : s'.queue = s.queue ∨
    dequeue s.allocated s.tasks s.lastSelectedTaskId s.queue = (none,s'.queue)

/-- What a step does to the records, each way it can go. -/
inductive Stepped (s : System Q) : Action → System Q → Prop
  | submit (request : TaskRequest) :
      Stepped s (.submit request) (schedulerSubmitTask s (schedulerCreateTask request))
  | cancel {thread : ThreadId} {client : ℤ} (hf : toFree s.queue thread = none) :
      Stepped s (.cancel thread client) (schedulerCancelClientTasks s thread client)
  | free {thread : ThreadId} {s' : System Q} (he : freeNext s thread = some s') :
      Stepped s (.free thread) s'
  | quiet {x : Action} {s' : System Q} (hq : Quiet s s') : Stepped s x s'
  | dispatch {t : TaskRef} {q : Q} (hm : s.main.task = none)
      (hd : dequeue s.allocated s.tasks s.lastSelectedTaskId s.queue = (some t,q)) :
      Stepped s .enter
        (dispatchTask { s with queuedSignalCount := s.queuedSignalCount - 1, queue := q } t)
  | setBurst {remaining quantum : ℤ} {t : TaskRef} (hm : s.main = .executing t quantum) :
      Stepped s (.setBurst remaining) (setTask s t { s.tasks t with remainingBurst := remaining })
  | requeue {t : TaskRef} {quantum : ℤ} {r : TaskRunResult} (hm : s.main = .returned t quantum r)
      (hr : mayRequeue (s.tasks t) r) :
      Stepped s .finish (requeueTask { s with currentTask := none, main := .top } t quantum)
  | finalize {t : TaskRef} {quantum : ℤ} {r : TaskRunResult} {state : TaskState}
      {event : LogEvent} (hm : s.main = .returned t quantum r) (hr : ¬ mayRequeue (s.tasks t) r)
      (hs : state ≠ .waiting) (hev : event = .cancel ∨ event = .finish ∨ event = .fail)
      (hc : (s.tasks t).cancelRequested = true → state = .cancelled ∧ event = .cancel) :
      Stepped s .finish (finalizeTask { s with currentTask := none, main := .top } t state event)

theorem step_stepped {x : Action} (he : step s x = some s') : Stepped s x s' := by
  cases x with
  | submit request => cases he; exact .submit request
  | cancel thread client =>
    obtain ⟨hf,rfl⟩ := step_cancel he
    exact .cancel hf
  | free thread => exact .free he
  | requestStop => cases he; exact .quiet ⟨rfl,rfl,rfl,rfl,rfl,rfl,rfl,rfl,.inl rfl⟩
  | enter =>
    obtain ⟨hm,_,rfl⟩ := step_enter he
    rcases enter_cases s with ⟨_,_,hs⟩ | ⟨_,hs⟩ | ⟨_,_,q,hd,hs⟩ | ⟨_,_,t,q,hd,hs⟩ <;> rw [hs]
    · exact .quiet ⟨rfl,rfl,rfl,rfl,rfl,rfl,rfl,rfl,.inl rfl⟩
    · exact .quiet ⟨rfl,rfl,rfl,rfl,rfl,rfl,rfl,rfl,.inl rfl⟩
    · exact .quiet ⟨rfl,rfl,rfl,rfl,rfl,rfl,rfl,rfl,.inr hd⟩
    · exact .dispatch hm hd
  | setBurst remaining =>
    obtain ⟨t,quantum,hm,rfl⟩ := step_setBurst he
    exact .setBurst hm
  | result r =>
    obtain ⟨t,quantum,_,rfl⟩ := step_result he
    exact .quiet ⟨rfl,rfl,rfl,rfl,rfl,rfl,rfl,rfl,.inl rfl⟩
  | finish =>
    obtain ⟨t,quantum,r,hm,rfl⟩ := step_finish he
    rcases finish_cases s t quantum r with ⟨hr,hs⟩ | ⟨hr,state,event,hs,hne,hev,hc⟩ <;> rw [hs]
    · exact .requeue hm hr
    · exact .finalize hm hr hne hev hc

variable (s)

theorem enter_queue : (schedulerMainEnter s).queue =
    if mayExit s ∨ s.queuedSignalCount = 0 then s.queue
    else (dequeue s.allocated s.tasks s.lastSelectedTaskId s.queue).2 := by
  rcases enter_cases s with ⟨hz,_,he⟩ | ⟨hx,he⟩ | ⟨hz,hx,q,hd,he⟩ | ⟨hz,hx,t,q,hd,he⟩ <;> rw [he]
  · rw [if_pos (Or.inr hz)]
  · rw [if_pos (Or.inl hx)]
  · rw [if_neg (not_or.mpr ⟨hx,hz.ne'⟩),hd]
  · rw [if_neg (not_or.mpr ⟨hx,hz.ne'⟩),hd]; rfl

theorem finish_queue (t : TaskRef) (quantum : ℤ) (r : TaskRunResult) :
    (schedulerMainFinish s t quantum r).queue =
      if mayRequeue (s.tasks t) r then enqueue s.queue t else s.queue := by
  rcases finish_cases s t quantum r with ⟨hr,he⟩ | ⟨hr,_,_,he,_⟩ <;> rw [he]
  · rw [if_pos hr]; rfl
  · rw [if_neg hr]; rfl

end Cases

/-- A state some interleaving reaches from `scheduler_init`. -/
def Reachable [TaskQueue Q] (s : System Q) : Prop :=
  ∃ config hasCleanup, Reaches (Fires step) (schedulerInit Q config hasCleanup) s

theorem Reachable.trans [TaskQueue Q] {s u : System Q} (h : Reachable s)
    (hu : Reaches (Fires step) s u) : Reachable u := by
  obtain ⟨config,hasCleanup,h⟩ := h
  exact ⟨config,hasCleanup,h.trans hu⟩

theorem Reachable.step [TaskQueue Q] {s s' : System Q} {a : Action} (h : Reachable s)
    (he : Scheduler.step s a = some s') : Reachable s' :=
  h.trans ((Reaches.refl s).tail he)

/-- A state reached by steps that meet a condition on the scheduler's data. -/
def ReachableIf [TaskQueue Q] (ok : Core → Action → Prop) (s : System Q) : Prop :=
  ∃ config hasCleanup,
    Reaches (FiresIf (fun s => ok s.toCore) step) (schedulerInit Q config hasCleanup) s

theorem ReachableIf.reachable [TaskQueue Q] {ok : Core → Action → Prop} {s : System Q}
    (h : ReachableIf ok s) : Reachable s := by
  obtain ⟨config,hasCleanup,h⟩ := h
  exact ⟨config,hasCleanup,h.mono (fun _ _ _ hr => hr.fires)⟩

end UnixShell.Scheduler
