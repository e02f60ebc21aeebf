import UnixShell.Scheduler.Conservation

/-! # The scheduler's test program

The main thread submits its tasks and polls until no work is left. The executor counts a
program's burst down, one tick at a time, and asks between two ticks whether it has to
give way. Whatever the interleaving, each program is counted down once from its burst to
one, and each shell command is run once.
-/
namespace UnixShell.Scheduler.Harness
open Foundation TaskQueue

/-- Where `fake_executor` stands: at its start, at the loop's head, past the poll for a
cancellation, or past the tick. -/
inductive FakePc
  | entry
  | loop (slice : ℕ)
  | tick (slice : ℕ)
  | after (slice : ℕ)
  deriving DecidableEq, Repr

/-- The lines that `fake_executor` prints. -/
inductive Line
  | shell (taskId : ℤ) (commandText : Option (List Char))
  | tick (taskId : ℤ) (slice : ℕ) (remaining : ℤ)
  deriving DecidableEq, Repr

/-- Where `main` stands, with the tasks still to be submitted or its exit status. -/
inductive MainPc
  | start (requests : List TaskRequest)
  | create (requests : List TaskRequest)
  | submit (requests : List TaskRequest)
  | poll
  | requestStop (code : ℤ)
  | join (code : ℤ)
  | destroy (code : ℤ)
  | returned (code : ℤ)
  deriving DecidableEq, Repr

structure Bench where
  sched : System TaskLinks
  -- whether there is a scheduler thread
  started : Bool
  fake : FakePc
  pc : MainPc
  output : List Line

/-- `EXIT_FAILURE`. -/
def exitFailure : ℤ := 1

inductive Label
  | start (succeeds : Bool)
  | create (succeeds : Bool)
  | submit
  | poll
  | requestStop
  | join
  | destroy
  | enter
  | execute
  | finish
  deriving DecidableEq, Repr

namespace Bench
variable (s : Bench)

/-- A step of the scheduler under the test. -/
def act (a : Action) : Option Bench := (step s.sched a).map fun c => { s with sched := c }

def print (line : Line) : Bench := { s with output := s.output ++ [line] }

/-- The executor returns. -/
def result (r : TaskRunResult) : Option Bench := ({ s with fake := .entry } : Bench).act (.result r)

def fakeExecutor : Option Bench :=
  match s.sched.main with
  | .executing t quantum =>
    let task := s.sched.tasks t
    match s.fake with
    | .entry =>
      if task.type = .shell then (s.print (.shell task.taskId task.commandText)).result .complete
      else some { s with fake := .loop 0 }
    | .loop slice =>
      if (slice : ℤ) < quantum ∧ 0 < task.remainingBurst then
        if schedulerTaskShouldCancel s.sched.toCore t then s.result .cancelled
        else some { s with fake := .tick slice }
      else s.result (if 0 < task.remainingBurst then .requeue else .complete)
    | .tick slice =>
      ({ s.print (.tick task.taskId (slice + 1) task.remainingBurst) with
        fake := .after slice } : Bench).act (.setBurst (task.remainingBurst - 1))
    | .after slice =>
      if task.remainingBurst ≤ 0 then s.result .complete
      else if schedulerTaskShouldPreempt s.sched.toCore t then s.result .requeue
      else some { s with fake := .loop (slice + 1) }
  | _ => none

/-- `scheduler_destroy`: the records that still wait are freed. -/
def schedulerDestroy : Bench :=
  { s with sched := { s.sched with
    events := ((waitingRecords s.sched.allocated s.sched.queue).map Event.cleanup).reverse ++
      s.sched.events } }

def step : Label → Option Bench
  | .start succeeds =>
    match s.pc with
    | .start requests =>
      if succeeds then some { s with started := true, pc := .create requests }
      else some { s with pc := .destroy exitFailure }
    | _ => none
  | .create succeeds =>
    match s.pc with
    | .create requests =>
      some { s with pc := if succeeds then .submit requests else .requestStop exitFailure }
    | _ => none
  | .submit =>
    match s.pc with
    | .submit (r :: requests) => ({ s with pc := .submit requests } : Bench).act (.submit r)
    | .submit [] => some { s with pc := .poll }
    | _ => none
  | .poll =>
    match s.pc with
    | .poll =>
      if schedulerHasActiveWork s.sched.toCore then some s
      else some { s with pc := .requestStop 0 }
    | _ => none
  | .requestStop =>
    match s.pc with
    | .requestStop code => ({ s with pc := .join code } : Bench).act .requestStop
    | _ => none
  | .join =>
    match s.pc with
    | .join code => if s.sched.main = .exited then some { s with pc := .destroy code } else none
    | _ => none
  | .destroy =>
    match s.pc with
    | .destroy code => some { s.schedulerDestroy with pc := .returned code }
    | _ => none
  | .enter => if s.started then s.act .enter else none
  | .execute => s.fakeExecutor
  | .finish => s.act .finish

/-- Everything that the executor can do. -/
inductive Executed (s : Bench) (t : TaskRef) (quantum : ℤ) : Bench → Prop
  | shell {s' : Bench} (hf : s.fake = .entry) (hty : (s.sched.tasks t).type = .shell)
      (he : (s.print (.shell (s.sched.tasks t).taskId (s.sched.tasks t).commandText)).result
        .complete = some s') : Executed s t quantum s'
  | starts (hf : s.fake = .entry) (hty : (s.sched.tasks t).type ≠ .shell) :
      Executed s t quantum { s with fake := .loop 0 }
  | cancels {slice : ℕ} {s' : Bench} (hf : s.fake = .loop slice)
      (hcancel : schedulerTaskShouldCancel s.sched.toCore t = true)
      (he : s.result .cancelled = some s') : Executed s t quantum s'
  | polls {slice : ℕ} (hf : s.fake = .loop slice)
      (hloop : (slice : ℤ) < quantum ∧ 0 < (s.sched.tasks t).remainingBurst) :
      Executed s t quantum { s with fake := .tick slice }
  | leaves {slice : ℕ} {s' : Bench} (hf : s.fake = .loop slice)
      (hloop : ¬ ((slice : ℤ) < quantum ∧ 0 < (s.sched.tasks t).remainingBurst))
      (he : s.result (if 0 < (s.sched.tasks t).remainingBurst then .requeue else .complete) =
        some s') : Executed s t quantum s'
  | ticks {slice : ℕ} {s' : Bench} (hf : s.fake = .tick slice)
      (he : ({ s.print (.tick (s.sched.tasks t).taskId (slice + 1)
        (s.sched.tasks t).remainingBurst) with fake := .after slice } : Bench).act
          (.setBurst ((s.sched.tasks t).remainingBurst - 1)) = some s') : Executed s t quantum s'
  | completes {slice : ℕ} {s' : Bench} (hf : s.fake = .after slice)
      (hzero : (s.sched.tasks t).remainingBurst ≤ 0) (he : s.result .complete = some s') :
      Executed s t quantum s'
  | yields {slice : ℕ} {s' : Bench} (hf : s.fake = .after slice)
      (hpos : ¬ (s.sched.tasks t).remainingBurst ≤ 0) (he : s.result .requeue = some s') :
      Executed s t quantum s'
  | goesOn {slice : ℕ} (hf : s.fake = .after slice)
      (hpos : ¬ (s.sched.tasks t).remainingBurst ≤ 0) :
      Executed s t quantum { s with fake := .loop (slice + 1) }

variable {s} {s' : Bench}

theorem fakeExecutor_executed (he : s.fakeExecutor = some s') :
    ∃ t quantum, s.sched.main = .executing t quantum ∧ Executed s t quantum s' := by
  unfold Bench.fakeExecutor at he
  split at he
  · rename_i t quantum hm
    refine ⟨t,quantum,hm,?_⟩
    dsimp only at he
    split at he
    · rename_i hf
      split_ifs at he with hty
      · exact .shell hf hty he
      · cases he
        exact .starts hf hty
    · rename_i slice hf
      split_ifs at he with hloop hcancel hpos
      · exact .cancels hf hcancel he
      · cases he
        exact .polls hf hloop
      · exact .leaves hf hloop (by rw [if_pos hpos]; exact he)
      · exact .leaves hf hloop (by rw [if_neg hpos]; exact he)
    · rename_i slice hf
      exact .ticks hf he
    · rename_i slice hf
      split_ifs at he with hzero hpreempt
      · exact .completes hf hzero he
      · exact .yields hf hzero he
      · cases he
        exact .goesOn hf hzero
  · cases he

end Bench

/-- After `scheduler_init`, with the tasks that are to be submitted. -/
def init (config : Option SchedulerConfig) (requests : List TaskRequest) : Bench where
  sched := schedulerInit TaskLinks config false
  started := false
  fake := .entry
  pc := .start requests
  output := []

section Output

def Line.ticked (taskId : ℤ) : Line → Option ℤ
  | .tick id _ remaining => if id = taskId then some remaining else none
  | .shell _ _ => none

def Line.ran (taskId : ℤ) : Line → Option (Option (List Char))
  | .shell id commandText => if id = taskId then some commandText else none
  | .tick _ _ _ => none

/-- The bursts that were printed before the ticks of a task. -/
def ticksOf (taskId : ℤ) (output : List Line) : List ℤ := output.filterMap (Line.ticked taskId)

/-- The commands that were printed for a shell task. -/
def shellsOf (taskId : ℤ) (output : List Line) : List (Option (List Char)) :=
  output.filterMap (Line.ran taskId)

/-- From the burst down to just above what is left. -/
def countdown (burst remaining : ℤ) : List ℤ :=
  (List.range (burst - remaining).toNat).map fun i : ℕ => burst - i

theorem countdown_self (burst : ℤ) : countdown burst burst = [] := by
  simp [countdown]

theorem countdown_tick {burst remaining : ℤ} (h : remaining ≤ burst) :
    countdown burst (remaining - 1) = countdown burst remaining ++ [remaining] := by
  have hlen : (burst - (remaining - 1)).toNat = (burst - remaining).toNat + 1 := by omega
  have hlast : burst - ((burst - remaining).toNat : ℤ) = remaining := by omega
  rw [countdown,hlen,List.range_succ,List.map_append,List.map_singleton,hlast]
  rfl

theorem ticksOf_append (id : ℤ) (output new : List Line) :
    ticksOf id (output ++ new) = ticksOf id output ++ ticksOf id new :=
  List.filterMap_append ..

theorem shellsOf_append (id : ℤ) (output new : List Line) :
    shellsOf id (output ++ new) = shellsOf id output ++ shellsOf id new :=
  List.filterMap_append ..

end Output

/-- The burst with which a program is accepted. -/
def burstOf (config : PolicyConfig) (request : TaskRequest) : ℤ :=
  if 0 < request.predictedBurst then request.predictedBurst else config.defaultProgramBurst

theorem burstOf_pos (config : PolicyConfig) (request : TaskRequest) :
    0 < burstOf config request := by
  unfold burstOf
  split_ifs with h
  · exact h
  · exact config.defaultProgramBurst_pos

section Accepted
variable {s s' : System TaskLists} {a : Action} {t : TaskRef} {config : PolicyConfig}
  {request : TaskRequest} {task : Task}

/-- What a record keeps of the request that it was made for. -/
structure Accepted (config : PolicyConfig) (request : TaskRequest) (t : TaskRef) (task : Task) :
    Prop where
  taskId : task.taskId = t + 1
  type : task.type = request.type
  commandText : task.commandText = request.commandText
  predictedBurst : request.type = .program → task.predictedBurst = burstOf config request
  cancelRequested : task.cancelRequested = false

/-- No task is cancelled and none is freed by a cancellation. -/
def Plain : Action → Prop
  | .cancel _ _ | .free _ => False
  | _ => True

theorem step_keeps (he : step s a = some s') (ha : Plain a) (ht : t < s.allocated) :
    (s'.tasks t).predictedBurst = (s.tasks t).predictedBurst ∧
      (s'.tasks t).cancelRequested = (s.tasks t).cancelRequested := by
  cases step_stepped he with
  | submit request =>
    rw [schedulerSubmitTask_tasks,Function.update_of_ne ht.ne]
    dsimp only
    split <;> exact ⟨rfl,rfl⟩
  | cancel => exact ha.elim
  | free => exact ha.elim
  | quiet hq =>
    rw [hq.tasks]
    exact ⟨rfl,rfl⟩
  | dispatch => exact ⟨field_update Task.predictedBurst rfl,field_update Task.cancelRequested rfl⟩
  | setBurst => exact ⟨field_update Task.predictedBurst rfl,field_update Task.cancelRequested rfl⟩
  | requeue => exact ⟨field_update Task.predictedBurst rfl,field_update Task.cancelRequested rfl⟩
  | finalize => exact ⟨field_update Task.predictedBurst rfl,field_update Task.cancelRequested rfl⟩

theorem Accepted.step (h : Accepted config request t (s.tasks t)) (he : step s a = some s')
    (ha : Plain a) (ht : t < s.allocated) : Accepted config request t (s'.tasks t) := by
  have hc := step_continues he ht
  obtain ⟨hp,hx⟩ := step_keeps he ha ht
  exact ⟨hc.taskId.trans h.taskId,hc.type.trans h.type,hc.commandText.trans h.commandText,
    fun hprogram => hp.trans (h.predictedBurst hprogram),hx.trans h.cancelRequested⟩

/-- The record of a new task, with all its burst before it. -/
theorem submitted_accepted (hn : Numbered s) (request : TaskRequest) :
    let task := (schedulerSubmitTask s (schedulerCreateTask request)).tasks s.allocated
    Accepted s.config request s.allocated task ∧
      (request.type = .program → task.remainingBurst = task.predictedBurst) := by
  intro task
  have hid : (submittedTask s (schedulerCreateTask request)).taskId = s.allocated + 1 := by
    rw [(submittedTask_frame s _).1,hn.nextTaskId]
  have htask : ∃ preempt, task =
      { submittedTask s (schedulerCreateTask request) with preemptRequested := preempt } := by
    simp only [task,schedulerSubmitTask_tasks,Function.update_self]
    split
    · exact ⟨true,rfl⟩
    · exact ⟨_,rfl⟩
  obtain ⟨preempt,htask⟩ := htask
  rw [htask]
  by_cases hshell : request.type = .shell
  · refine ⟨⟨hid,?_,?_,?_,?_⟩,?_⟩ <;> simp [submittedTask,schedulerCreateTask,hshell]
  · have hprogram : request.type = .program := by
      cases h : request.type <;> simp_all
    by_cases hb : request.predictedBurst ≤ 0
    · refine ⟨⟨hid,?_,?_,?_,?_⟩,?_⟩ <;>
        simp [submittedTask,schedulerCreateTask,hprogram,hb,burstOf]
    · refine ⟨⟨hid,?_,?_,?_,?_⟩,?_⟩ <;>
        simp [submittedTask,schedulerCreateTask,hprogram,hb,burstOf]

end Accepted

section Shown
variable {s s' : System TaskLists} {t : TaskRef} {task task' : Task} {fake : FakePc}
  {output output' : List Line} {status status' : Status} {quantum : ℤ} {r : TaskRunResult}

/-- Where a task is in the test. -/
inductive Status
  | waits
  | runs (fake : FakePc) (quantum : ℤ)
  | reported (result : TaskRunResult)
  | finished

/-- What a program has left at each point. -/
def ProgramAt (remaining : ℤ) : Status → Prop
  | .waits => 0 < remaining
  | .runs (.after _) quantum => 0 ≤ remaining ∧ 0 < quantum
  | .runs _ quantum => 0 < remaining ∧ 0 < quantum
  | .reported r => r = .complete ∧ remaining = 0 ∨ r = .requeue ∧ 0 < remaining
  | .finished => remaining = 0

/-- A shell task runs in one step. -/
def ShellAt : Status → Prop
  | .waits | .finished => True
  | .runs fake _ => fake = .entry
  | .reported r => r = .complete

def Status.done : Status → Bool
  | .waits | .runs _ _ => false
  | .reported _ | .finished => true

structure ProgramShown (task : Task) (output : List Line) (status : Status) : Prop where
  ticks : ticksOf task.taskId output = countdown task.predictedBurst task.remainingBurst
  shells : shellsOf task.taskId output = []
  bound : task.remainingBurst ≤ task.predictedBurst
  here : ProgramAt task.remainingBurst status

structure ShellShown (task : Task) (output : List Line) (status : Status) : Prop where
  ticks : ticksOf task.taskId output = []
  shells : shellsOf task.taskId output = if status.done then [task.commandText] else []
  here : ShellAt status

/-- What the test has printed of a task is what it has done for it. -/
structure Shown (task : Task) (output : List Line) (status : Status) : Prop where
  program : task.type = .program → ProgramShown task output status
  shell : task.type = .shell → ShellShown task output status

/-- The fields of a record that the output is about. -/
structure SameTask (task task' : Task) : Prop where
  taskId : task'.taskId = task.taskId
  type : task'.type = task.type
  commandText : task'.commandText = task.commandText
  predictedBurst : task'.predictedBurst = task.predictedBurst
  remainingBurst : task'.remainingBurst = task.remainingBurst

/-- A step that prints nothing of the task moves it on. -/
theorem Shown.move (h : Shown task output status) (hs : SameTask task task')
    (hticks : ticksOf task.taskId output' = ticksOf task.taskId output)
    (hshells : shellsOf task.taskId output' = shellsOf task.taskId output)
    (hprogram : task.type = .program → ProgramAt task.remainingBurst status →
      ProgramAt task.remainingBurst status')
    (hshell : task.type = .shell → ShellAt status → ShellAt status' ∧ status'.done = status.done) :
    Shown task' output' status' := by
  constructor
  · intro hty
    rw [hs.type] at hty
    have hp := h.program hty
    constructor
    · rw [hs.taskId,hs.predictedBurst,hs.remainingBurst,hticks]
      exact hp.ticks
    · rw [hs.taskId,hshells]
      exact hp.shells
    · rw [hs.predictedBurst,hs.remainingBurst]
      exact hp.bound
    · rw [hs.remainingBurst]
      exact hprogram hty hp.here
  · intro hty
    rw [hs.type] at hty
    have hp := h.shell hty
    obtain ⟨hhere,hdone⟩ := hshell hty hp.here
    constructor
    · rw [hs.taskId,hticks]
      exact hp.ticks
    · rw [hs.taskId,hs.commandText,hshells,hdone]
      exact hp.shells
    · exact hhere

theorem Shown.same (h : Shown task output status) (hs : SameTask task task') :
    Shown task' output status :=
  h.move hs rfl rfl (fun _ => id) (fun _ hh => ⟨hh,rfl⟩)

/-- The status of a task on the list scheduler. -/
inductive Has (s : System TaskLists) (fake : FakePc) (t : TaskRef) : Status → Prop
  | waits (h : t ∈ s.queue.waiting) : Has s fake t .waits
  | runs {quantum : ℤ} (h : s.main = .executing t quantum) : Has s fake t (.runs fake quantum)
  | reported {quantum : ℤ} {r : TaskRunResult} (h : s.main = .returned t quantum r) :
      Has s fake t (.reported r)
  | finished (h : Event.cleanup t ∈ s.events) : Has s fake t .finished

/-- Every task has been printed as far as it has come. -/
def AllShown (s : System TaskLists) (fake : FakePc) (output : List Line) : Prop :=
  ∀ t < s.allocated, ∀ status, Has s fake t status → Shown (s.tasks t) output status

/-- A task is in one place of the test. -/
theorem Has.unique (hi : Invariant s) (h : Has s fake t status) (h' : Has s fake t status') :
    status = status' := by
  obtain ⟨place,hp⟩ := hi.placed
  have hcurrent : ∀ {quantum r}, s.main = .executing t quantum ∨ s.main = .returned t quantum r →
      s.currentTask = some t := by
    intro quantum r hm
    rw [← hi.counted.main_task]
    rcases hm with hm | hm <;> rw [hm] <;> rfl
  cases h with
  | waits hw =>
    cases h' with
    | waits _ => rfl
    | runs hm => exact absurd hw (hp.current_not_waiting (hcurrent (r := .complete) (.inl hm)))
    | reported hm => exact absurd hw (hp.current_not_waiting (hcurrent (.inr hm)))
    | finished hz => exact absurd hw (hp.finalised_not_waiting hz)
  | runs hm =>
    cases h' with
    | waits hw => exact absurd hw (hp.current_not_waiting (hcurrent (r := .complete) (.inl hm)))
    | runs hm' =>
      rw [hm] at hm'
      cases hm'
      rfl
    | reported hm' =>
      rw [hm] at hm'
      cases hm'
    | finished hz => exact absurd (hcurrent (r := .complete) (.inl hm)) (hp.finalised_not_current hz)
  | reported hm =>
    cases h' with
    | waits hw => exact absurd hw (hp.current_not_waiting (hcurrent (.inr hm)))
    | runs hm' =>
      rw [hm] at hm'
      cases hm'
    | reported hm' =>
      rw [hm] at hm'
      cases hm'
      rfl
    | finished hz => exact absurd (hcurrent (.inr hm)) (hp.finalised_not_current hz)
  | finished hz =>
    cases h' with
    | waits hw => exact absurd hw (hp.finalised_not_waiting hz)
    | runs hm => exact absurd (hcurrent (r := .complete) (.inl hm)) (hp.finalised_not_current hz)
    | reported hm => exact absurd (hcurrent (.inr hm)) (hp.finalised_not_current hz)
    | finished _ => rfl

/-- Where a task may go that nothing is printed of. -/
structure Leads (task : Task) (status status' : Status) : Prop where
  program : task.type = .program → ProgramAt task.remainingBurst status →
    ProgramAt task.remainingBurst status'
  shell : task.type = .shell → ShellAt status → ShellAt status' ∧ status'.done = status.done

theorem Leads.refl (task : Task) (status : Status) : Leads task status status :=
  ⟨fun _ h => h,fun _ h => ⟨h,rfl⟩⟩

theorem step_same {a : Action} (he : step s a = some s') (ha : Plain a)
    (hb : ∀ remaining, a ≠ .setBurst remaining) (ht : t < s.allocated) :
    SameTask (s.tasks t) (s'.tasks t) := by
  have hc := step_continues he ht
  refine ⟨hc.taskId,hc.type,hc.commandText,(step_keeps he ha ht).1,?_⟩
  rcases step_remainingBurst he ht with hr | ⟨r,_,hr,_⟩
  · exact hr
  · exact (hb r hr).elim

/-- A step that prints nothing. -/
theorem AllShown.quiet {a : Action} (h : AllShown s fake output) (he : step s a = some s')
    (ha : Plain a) (hb : ∀ remaining, a ≠ .setBurst remaining) (fake' : FakePc)
    (hlead : ∀ t < s.allocated, ∀ status', Has s' fake' t status' →
      ∃ status, Has s fake t status ∧ Leads (s.tasks t) status status') :
    ∀ t < s.allocated, ∀ status', Has s' fake' t status' → Shown (s'.tasks t) output status' := by
  intro t ht status' hs'
  obtain ⟨status,hs,hl⟩ := hlead t ht status' hs'
  exact (h t ht status hs).move (step_same he ha hb ht) rfl rfl hl.program hl.shell

theorem signal_eq_executing {m : MainThread} (h : m.signal = .executing t quantum) :
    m = .executing t quantum := by
  cases m <;> simp_all [MainThread.signal]

theorem signal_eq_returned {m : MainThread} (h : m.signal = .returned t quantum r) :
    m = .returned t quantum r := by
  cases m <;> simp_all [MainThread.signal]

theorem stop_shown (h : AllShown s fake output) :
    AllShown (schedulerRequestStop s) fake output := by
  refine h.quiet (a := .requestStop) rfl trivial (by simp) fake fun t _ status hs => ?_
  refine ⟨status,?_,Leads.refl _ _⟩
  cases hs with
  | waits hw => exact .waits hw
  | runs hm => exact .runs (signal_eq_executing hm)
  | reported hm => exact .reported (signal_eq_returned hm)
  | finished hz => exact .finished hz

theorem submit_shown (hi : Invariant s) (h : AllShown s fake output) (request : TaskRequest)
    (hticks : ticksOf (s.allocated + 1) output = [])
    (hshells : shellsOf (s.allocated + 1) output = []) :
    AllShown (schedulerSubmitTask s (schedulerCreateTask request)) fake output := by
  have he : step s (.submit request) = some (schedulerSubmitTask s (schedulerCreateTask request)) :=
    rfl
  have hi' := step_invariant hi he
  obtain ⟨new,hev,hnew⟩ := schedulerSubmitTask_events s (schedulerCreateTask request)
  intro t ht status hs
  simp only [schedulerSubmitTask_frame] at ht
  rcases Nat.lt_succ_iff_lt_or_eq.mp ht with hlt | rfl
  · refine h.quiet he trivial (by simp) fake (fun t ht status hs => ?_) t hlt status hs
    refine ⟨status,?_,Leads.refl _ _⟩
    cases hs with
    | waits hw =>
      simp only [schedulerSubmitTask_frame,enqueue_lists,List.mem_append,List.mem_singleton] at hw
      exact .waits (hw.resolve_right ht.ne)
    | runs hm => exact .runs (signal_eq_executing (by simpa using hm))
    | reported hm => exact .reported (signal_eq_returned (by simpa using hm))
    | finished hz =>
      rw [hev,List.mem_append] at hz
      refine .finished (hz.resolve_left fun hz => ?_)
      rcases hnew _ hz with hz | ⟨u,hz⟩ <;> cases hz
  · have hw : Has (schedulerSubmitTask s (schedulerCreateTask request)) fake s.allocated .waits :=
      .waits (by simp)
    obtain rfl := hw.unique hi' hs
    obtain ⟨haccepted,hburst⟩ := submitted_accepted hi.numbered request
    constructor
    · intro hty
      have hprogram : request.type = .program := haccepted.type ▸ hty
      have hpos := burstOf_pos s.config request
      rw [← haccepted.predictedBurst hprogram] at hpos
      refine ⟨?_,?_,(hburst hprogram).le,?_⟩
      · rw [haccepted.taskId,hticks,hburst hprogram,countdown_self]
      · rw [haccepted.taskId,hshells]
      · rw [hburst hprogram]
        exact hpos
    · intro hty
      refine ⟨?_,?_,trivial⟩
      · rw [haccepted.taskId,hticks]
      · rw [haccepted.taskId,hshells]
        rfl

theorem quantumFor_pos (s : System TaskLists) (task : Task) : 0 < quantumFor s task := by
  unfold quantumFor
  split_ifs
  · exact s.config.firstRoundQuantum_pos
  · exact s.config.laterRoundQuantum_pos

/-- Back at the loop's head the executor will start anew. -/
theorem enter_shown (h : AllShown s .entry output) (he : step s .enter = some s') :
    AllShown s' .entry output := by
  have ha : s'.allocated = s.allocated := allocated_eq he (by simp)
  rw [AllShown,ha]
  refine h.quiet he trivial (by simp) .entry fun t _ status hs => ?_
  obtain ⟨hm,_,rfl⟩ := step_enter he
  have hstay : ∀ q m n, m.task = none →
      Has ({ s with queuedSignalCount := n, queue := q, main := m } : System TaskLists) .entry t
        status → q = s.queue → ∃ status', Has s .entry t status' ∧
          Leads (s.tasks t) status' status := by
    rintro q m n hnone hs rfl
    refine ⟨status,?_,Leads.refl _ _⟩
    cases hs with
    | waits hw => exact .waits hw
    | runs hrun =>
      rw [show m = _ from hrun] at hnone
      cases hnone
    | reported hrun =>
      rw [show m = _ from hrun] at hnone
      cases hnone
    | finished hz => exact .finished hz
  rcases enter_cases s with ⟨_,_,hc⟩ | ⟨_,hc⟩ | ⟨_,_,q,hd,hc⟩ | ⟨_,_,u,q,hd,hc⟩ <;> rw [hc] at hs
  · exact hstay _ _ _ rfl hs rfl
  · exact hstay _ _ _ rfl hs rfl
  · exact hstay _ _ _ rfl hs (dequeue_none hd).1
  · obtain ⟨hn,rfl⟩ := dequeue_some hd
    cases hs with
    | waits hw =>
      exact ⟨_,.waits (List.mem_of_mem_erase hw),Leads.refl _ _⟩
    | runs hrun =>
      obtain ⟨rfl,rfl⟩ : u = t ∧ _ = _ := by simpa using hrun
      refine ⟨_,.waits (nextTask_mem hn),?_,?_⟩
      · intro _ hpos
        exact ⟨hpos,quantumFor_pos s (s.tasks u)⟩
      · intro _ _
        exact ⟨rfl,rfl⟩
    | reported hrun =>
      simp at hrun
    | finished hz =>
      refine ⟨_,.finished ?_,Leads.refl _ _⟩
      simpa using hz

theorem finish_shown (h : AllShown s fake output)
    (hc : ∀ t < s.allocated, (s.tasks t).cancelRequested = false)
    (he : step s .finish = some s') : AllShown s' fake output := by
  have ha : s'.allocated = s.allocated := allocated_eq he (by simp)
  rw [AllShown,ha]
  refine h.quiet he trivial (by simp) fake fun t ht status hs => ?_
  obtain ⟨u,quantum,r,hm,rfl⟩ := step_finish he
  rcases finish_cases s u quantum r with ⟨hr,he⟩ | ⟨hr,state,event,he,_⟩ <;> rw [he] at hs
  · cases hs with
    | waits hw =>
      rcases List.mem_append.mp (show t ∈ s.queue.waiting ++ [u] from hw) with hw | hw
      · exact ⟨_,.waits hw,Leads.refl _ _⟩
      · obtain rfl := List.mem_singleton.mp hw
        refine ⟨_,.reported hm,fun _ hp => ?_,fun _ hshell => ?_⟩
        · exact hr.2.2
        · rw [hr.1] at hshell
          cases hshell
    | runs hrun => cases hrun
    | reported hrun => cases hrun
    | finished hz => exact ⟨_,.finished (by simpa using hz),Leads.refl _ _⟩
  · cases hs with
    | waits hw => exact ⟨_,.waits hw,Leads.refl _ _⟩
    | runs hrun => cases hrun
    | reported hrun => cases hrun
    | finished hz =>
      simp only [finalizeTask_frame,List.mem_cons,Event.cleanup.injEq,reduceCtorEq,false_or] at hz
      rcases hz with rfl | hz
      · refine ⟨_,.reported hm,fun _ hp => ?_,fun _ _ => ⟨trivial,rfl⟩⟩
        rcases hp with ⟨_,hzero⟩ | ⟨hrequeue,hpos⟩
        · exact hzero
        · exact (hr ⟨hrequeue,hc t ht,hpos⟩).elim
      · exact ⟨_,.finished hz,Leads.refl _ _⟩

/-- The executor moves on without a call of the scheduler. -/
theorem AllShown.advance (h : AllShown s fake output) (hm : s.main = .executing t quantum)
    {fake' : FakePc} (hl : Leads (s.tasks t) (.runs fake quantum) (.runs fake' quantum)) :
    AllShown s fake' output := by
  intro u hu status hs
  cases hs with
  | waits hw => exact h u hu _ (.waits hw)
  | runs hrun =>
    rw [hm] at hrun
    obtain ⟨rfl,rfl⟩ : t = u ∧ quantum = _ := by simpa using hrun
    exact (h t hu _ (.runs hm)).move ⟨rfl,rfl,rfl,rfl,rfl⟩ rfl rfl hl.program hl.shell
  | reported hrun => exact h u hu _ (.reported hrun)
  | finished hz => exact h u hu _ (.finished hz)

/-- The executor prints for its own task only, and returns. -/
theorem AllShown.report (h : AllShown s fake output) (hm : s.main = .executing t quantum)
    (fake' : FakePc)
    (hother : ∀ u < s.allocated, u ≠ t →
      ticksOf (s.tasks u).taskId output' = ticksOf (s.tasks u).taskId output ∧
        shellsOf (s.tasks u).taskId output' = shellsOf (s.tasks u).taskId output)
    (hi : Invariant s) (hown : Shown (s.tasks t) output' (.reported r)) :
    AllShown { s with main := .returned t quantum r } fake' output' := by
  intro u hu status hs
  by_cases hut : u = t
  · subst hut
    have hc : s.currentTask = some u := by
      rw [← hi.counted.main_task,hm]
      rfl
    obtain ⟨place,hp⟩ := hi.placed
    cases hs with
    | waits hw => exact absurd hw (hp.current_not_waiting hc)
    | runs hrun => cases hrun
    | reported hrun =>
      cases hrun
      exact hown
    | finished hz => exact absurd hc (hp.finalised_not_current hz)
  · obtain ⟨hticks,hshells⟩ := hother u hu hut
    have hsame : ∀ status', Has s fake u status' → Shown (s.tasks u) output' status' := fun _ hs =>
      (h u hu _ hs).move ⟨rfl,rfl,rfl,rfl,rfl⟩ hticks hshells (fun _ => id) fun _ hh => ⟨hh,rfl⟩
    cases hs with
    | waits hw => exact hsame _ (.waits hw)
    | runs hrun => cases hrun
    | reported hrun =>
      cases hrun
      exact (hut rfl).elim
    | finished hz => exact hsame _ (.finished hz)

/-- One tick of a program. -/
theorem AllShown.tick {slice : ℕ} (h : AllShown s (.tick slice) output)
    (hm : s.main = .executing t quantum) (hi : Invariant s) (ht : t < s.allocated)
    (hother : ∀ u < s.allocated, u ≠ t → (s.tasks u).taskId ≠ (s.tasks t).taskId) :
    AllShown (setTask s t { s.tasks t with remainingBurst := (s.tasks t).remainingBurst - 1 })
      (.after slice)
      (output ++ [.tick (s.tasks t).taskId (slice + 1) (s.tasks t).remainingBurst]) := by
  have hshown := h t ht _ (.runs hm)
  have hc : s.currentTask = some t := by
    rw [← hi.counted.main_task,hm]
    rfl
  obtain ⟨place,hp⟩ := hi.placed
  intro u hu status hs
  by_cases hut : u = t
  · subst hut
    have hrun : status = .runs (.after slice) quantum := by
      cases hs with
      | waits hw => exact absurd hw (hp.current_not_waiting hc)
      | runs hrun =>
        rw [show s.main = _ from hrun] at hm
        cases hm
        rfl
      | reported hrun =>
        rw [show s.main = _ from hrun] at hm
        cases hm
      | finished hz => exact absurd hc (hp.finalised_not_current hz)
    rw [hrun]
    simp only [setTask,Function.update_self]
    constructor
    · intro hty
      have hprogram := hshown.program hty
      obtain ⟨hpos,hquantum⟩ : 0 < (s.tasks u).remainingBurst ∧ 0 < quantum := hprogram.here
      have hbound := hprogram.bound
      refine ⟨?_,?_,?_,?_⟩
      · rw [ticksOf_append,hprogram.ticks,countdown_tick hbound]
        simp [ticksOf,Line.ticked]
      · rw [shellsOf_append,hprogram.shells]
        rfl
      · show (s.tasks u).remainingBurst - 1 ≤ (s.tasks u).predictedBurst
        omega
      · refine ⟨?_,hquantum⟩
        show 0 ≤ (s.tasks u).remainingBurst - 1
        omega
    · intro hty
      cases (hshown.shell hty).here
  · have hne := hother u hu hut
    have hticks : ticksOf (s.tasks u).taskId
        (output ++ [.tick (s.tasks t).taskId (slice + 1) (s.tasks t).remainingBurst]) =
          ticksOf (s.tasks u).taskId output := by
      rw [ticksOf_append]
      simp [ticksOf,Line.ticked,Ne.symm hne]
    have hshells : shellsOf (s.tasks u).taskId
        (output ++ [.tick (s.tasks t).taskId (slice + 1) (s.tasks t).remainingBurst]) =
          shellsOf (s.tasks u).taskId output := by
      rw [shellsOf_append]
      exact List.append_nil _
    simp only [setTask,Function.update_of_ne hut]
    have hsame : ∀ status', Has s (.tick slice) u status' →
        Shown (s.tasks u) (output ++ [.tick (s.tasks t).taskId (slice + 1)
          (s.tasks t).remainingBurst]) status' := fun _ hs =>
      (h u hu _ hs).move ⟨rfl,rfl,rfl,rfl,rfl⟩ hticks hshells (fun _ => id) fun _ hh => ⟨hh,rfl⟩
    cases hs with
    | waits hw => exact hsame _ (.waits hw)
    | runs hrun =>
      rw [show s.main = _ from hrun] at hm
      cases hm
      exact (hut rfl).elim
    | reported hrun =>
      rw [show s.main = _ from hrun] at hm
      cases hm
    | finished hz => exact hsame _ (.finished hz)

end Shown

section Plain
variable {s s' : System TaskLists} {a : Action}

/-- What the steps of the test keep of the queue, the signals and the stop flag. -/
structure Orderly (s : System TaskLists) : Prop where
  noFreeing : ∀ thread, s.queue.toFree thread = []
  signals : s.queuedSignalCount = s.queue.waiting.length
  exited : s.main = .exited → s.stopRequested = true

theorem orderly_init (config : Option SchedulerConfig) (hasCleanup : Bool) :
    Orderly (schedulerInit TaskLists config hasCleanup) := by
  refine ⟨fun _ => rfl,rfl,fun h => ?_⟩
  cases h

theorem signal_ne_exited {m : MainThread} (h : m.signal = .exited) : m = .exited := by
  cases m <;> simp_all [MainThread.signal]

theorem step_orderly (h : Orderly s) (hi : Invariant s) (he : step s a = some s') (ha : Plain a) :
    Orderly s' := by
  have hsignals := h.signals
  cases a with
  | submit request =>
    cases he
    refine ⟨?_,?_,?_⟩
    · simpa using h.noFreeing
    · simpa using hsignals
    · simp only [schedulerSubmitTask_frame]
      exact fun hm => h.exited (signal_ne_exited hm)
  | cancel => exact ha.elim
  | free => exact ha.elim
  | requestStop =>
    cases he
    exact ⟨h.noFreeing,h.signals,fun _ => rfl⟩
  | enter =>
    obtain ⟨hm,_,rfl⟩ := step_enter he
    rcases enter_cases s with ⟨hz,_,hs⟩ | ⟨hx,hs⟩ | ⟨hz,_,q,hd,hs⟩ | ⟨hz,_,t,q,hd,hs⟩ <;> rw [hs]
    · exact ⟨h.noFreeing,h.signals,fun hm => by cases hm⟩
    · have hw : s.queue.waiting = [] := (hi.counted.idle hx.2).1
      refine ⟨h.noFreeing,?_,fun _ => hx.1⟩
      rw [hw] at hsignals ⊢
      simp [hsignals]
    · rw [hsignals,(dequeue_none hd).2] at hz
      simp at hz
    · obtain ⟨hn,rfl⟩ := dequeue_some hd
      refine ⟨h.noFreeing,?_,fun hm => ?_⟩
      · have hlen := List.length_erase_of_mem (nextTask_mem hn)
        simp only [dispatchTask_frame,hlen]
        omega
      · simp at hm
  | setBurst remaining =>
    obtain ⟨t,quantum,_,rfl⟩ := step_setBurst he
    exact ⟨h.noFreeing,h.signals,h.exited⟩
  | result r =>
    obtain ⟨t,quantum,_,rfl⟩ := step_result he
    refine ⟨h.noFreeing,h.signals,fun hm => ?_⟩
    cases hm
  | finish =>
    obtain ⟨t,quantum,r,_,rfl⟩ := step_finish he
    rcases finish_cases s t quantum r with ⟨_,hs⟩ | ⟨_,state,event,hs,_⟩ <;> rw [hs]
    · refine ⟨h.noFreeing,by simpa using hsignals,fun hm => ?_⟩
      cases hm
    · refine ⟨h.noFreeing,by simpa using hsignals,fun hm => ?_⟩
      cases hm

theorem step_stopRequested (he : step s a = some s') (ha : a ≠ .requestStop) :
    s'.stopRequested = s.stopRequested := by
  cases a with
  | submit request =>
    cases he
    simp
  | cancel thread client =>
    obtain ⟨_,rfl⟩ := step_cancel he
    simp [schedulerCancelClientTasks]
  | free thread =>
    obtain ⟨_,_,_,_,_,_,hstop,_⟩ := freeNext_eq he
    exact hstop
  | requestStop => exact (ha rfl).elim
  | enter =>
    obtain ⟨_,_,rfl⟩ := step_enter he
    rcases enter_cases s with ⟨_,_,hs⟩ | ⟨_,hs⟩ | ⟨_,_,q,_,hs⟩ | ⟨_,_,t,q,_,hs⟩
    all_goals simp [hs]
  | setBurst remaining =>
    obtain ⟨t,quantum,_,rfl⟩ := step_setBurst he
    rfl
  | result r =>
    obtain ⟨t,quantum,_,rfl⟩ := step_result he
    rfl
  | finish =>
    obtain ⟨t,quantum,r,_,rfl⟩ := step_finish he
    rcases finish_cases s t quantum r with ⟨_,hs⟩ | ⟨_,state,event,hs,_⟩
    all_goals simp [hs]

/-- Once nothing is left to do, only a submission changes that. -/
theorem step_idle (hi : Invariant s) (he : step s a = some s') (ha : Plain a)
    (hs : ∀ request, a ≠ .submit request) (hz : s.activeTaskCount = 0) :
    s'.activeTaskCount = 0 := by
  have hc : ∀ thread client, a ≠ .cancel thread client := by
    rintro thread client rfl
    exact ha
  rcases step_activeTaskCount he hs hc with hsame | ⟨_,_,t,quantum,r,hm,_⟩
  · rw [hsame,hz]
  · have hnone := (hi.counted.idle hz).2
    rw [← hi.counted.main_task,hm] at hnone
    cases hnone

/-- A thread that has left its loop stays there. -/
theorem step_stays_exited (he : step s a = some s') (hm : s.main = .exited) :
    s'.main = .exited := by
  cases a with
  | submit request =>
    cases he
    simp [hm,MainThread.signal]
  | cancel thread client =>
    obtain ⟨_,rfl⟩ := step_cancel he
    simpa [schedulerCancelClientTasks] using hm
  | free thread =>
    obtain ⟨_,_,_,_,_,_,_,_,_,_,_,_,hmain,_⟩ := freeNext_eq he
    rw [hmain,hm]
  | requestStop =>
    cases he
    simp [schedulerRequestStop,condSignal,hm,MainThread.signal]
  | enter =>
    obtain ⟨_,hne,_⟩ := step_enter he
    exact (hne hm).elim
  | setBurst remaining =>
    obtain ⟨t,quantum,_,rfl⟩ := step_setBurst he
    exact hm
  | result r =>
    obtain ⟨t,quantum,hrun,_⟩ := step_result he
    rw [hm] at hrun
    cases hrun
  | finish =>
    obtain ⟨t,quantum,r,hrun,_⟩ := step_finish he
    rw [hm] at hrun
    cases hrun

end Plain

section Sound
variable {policy : PolicyConfig} {requests : List TaskRequest} {s s' : Bench}
  {l l' : System TaskLists} {a : Action}

def Line.id : Line → ℤ
  | .shell id _ => id
  | .tick id _ _ => id

/-- All work is over, and all requests were made unless the test has failed before. -/
def Finished (requests : List TaskRequest) (l : System TaskLists) (code : ℤ) : Prop :=
  l.activeTaskCount = 0 ∧ l.allocated = if code = 0 then requests.length else 0

/-- What holds where `main` stands. -/
def AtMain (requests : List TaskRequest) (l : System TaskLists) (started : Bool) : MainPc → Prop
  | .start rest => rest = requests ∧ l.allocated = 0 ∧ started = false ∧ l.stopRequested = false
  | .create rest => rest = requests ∧ l.allocated = 0 ∧ started = true ∧ l.stopRequested = false
  | .submit rest => rest = requests.drop l.allocated ∧ l.allocated ≤ requests.length ∧
      started = true ∧ l.stopRequested = false
  | .poll => l.allocated = requests.length ∧ started = true ∧ l.stopRequested = false
  | .requestStop code => Finished requests l code ∧ started = true ∧ l.stopRequested = false
  | .join code => Finished requests l code ∧ started = true ∧ l.stopRequested = true
  | .destroy code | .returned code =>
    Finished requests l code ∧ (started = true → l.main = .exited)

/-- The test against the list scheduler. -/
structure Sound (policy : PolicyConfig) (requests : List TaskRequest) (s : Bench)
    (l : System TaskLists) : Prop where
  refines : Refines s.sched l
  config : l.config = policy
  orderly : Orderly l
  accepted : ∀ t < l.allocated, ∃ r, requests[t]? = some r ∧ Accepted policy r t (l.tasks t)
  shown : AllShown l s.fake s.output
  lines : ∀ line ∈ s.output, line.id ≤ l.allocated
  entry : (∀ t quantum, l.main ≠ .executing t quantum) → s.fake = .entry
  atMain : AtMain requests l s.started s.pc

theorem init_sound (config : Option SchedulerConfig) (requests : List TaskRequest) :
    Sound (initConfig config) requests (init config requests)
      (schedulerInit TaskLists config false) := by
  refine ⟨refines_init config false,rfl,orderly_init config false,?_,?_,?_,fun _ => rfl,
    rfl,rfl,rfl,rfl⟩
  · intro t ht
    cases ht
  · intro t ht
    cases ht
  · intro line hl
    cases hl

theorem act_eq (h : s.act a = some s') :
    ∃ c, step s.sched a = some c ∧ s' = { s with sched := c } := by
  obtain ⟨c,hc,rfl⟩ := Option.map_eq_some_iff.mp h
  exact ⟨c,hc,rfl⟩

/-- The list scheduler follows a step of the test, and no request is lost sight of. -/
theorem Sound.follow (h : Sound policy requests s l) {c : System TaskLinks}
    (hc : step s.sched a = some c) (ha : Plain a) : ∃ l', step l a = some l' ∧ Refines c l' ∧
      l'.config = policy ∧ Orderly l' ∧ ∀ t < l.allocated, ∃ r, requests[t]? = some r ∧
        Accepted policy r t (l'.tasks t) := by
  obtain ⟨l',he,hr⟩ := step_refines h.refines hc
  refine ⟨l',he,hr,(step_config he).trans h.config,
    step_orderly h.orderly h.refines.invariant he ha,fun t ht => ?_⟩
  obtain ⟨r,hreq,hacc⟩ := h.accepted t ht
  exact ⟨r,hreq,hacc.step he ha ht⟩

theorem Finished.step {code : ℤ} (h : Finished requests l code) (hi : Invariant l)
    (he : Scheduler.step l a = some l') (ha : Plain a) (hs : ∀ request, a ≠ .submit request) :
    Finished requests l' code :=
  ⟨step_idle hi he ha hs h.1,(allocated_eq he hs).trans h.2⟩

/-- A step of the scheduler thread is none of the main thread. -/
theorem atMain_step {pc : MainPc} (h : AtMain requests l s.started pc) (hi : Invariant l)
    (he : step l a = some l') (ha : Plain a) (hs : ∀ request, a ≠ .submit request)
    (hstop : a ≠ .requestStop) : AtMain requests l' s.started pc := by
  have hallocated := allocated_eq he hs
  have hstopped := step_stopRequested he hstop
  cases pc with
  | start rest =>
    obtain ⟨hrest,hz,hn,hst⟩ := h
    exact ⟨hrest,hallocated.trans hz,hn,hstopped.trans hst⟩
  | create rest =>
    obtain ⟨hrest,hz,hn,hst⟩ := h
    exact ⟨hrest,hallocated.trans hz,hn,hstopped.trans hst⟩
  | submit rest =>
    obtain ⟨hrest,hle,hn,hst⟩ := h
    rw [← hallocated] at hrest hle
    exact ⟨hrest,hle,hn,hstopped.trans hst⟩
  | poll =>
    obtain ⟨hlen,hn,hst⟩ := h
    exact ⟨hallocated.trans hlen,hn,hstopped.trans hst⟩
  | requestStop code =>
    obtain ⟨hf,hn,hst⟩ := h
    exact ⟨hf.step hi he ha hs,hn,hstopped.trans hst⟩
  | join code =>
    obtain ⟨hf,hn,hst⟩ := h
    exact ⟨hf.step hi he ha hs,hn,hstopped.trans hst⟩
  | destroy code =>
    obtain ⟨hf,hx⟩ := h
    exact ⟨hf.step hi he ha hs,fun hn => step_stays_exited he (hx hn)⟩
  | returned code =>
    obtain ⟨hf,hx⟩ := h
    exact ⟨hf.step hi he ha hs,fun hn => step_stays_exited he (hx hn)⟩

/-- A step of `main` that leaves the scheduler alone. -/
theorem Sound.main (h : Sound policy requests s l) {started : Bool} {pc : MainPc}
    (hm : AtMain requests l started pc) :
    Sound policy requests { s with started := started, pc := pc } l :=
  ⟨h.refines,h.config,h.orderly,h.accepted,h.shown,h.lines,h.entry,hm⟩

theorem Sound.fresh_ge (h : Sound policy requests s l) {t : ℕ} (ht : l.allocated ≤ t) :
    ticksOf (t + 1) s.output = [] ∧ shellsOf (t + 1) s.output = [] := by
  constructor <;> apply List.filterMap_eq_nil_iff.mpr
  all_goals
    intro line hl
    have hid := h.lines line hl
    cases line with
    | shell id text =>
      simp only [Line.id] at hid
      simp only [Line.ticked,Line.ran,ite_eq_right_iff,reduceCtorEq,imp_false]
      try omega
    | tick id slice remaining =>
      simp only [Line.id] at hid
      simp only [Line.ticked,Line.ran,ite_eq_right_iff,reduceCtorEq,imp_false]
      try omega

theorem Sound.submit (h : Sound policy requests s l) {r : TaskRequest} {rest : List TaskRequest}
    (hpc : s.pc = .submit (r :: rest))
    (he : ({ s with pc := .submit rest } : Bench).act (.submit r) = some s') :
    ∃ l', Sound policy requests s' l' := by
  obtain ⟨c,hc,rfl⟩ := act_eq he
  obtain ⟨l',hl,hr,hconfig,ho,hacc⟩ := h.follow hc trivial
  obtain ⟨hticks,hshells⟩ := h.fresh_ge le_rfl
  have hi := h.refines.invariant
  have hmain := h.atMain
  rw [hpc] at hmain
  obtain ⟨hrest,hle,hstarted,hstop⟩ := hmain
  obtain ⟨hget,hdrop⟩ : requests[l.allocated]? = some r ∧
      requests.drop (l.allocated + 1) = rest := by
    have hlt : l.allocated < requests.length := by
      by_contra hge
      rw [List.drop_of_length_le (Nat.le_of_not_lt hge)] at hrest
      cases hrest
    rw [List.drop_eq_getElem_cons hlt] at hrest
    obtain ⟨hr,hrest⟩ := List.cons.inj hrest
    exact ⟨by rw [List.getElem?_eq_getElem hlt,hr],hrest.symm⟩
  cases hl
  have hallocated : (schedulerSubmitTask l (schedulerCreateTask r)).allocated =
      l.allocated + 1 := by
    simp
  refine ⟨_,hr,hconfig,ho,?_,submit_shown hi h.shown r hticks hshells,?_,?_,?_⟩
  · intro t ht
    rw [hallocated] at ht
    rcases Nat.lt_succ_iff_lt_or_eq.mp ht with hlt | rfl
    · exact hacc t hlt
    · exact ⟨r,hget,h.config ▸ (submitted_accepted hi.numbered r).1⟩
  · intro line hline
    have := h.lines line hline
    rw [hallocated]
    push_cast
    omega
  · intro hx
    refine h.entry fun t quantum hm => hx t quantum ?_
    simp [hm,MainThread.signal]
  · refine ⟨?_,?_,hstarted,?_⟩
    · rw [hallocated]
      exact hdrop.symm
    · rw [hallocated]
      exact (List.getElem?_eq_some_iff.mp hget).1
    · simpa using hstop

theorem Sound.stop (h : Sound policy requests s l) {code : ℤ} (hpc : s.pc = .requestStop code)
    (he : ({ s with pc := .join code } : Bench).act .requestStop = some s') :
    ∃ l', Sound policy requests s' l' := by
  obtain ⟨c,hc,rfl⟩ := act_eq he
  obtain ⟨l',hl,hr,hconfig,ho,hacc⟩ := h.follow hc trivial
  have hmain := h.atMain
  rw [hpc] at hmain
  obtain ⟨hf,hstarted,_⟩ := hmain
  cases hl
  refine ⟨_,hr,hconfig,ho,hacc,stop_shown h.shown,h.lines,?_,hf,hstarted,rfl⟩
  intro hx
  refine h.entry fun t quantum hm => hx t quantum ?_
  simp [schedulerRequestStop,condSignal,hm,MainThread.signal]

theorem Sound.enter (h : Sound policy requests s l) (he : s.act .enter = some s') :
    ∃ l', Sound policy requests s' l' := by
  obtain ⟨c,hc,rfl⟩ := act_eq he
  obtain ⟨l',hl,hr,hconfig,ho,hacc⟩ := h.follow hc trivial
  have hi := h.refines.invariant
  have hallocated := allocated_eq hl (by simp)
  have hnot : ∀ t quantum, l.main ≠ .executing t quantum := by
    intro t quantum hm
    obtain ⟨hnone,_⟩ := step_enter hl
    rw [hm] at hnone
    cases hnone
  have hentry := h.entry hnot
  have hshown := h.shown
  rw [hentry] at hshown
  refine ⟨l',hr,hconfig,ho,hallocated ▸ hacc,?_,?_,fun _ => hentry,?_⟩
  · show AllShown l' s.fake s.output
    rw [hentry]
    exact enter_shown hshown hl
  · rw [hallocated]
    exact h.lines
  · exact atMain_step h.atMain hi hl trivial (by simp) (by simp)

theorem Sound.finish (h : Sound policy requests s l) (he : s.act .finish = some s') :
    ∃ l', Sound policy requests s' l' := by
  obtain ⟨c,hc,rfl⟩ := act_eq he
  obtain ⟨l',hl,hr,hconfig,ho,hacc⟩ := h.follow hc trivial
  have hi := h.refines.invariant
  have hallocated := allocated_eq hl (by simp)
  have hcancel : ∀ t < l.allocated, (l.tasks t).cancelRequested = false := by
    intro t ht
    obtain ⟨r,_,hacc⟩ := h.accepted t ht
    exact hacc.cancelRequested
  refine ⟨l',hr,hconfig,ho,hallocated ▸ hacc,finish_shown h.shown hcancel hl,?_,fun _ => ?_,?_⟩
  · rw [hallocated]
    exact h.lines
  · refine h.entry fun t quantum hm => ?_
    obtain ⟨u,q,r,hret,_⟩ := step_finish hl
    rw [hm] at hret
    cases hret
  · exact atMain_step h.atMain hi hl trivial (by simp) (by simp)

/-- The executor's task, and what has been printed of it. -/
theorem Sound.running (h : Sound policy requests s l) {t : TaskRef} {quantum : ℤ}
    (hm : l.main = .executing t quantum) : t < l.allocated ∧
      Shown (l.tasks t) s.output (.runs s.fake quantum) := by
  have hi := h.refines.invariant
  obtain ⟨place,hp⟩ := hi.placed
  have ht : t < l.allocated := by
    apply hp.current_lt
    rw [← hi.counted.main_task,hm]
    rfl
  exact ⟨ht,h.shown t ht _ (.runs hm)⟩

/-- Two tasks have two ids, so a line is about one of them. -/
theorem taskId_ne (hi : Invariant l) {t u : TaskRef} (ht : t < l.allocated) (hu : u < l.allocated)
    (hne : u ≠ t) : (l.tasks u).taskId ≠ (l.tasks t).taskId :=
  fun he => hne (hi.taskId_inj hu ht he)

/-- The executor goes on by itself. -/
theorem Sound.advance (h : Sound policy requests s l) {t : TaskRef} {quantum : ℤ} {fake : FakePc}
    (hm : l.main = .executing t quantum)
    (hl : Leads (l.tasks t) (.runs s.fake quantum) (.runs fake quantum)) :
    Sound policy requests { s with fake := fake } l :=
  ⟨h.refines,h.config,h.orderly,h.accepted,h.shown.advance hm hl,h.lines,
    fun hx => (hx t quantum hm).elim,h.atMain⟩

/-- The executor returns, with its last lines printed. -/
theorem Sound.result (h : Sound policy requests s l) {t : TaskRef} {quantum : ℤ} {r : TaskRunResult}
    {new : List Line} (hm : l.main = .executing t quantum)
    (hnew : ∀ line ∈ new, line.id = (l.tasks t).taskId)
    (hown : Shown (l.tasks t) (s.output ++ new) (.reported r))
    (he : ({ s with output := s.output ++ new } : Bench).result r = some s') :
    ∃ l', Sound policy requests s' l' := by
  obtain ⟨c,hc,rfl⟩ := act_eq he
  obtain ⟨l',hl,hr,hconfig,ho,hacc⟩ := h.follow hc trivial
  have hi := h.refines.invariant
  obtain ⟨ht,_⟩ := h.running hm
  have hallocated := allocated_eq hl (by simp)
  obtain ⟨u,q,hrun,hl'⟩ := step_result hl
  rw [hm] at hrun
  cases hrun
  have hother : ∀ u < l.allocated, u ≠ t →
      ticksOf (l.tasks u).taskId (s.output ++ new) = ticksOf (l.tasks u).taskId s.output ∧
        shellsOf (l.tasks u).taskId (s.output ++ new) = shellsOf (l.tasks u).taskId s.output := by
    intro u hu hne
    have hid := taskId_ne hi ht hu hne
    rw [ticksOf_append,shellsOf_append]
    have hnone : ticksOf (l.tasks u).taskId new = [] ∧ shellsOf (l.tasks u).taskId new = [] := by
      constructor <;> apply List.filterMap_eq_nil_iff.mpr
      all_goals
        intro line hline
        have heq := hnew line hline
        cases line <;> simp only [Line.id] at heq <;> simp [Line.ticked,Line.ran,heq,Ne.symm hid]
    rw [hnone.1,hnone.2,List.append_nil,List.append_nil]
    exact ⟨rfl,rfl⟩
  refine ⟨l',hr,hconfig,ho,hallocated ▸ hacc,?_,?_,fun _ => rfl,?_⟩
  · rw [hl']
    exact h.shown.report hm .entry hother hi hown
  · intro line hline
    rw [hallocated]
    rcases List.mem_append.mp hline with hline | hline
    · exact h.lines line hline
    · rw [hnew line hline,hi.numbered.taskId t ht]
      exact_mod_cast Nat.succ_le_of_lt ht
  · exact atMain_step h.atMain hi hl trivial (by simp) (by simp)

theorem Sound.returns (h : Sound policy requests s l) {t : TaskRef} {quantum : ℤ}
    {r : TaskRunResult}
    (hm : l.main = .executing t quantum)
    (hl : Leads (l.tasks t) (.runs s.fake quantum) (.reported r))
    (he : s.result r = some s') : ∃ l', Sound policy requests s' l' := by
  obtain ⟨_,hshown⟩ := h.running hm
  refine h.result hm (List.forall_mem_nil _) ?_ (by simpa using he)
  rw [List.append_nil]
  exact hshown.move ⟨rfl,rfl,rfl,rfl,rfl⟩ rfl rfl hl.program hl.shell

theorem Sound.tick (h : Sound policy requests s l) {t : TaskRef} {quantum : ℤ} {slice : ℕ}
    (hm : l.main = .executing t quantum) (hf : s.fake = .tick slice)
    (he : ({ s.print (.tick (s.sched.tasks t).taskId (slice + 1)
      (s.sched.tasks t).remainingBurst) with fake := .after slice } : Bench).act
        (.setBurst ((s.sched.tasks t).remainingBurst - 1)) = some s') :
    ∃ l', Sound policy requests s' l' := by
  rw [h.refines.core] at he
  obtain ⟨c,hc,rfl⟩ := act_eq he
  obtain ⟨l',hl,hr,hconfig,ho,hacc⟩ := h.follow hc trivial
  have hi := h.refines.invariant
  obtain ⟨ht,_⟩ := h.running hm
  have hallocated := allocated_eq hl (by simp)
  obtain ⟨u,q,hrun,hl'⟩ := step_setBurst hl
  rw [hm] at hrun
  cases hrun
  have hshown := h.shown
  rw [hf] at hshown
  refine ⟨l',hr,hconfig,ho,hallocated ▸ hacc,?_,?_,fun hx => ?_,?_⟩
  · rw [hl']
    exact hshown.tick hm hi ht fun u hu hne => taskId_ne hi ht hu hne
  · intro line hline
    rw [hallocated]
    rcases List.mem_append.mp hline with hline | hline
    · exact h.lines line hline
    · rw [List.mem_singleton.mp hline,Line.id,hi.numbered.taskId t ht]
      exact_mod_cast Nat.succ_le_of_lt ht
  · refine (hx t quantum ?_).elim
    rw [hl']
    exact hm
  · exact atMain_step h.atMain hi hl trivial (by simp) (by simp)

theorem Sound.execute (h : Sound policy requests s l) (he : s.fakeExecutor = some s') :
    ∃ l', Sound policy requests s' l' := by
  obtain ⟨t,quantum,hm,he⟩ := Bench.fakeExecutor_executed he
  have hcore := h.refines.core
  rw [hcore] at hm
  obtain ⟨ht,hshown⟩ := h.running hm
  obtain ⟨r,_,hacc⟩ := h.accepted t ht
  have hnoShell : ∀ {fake : FakePc}, s.fake = fake → fake ≠ .entry → (l.tasks t).type ≠ .shell := by
    rintro _ rfl hne hty
    exact hne (hshown.shell hty).here
  cases he with
  | shell hf hty he =>
    rw [hf] at hshown
    rw [hcore] at hty
    have hshell := hshown.shell hty
    refine h.result hm ?_ ?_ he
    · intro line hline
      rw [List.mem_singleton.mp hline,hcore]
      rfl
    · rw [hcore]
      constructor
      · intro hprogram
        rw [hty] at hprogram
        cases hprogram
      · intro _
        refine ⟨?_,?_,rfl⟩
        · rw [ticksOf_append,hshell.ticks]
          rfl
        · rw [shellsOf_append,hshell.shells]
          simp [shellsOf,Line.ran,Status.done]
  | starts hf hty =>
    rw [hcore] at hty
    refine ⟨l,h.advance hm ⟨fun _ hp => ?_,fun hshell => (hty hshell).elim⟩⟩
    rw [hf] at hp
    exact hp
  | cancels hf hcancel he =>
    -- nobody has asked for a cancellation
    rw [hcore] at hcancel
    simp [schedulerTaskShouldCancel,hacc.cancelRequested] at hcancel
  | polls hf hloop =>
    refine ⟨l,h.advance hm ⟨fun _ hp => ?_,fun hshell => (hnoShell hf (by simp) hshell).elim⟩⟩
    rw [hf] at hp
    exact hp
  | leaves hf hloop he =>
    refine h.returns hm ⟨fun _ hp => ?_,fun hshell => (hnoShell hf (by simp) hshell).elim⟩ he
    rw [hf] at hp
    rw [hcore,if_pos hp.1]
    exact Or.inr ⟨rfl,hp.1⟩
  | ticks hf he => exact h.tick hm hf he
  | completes hf hzero he =>
    rw [hcore] at hzero
    refine h.returns hm ⟨fun _ hp => ?_,fun hshell => (hnoShell hf (by simp) hshell).elim⟩ he
    rw [hf] at hp
    exact Or.inl ⟨rfl,le_antisymm hzero hp.1⟩
  | yields hf hpos he =>
    rw [hcore] at hpos
    refine h.returns hm ⟨fun _ hp => ?_,fun hshell => (hnoShell hf (by simp) hshell).elim⟩ he
    exact Or.inr ⟨rfl,not_le.mp hpos⟩
  | goesOn hf hpos =>
    rw [hcore] at hpos
    refine ⟨l,h.advance hm ⟨fun _ hp => ?_,fun hshell => (hnoShell hf (by simp) hshell).elim⟩⟩
    rw [hf] at hp
    exact ⟨not_le.mp hpos,hp.2⟩

theorem idle_of_allocated (hi : Invariant l) (hz : l.allocated = 0) : l.activeTaskCount = 0 := by
  obtain ⟨place,hp⟩ := hi.placed
  have hwaiting : l.queue.waiting = [] := List.eq_nil_iff_forall_not_mem.mpr fun t ht => by
    exact Nat.not_lt_zero t (hz ▸ hp.waiting_lt ht)
  have hcurrent : l.currentTask = none := Option.eq_none_iff_forall_ne_some.mpr fun t ht => by
    exact Nat.not_lt_zero t (hz ▸ hp.current_lt ht)
  rw [hi.counted.active,hwaiting,hcurrent]
  rfl

theorem Sound.idle (h : Sound policy requests s l) (hz : l.activeTaskCount = 0) :
    s.schedulerDestroy = s := by
  have hnone : waitingRecords s.sched.allocated s.sched.queue = [] := by
    rw [h.refines.waitingRecords]
    exact (h.refines.invariant.counted.idle hz).1
  simp only [Bench.schedulerDestroy,hnone,List.map_nil,List.reverse_nil,List.nil_append]

/-- What holds of the test's first state is kept by every step of any thread. -/
theorem step_sound {x : Label} (h : Sound policy requests s l) (he : s.step x = some s') :
    ∃ l', Sound policy requests s' l' := by
  have hi := h.refines.invariant
  have hmain := h.atMain
  cases x with
  | start succeeds =>
    simp only [Bench.step] at he
    split at he
    · rename_i rest hpc
      rw [hpc] at hmain
      obtain ⟨hrest,hz,hstarted,hstop⟩ := hmain
      split_ifs at he <;> cases he
      · exact ⟨l,h.main ⟨hrest,hz,rfl,hstop⟩⟩
      · refine ⟨l,h.main ⟨⟨idle_of_allocated hi hz,hz⟩,fun hn => ?_⟩⟩
        rw [hstarted] at hn
        cases hn
    · cases he
  | create succeeds =>
    simp only [Bench.step] at he
    split at he
    · rename_i rest hpc
      rw [hpc] at hmain
      obtain ⟨hrest,hz,hstarted,hstop⟩ := hmain
      cases he
      cases succeeds
      · exact ⟨l,h.main ⟨⟨idle_of_allocated hi hz,hz⟩,hstarted,hstop⟩⟩
      · refine ⟨l,h.main ⟨?_,?_,hstarted,hstop⟩⟩
        · rw [hz]
          exact hrest
        · rw [hz]
          exact Nat.zero_le _
    · cases he
  | submit =>
    simp only [Bench.step] at he
    split at he
    · rename_i r rest hpc
      exact h.submit hpc he
    · rename_i hpc
      rw [hpc] at hmain
      obtain ⟨hrest,hle,hstarted,hstop⟩ := hmain
      cases he
      exact ⟨l,h.main ⟨le_antisymm hle (List.drop_eq_nil_iff.mp hrest.symm),hstarted,hstop⟩⟩
    · cases he
  | poll =>
    simp only [Bench.step] at he
    split at he
    · rename_i hpc
      rw [hpc] at hmain
      obtain ⟨hlen,hstarted,hstop⟩ := hmain
      split_ifs at he with hactive <;> cases he
      · exact ⟨l,h⟩
      · rw [h.refines.core] at hactive
        have hz : l.activeTaskCount = 0 := by
          have hcount := hi.counted.active
          simp only [schedulerHasActiveWork,decide_eq_true_eq] at hactive
          split at hcount <;> omega
        exact ⟨l,h.main ⟨⟨hz,hlen⟩,hstarted,hstop⟩⟩
    · cases he
  | requestStop =>
    simp only [Bench.step] at he
    split at he
    · rename_i code hpc
      exact h.stop hpc he
    · cases he
  | join =>
    simp only [Bench.step] at he
    split at he
    · rename_i code hpc
      rw [hpc] at hmain
      obtain ⟨hf,_,_⟩ := hmain
      split_ifs at he with hx
      cases he
      rw [h.refines.core] at hx
      exact ⟨l,h.main ⟨hf,fun _ => hx⟩⟩
    · cases he
  | destroy =>
    simp only [Bench.step] at he
    split at he
    · rename_i code hpc
      rw [hpc] at hmain
      cases he
      rw [h.idle hmain.1.1]
      exact ⟨l,h.main hmain⟩
    · cases he
  | enter =>
    simp only [Bench.step] at he
    split_ifs at he
    exact h.enter he
  | execute => exact h.execute he
  | finish => exact h.finish he

theorem reaches_sound {config : Option SchedulerConfig}
    (h : Reaches (Fires Bench.step) (init config requests) s) :
    ∃ l, Sound (initConfig config) requests s l := by
  refine h.invariant (P := fun s => ∃ l, Sound (initConfig config) requests s l) ?_
    ⟨_,init_sound config requests⟩
  rintro u x v ⟨l,hl⟩ he
  exact step_sound hl he

/-- Every accepted task waits, runs, has been reported or is over. -/
theorem Sound.has (h : Sound policy requests s l) {t : TaskRef} (ht : t < l.allocated) :
    ∃ status, Has l s.fake t status := by
  have hi := h.refines.invariant
  obtain ⟨place,hp⟩ := hi.placed
  cases hpt : place t with
  | none => exact absurd ((hp.fresh_iff t).mp hpt) (Nat.not_le_of_lt ht)
  | some p =>
    cases p with
    | waiting => exact ⟨_,.waits ((hp.waiting_iff t).mpr hpt)⟩
    | current =>
      have hc := (hp.current_iff t).mpr hpt
      rw [← hi.counted.main_task] at hc
      cases hm : l.main with
      | executing u quantum =>
        rw [hm] at hc
        cases hc
        exact ⟨_,.runs hm⟩
      | returned u quantum r =>
        rw [hm] at hc
        cases hc
        exact ⟨_,.reported hm⟩
      | _ =>
        rw [hm] at hc
        cases hc
    | freeing thread =>
      have hf := (hp.freeing_iff thread t).mpr hpt
      rw [h.orderly.noFreeing] at hf
      cases hf
    | finalised => exact ⟨_,.finished ((hp.finalised_iff t).mpr hpt)⟩

/-- Where nothing is left to do each task is over. -/
theorem Sound.finished (h : Sound policy requests s l) (hz : l.activeTaskCount = 0) {t : TaskRef}
    (ht : t < l.allocated) : Event.cleanup t ∈ l.events := by
  have hi := h.refines.invariant
  obtain ⟨hw,hc⟩ := hi.counted.idle hz
  rw [← hi.counted.main_task] at hc
  obtain ⟨status,hs⟩ := h.has ht
  cases hs with
  | waits hmem =>
    rw [hw] at hmem
    cases hmem
  | runs hm =>
    rw [hm] at hc
    cases hc
  | reported hm =>
    rw [hm] at hc
    cases hc
  | finished hz => exact hz

end Sound

section Printed
variable {requests : List TaskRequest} {s : Bench} {l : System TaskLists} {policy : PolicyConfig}

/-- What the test has printed for each request, and what it has printed at its end. -/
structure Printed (policy : PolicyConfig) (requests : List TaskRequest) (s : Bench) : Prop where
  fresh : ∀ t : ℕ, s.sched.allocated ≤ t →
    ticksOf (t + 1) s.output = [] ∧ shellsOf (t + 1) s.output = []
  program : ∀ t < s.sched.allocated, ∀ r ∈ requests[t]?, r.type = .program →
    ticksOf (t + 1) s.output = countdown (burstOf policy r) (s.sched.tasks t).remainingBurst ∧
      0 ≤ (s.sched.tasks t).remainingBurst ∧ shellsOf (t + 1) s.output = []
  shell : ∀ t < s.sched.allocated, ∀ r ∈ requests[t]?, r.type = .shell →
    ticksOf (t + 1) s.output = [] ∧
      (shellsOf (t + 1) s.output = [] ∨ shellsOf (t + 1) s.output = [r.commandText])
  returned : s.pc = .returned 0 → ∀ t, ∀ r ∈ requests[t]?,
    s.sched.events.count (.cleanup t) = 1 ∧
      (r.type = .program → ticksOf (t + 1) s.output = countdown (burstOf policy r) 0) ∧
      (r.type = .shell → shellsOf (t + 1) s.output = [r.commandText])

theorem programAt_nonneg {remaining : ℤ} {status : Status} (h : ProgramAt remaining status) :
    0 ≤ remaining := by
  unfold ProgramAt at h
  split at h <;> omega

theorem Sound.program (h : Sound policy requests s l) {t : TaskRef} (ht : t < l.allocated)
    {r : TaskRequest} (hr : requests[t]? = some r) (hty : r.type = .program) {status : Status}
    (hs : Has l s.fake t status) :
    ticksOf (t + 1) s.output = countdown (burstOf policy r) (l.tasks t).remainingBurst ∧
      ProgramAt (l.tasks t).remainingBurst status ∧ shellsOf (t + 1) s.output = [] := by
  obtain ⟨r',hr',hacc⟩ := h.accepted t ht
  rw [hr] at hr'
  cases hr'
  have hshown := (h.shown t ht status hs).program (hacc.type.trans hty)
  rw [← hacc.taskId,← hacc.predictedBurst hty]
  exact ⟨hshown.ticks,hshown.here,hshown.shells⟩

theorem Sound.shell (h : Sound policy requests s l) {t : TaskRef} (ht : t < l.allocated)
    {r : TaskRequest} (hr : requests[t]? = some r) (hty : r.type = .shell) {status : Status}
    (hs : Has l s.fake t status) : ticksOf (t + 1) s.output = [] ∧
      shellsOf (t + 1) s.output = if status.done then [r.commandText] else [] := by
  obtain ⟨r',hr',hacc⟩ := h.accepted t ht
  rw [hr] at hr'
  cases hr'
  have hshown := (h.shown t ht status hs).shell (hacc.type.trans hty)
  rw [← hacc.taskId,← hacc.commandText]
  exact ⟨hshown.ticks,hshown.shells⟩

/-- However the threads take turns, each program is counted down from its burst without a gap,
each shell command is run at most once, and a test that returns has done all of it. -/
theorem test_printed {config : Option SchedulerConfig}
    (h : Reaches (Fires Bench.step) (init config requests) s) :
    Printed (initConfig config) requests s := by
  obtain ⟨l,hl⟩ := reaches_sound h
  have hcore := hl.refines.core
  refine ⟨?_,?_,?_,?_⟩
  · intro t ht
    rw [hcore] at ht
    exact hl.fresh_ge ht
  · intro t ht r hr hty
    rw [hcore] at ht ⊢
    obtain ⟨status,hs⟩ := hl.has ht
    obtain ⟨hticks,hhere,hshells⟩ := hl.program ht hr hty hs
    exact ⟨hticks,programAt_nonneg hhere,hshells⟩
  · intro t ht r hr hty
    rw [hcore] at ht
    obtain ⟨status,hs⟩ := hl.has ht
    obtain ⟨hticks,hshells⟩ := hl.shell ht hr hty hs
    refine ⟨hticks,?_⟩
    rw [hshells]
    split_ifs
    · exact Or.inr rfl
    · exact Or.inl rfl
  · intro hpc t r hr
    have hmain := hl.atMain
    rw [hpc] at hmain
    obtain ⟨⟨hz,hlen⟩,_⟩ := hmain
    have ht : t < l.allocated := by
      rw [hlen,if_pos rfl]
      exact (List.getElem?_eq_some_iff.mp hr).1
    have hover := hl.finished hz ht
    obtain ⟨place,hp⟩ := hl.refines.invariant.placed
    rw [hcore]
    refine ⟨le_antisymm (hp.cleanup_once t) (List.count_pos_iff.mpr hover),fun hty => ?_,
      fun hty => ?_⟩
    · obtain ⟨hticks,hhere,_⟩ := hl.program ht hr hty (.finished hover)
      rw [hticks,show (l.tasks t).remainingBurst = 0 from hhere]
    · exact (hl.shell ht hr hty (.finished hover)).2

/-- A program of two ticks, and a shell command that comes between them. -/
def twoTasks : List TaskRequest :=
  [{ type := .program, clientNumber := 1, commandText := none, predictedBurst := 2,
     userData := none },
    { type := .shell, clientNumber := 2, commandText := some ['p','w','d'], predictedBurst := -1,
      userData := none }]

def interrupted : List Label :=
  [.start true,.create true,.submit,.enter,.execute,.execute,.execute,.submit,.submit,.poll,
    .execute,.finish,.enter,.execute,.finish,.enter,.execute,.execute,.execute,.execute,.finish,
    .poll,.requestStop,.enter,.join,.destroy]

theorem test_printed_interrupted : ∃ s, s.pc = .returned 0 ∧
    Printed (initConfig none) twoTasks s ∧ s.output =
      [.tick 1 1 2,.shell 2 (some ['p','w','d']),.tick 1 1 1] := by
  obtain ⟨s,he⟩ := Option.isSome_iff_exists.mp (show
    (exec Bench.step (init none twoTasks) interrupted).isSome = true from rfl)
  have hprinted := test_printed (reaches_of_exec he)
  cases he
  exact ⟨_,rfl,hprinted,rfl⟩

end Printed

end UnixShell.Scheduler.Harness
