import UnixShell.Scheduler.Effects
import UnixShell.Scheduler.Conservation

/-! # Which records a step reads

`scheduler_submit_task` reads the record once more after it has given the lock back.
A layer over the scheduler keeps the calls that are still to make that read; each
step comes with the records that it reads or writes.
-/
namespace UnixShell.Scheduler
open Foundation TaskQueue

/-- The record that a step hands to cleanup. -/
def handedOver {Q : Type} [TaskQueue Q] (s : System Q) : Action → Option TaskRef
  | .free thread => toFree s.queue thread
  | .finish =>
    match s.main with
    | .returned t _ r => if mayRequeue (s.tasks t) r then none else some t
    | _ => none
  | _ => none

/-- A step that leaves the history as it is hands nothing over. -/
theorem handedOver_eq_none {Q : Type} [TaskQueue Q] {s s' : System Q} {x : Action}
    (he : step s x = some s') (hev : s'.events = s.events) : handedOver s x = none := by
  cases x with
  | free thread =>
    obtain ⟨c,_,_,hc,_⟩ := freeNext_eq he
    exact (List.cons_ne_self _ _ (hc.symm.trans hev)).elim
  | finish =>
    obtain ⟨t,quantum,r,hm,rfl⟩ := step_finish he
    rcases finish_cases s t quantum r with ⟨hr,_⟩ | ⟨_,state,event,hs,_⟩
    · simp [handedOver,hm,hr]
    · rw [hs] at hev
      have hl := congrArg List.length hev
      simp only [finalizeTask_frame,List.length_cons] at hl
      omega
  | _ => rfl

theorem step_cleanup_iff {Q : Type} [TaskQueue Q] {s s' : System Q} {x : Action} {t : TaskRef}
    (he : step s x = some s') :
    Event.cleanup t ∈ s'.events ↔ handedOver s x = some t ∨ Event.cleanup t ∈ s.events := by
  cases step_stepped he with
  | submit request =>
    obtain ⟨new,hev,hn⟩ := schedulerSubmitTask_events s (schedulerCreateTask request)
    have hnew : Event.cleanup t ∉ new := by
      intro hm
      rcases hn _ hm with h | ⟨u,h⟩ <;> cases h
    simp [hev,handedOver,hnew]
  | @cancel thread client =>
    obtain ⟨new,hev,hn⟩ := cancel_events s thread client
    have hnew : Event.cleanup t ∉ new := by
      intro hm
      obtain ⟨u,h⟩ := hn _ hm
      cases h
    simp [hev,handedOver,hnew]
  | free he =>
    obtain ⟨c,hc,_,hev,_⟩ := freeNext_eq he
    simp [hev,handedOver,hc,eq_comm]
  | quiet hq => simp [hq.events,handedOver_eq_none he hq.events]
  | dispatch => simp [handedOver]
  | setBurst => simp [handedOver,setTask]
  | requeue hm hr => simp [handedOver,hm,hr]
  | finalize hm hr _ hev =>
    rcases hev with rfl | rfl | rfl <;> simp [handedOver,hm,hr,eq_comm]

/-- The scheduler, and the submissions that have queued a record and not returned. -/
structure Calls where
  sched : System TaskLinks
  returning : ThreadId → Option TaskRef

inductive CallStep
  | submit (thread : ThreadId) (request : TaskRequest)
  /-- `return task->task_id`. -/
  | returnId (thread : ThreadId)
  /-- The executor asks whether to stop, or reads its task. -/
  | poll
  | other (x : Action)
  deriving DecidableEq

def callStep (s : Calls) : CallStep → Option Calls
  | .submit thread request =>
    match s.returning thread with
    | none => (step s.sched (.submit request)).map (fun sched =>
        { sched := sched, returning := Function.update s.returning thread s.sched.allocated })
    | some _ => none
  | .returnId thread =>
    match s.returning thread with
    | none => none
    | some _ => some { s with returning := Function.update s.returning thread none }
  | .poll =>
    match s.sched.main with
    | .executing _ _ => some s
    | _ => none
  | .other (.submit _) => none
  | .other x => (step s.sched x).map (fun sched => { s with sched := sched })

def callsInit (config : Option SchedulerConfig) (hasCleanup : Bool) : Calls where
  sched := schedulerInit TaskLinks config hasCleanup
  returning := fun _ => none

section Reads
variable (s : Calls)

def currentRecord : List TaskRef := s.sched.currentTask.toList
def runningRecord : List TaskRef := s.sched.main.task.toList
def tailRecord : List TaskRef := s.sched.queue.queue.tail.toList
def queuedRecords : List TaskRef := waitingRecords s.sched.allocated s.sched.queue

/-- The records a step reads or writes. -/
def touched : CallStep → List TaskRef
  -- the new record, the last one in the queue, and the one that may be preempted
  | .submit _ _ => s.sched.allocated :: (tailRecord s ++ currentRecord s)
  | .returnId thread => (s.returning thread).toList
  | .poll => runningRecord s
  | .other (.submit _) => []
  | .other (.cancel _ _) => queuedRecords s ++ currentRecord s
  | .other (.free thread) => (toFree s.sched.queue thread).toList
  | .other .requestStop => []
  | .other .enter => queuedRecords s
  | .other (.setBurst _) => runningRecord s
  | .other (.result _) => runningRecord s
  | .other .finish => runningRecord s ++ tailRecord s

def handed : CallStep → Option TaskRef
  | .other x => handedOver s.sched x
  | _ => none

/-- Whatever step is next, it uses no record that was handed to cleanup. -/
def UsesLive : Prop :=
  ∀ x s', callStep s x = some s' → ∀ t ∈ touched s x, Event.cleanup t ∉ s.sched.events

end Reads

def NeverUsesCleaned (config : Option SchedulerConfig) (hasCleanup : Bool)
    (steps : List CallStep) : Prop :=
  ∀ pre post s, steps = pre ++ post → exec callStep (callsInit config hasCleanup) pre = some s →
    UsesLive s

/-- No step hands over a record whose submission has not returned. -/
def RetainsPending (s : Calls) (x : CallStep) : Prop :=
  ∀ thread t, s.returning thread = some t → handed s x ≠ some t

def ReturnsBeforeCleanup (config : Option SchedulerConfig) (hasCleanup : Bool)
    (steps : List CallStep) : Prop :=
  ∀ pre x post s s', steps = pre ++ x :: post →
    exec callStep (callsInit config hasCleanup) pre = some s → callStep s x = some s' →
    RetainsPending s x

section Steps
variable {s s' : Calls} {t : TaskRef}

/-- What the submissions under way will still read is live. -/
structure Sound (s : Calls) : Prop where
  reachable : Reachable s.sched
  pending : ∀ thread t, s.returning thread = some t → Event.cleanup t ∉ s.sched.events

theorem callStep_other {x : Action} (he : callStep s (.other x) = some s') :
    step s.sched x = some s'.sched ∧ s'.returning = s.returning := by
  cases x with
  | submit request => cases he
  | _ =>
    simp only [callStep,Option.map_eq_some_iff] at he
    obtain ⟨sched,hs,rfl⟩ := he
    exact ⟨hs,rfl⟩

theorem callStep_submit {thread : ThreadId} {request : TaskRequest}
    (he : callStep s (.submit thread request) = some s') :
    step s.sched (.submit request) = some s'.sched ∧
      s'.returning = Function.update s.returning thread s.sched.allocated := by
  simp only [callStep] at he
  split at he
  · obtain ⟨sched,hs,rfl⟩ := Option.map_eq_some_iff.mp he
    exact ⟨hs,rfl⟩
  · cases he

theorem callStep_returnId {thread : ThreadId} (he : callStep s (.returnId thread) = some s') :
    s' = { s with returning := Function.update s.returning thread none } := by
  simp only [callStep] at he
  split at he
  · cases he
  · exact (Option.some.inj he).symm

theorem callStep_poll (he : callStep s .poll = some s') : s' = s := by
  simp only [callStep] at he
  split at he
  · exact (Option.some.inj he).symm
  · cases he

/-- Queued, current and running records, and those being freed, are live. -/
theorem queuedRecords_live (h : Reachable s.sched) (ht : t ∈ queuedRecords s) :
    Event.cleanup t ∉ s.sched.events := by
  intro hz
  exact ((taskConservation h).cleanup_over t hz).1 ht

theorem currentRecord_live (h : Reachable s.sched) (ht : t ∈ currentRecord s) :
    Event.cleanup t ∉ s.sched.events := by
  intro hz
  exact ((taskConservation h).cleanup_over t hz).2 (Option.mem_toList.mp ht)

theorem runningRecord_live (h : Reachable s.sched) (ht : t ∈ runningRecord s) :
    Event.cleanup t ∉ s.sched.events := by
  obtain ⟨l,_,hr⟩ := reachable_refines h
  have hm : s.sched.main.task = s.sched.currentTask := by
    rw [hr.core]
    exact hr.invariant.counted.main_task
  rw [runningRecord,hm] at ht
  exact currentRecord_live h ht

theorem tailRecord_live (h : Reachable s.sched) (ht : t ∈ tailRecord s) :
    Event.cleanup t ∉ s.sched.events := by
  obtain ⟨l,_,hr⟩ := reachable_refines h
  have htail : s.sched.queue.queue.tail = some t := Option.mem_toList.mp ht
  rw [hr.queue.holds.tail_eq] at htail
  refine queuedRecords_live h ?_
  rw [queuedRecords,hr.waitingRecords]
  exact List.mem_of_getLast? htail

theorem freeing_live (h : Reachable s.sched) {thread : ThreadId}
    (ht : toFree s.sched.queue thread = some t) : Event.cleanup t ∉ s.sched.events := by
  intro hz
  obtain ⟨l,_,hr⟩ := reachable_refines h
  obtain ⟨place,hp⟩ := hr.invariant.placed
  rw [hr.queue.toFree_eq] at ht
  rw [hr.core] at hz
  exact hp.finalised_not_freeing hz thread (List.mem_of_head? ht)

theorem fresh_live (h : Reachable s.sched) : Event.cleanup s.sched.allocated ∉ s.sched.events := by
  intro hz
  obtain ⟨l,_,hr⟩ := reachable_refines h
  obtain ⟨place,hp⟩ := hr.invariant.placed
  rw [hr.core] at hz
  exact (hp.finalised_lt hz).false

theorem Sound.usesLive (h : Sound s) : UsesLive s := by
  intro x s' he t ht
  cases x with
  | submit thread request =>
    rcases List.mem_cons.mp ht with rfl | ht
    · exact fresh_live h.reachable
    · rcases List.mem_append.mp ht with ht | ht
      · exact tailRecord_live h.reachable ht
      · exact currentRecord_live h.reachable ht
  | returnId thread => exact h.pending thread t (Option.mem_toList.mp ht)
  | poll => exact runningRecord_live h.reachable ht
  | other x =>
    cases x with
    | submit request => cases ht
    | cancel thread client =>
      rcases List.mem_append.mp ht with ht | ht
      · exact queuedRecords_live h.reachable ht
      · exact currentRecord_live h.reachable ht
    | free thread => exact freeing_live h.reachable (Option.mem_toList.mp ht)
    | requestStop => cases ht
    | enter => exact queuedRecords_live h.reachable ht
    | setBurst remaining => exact runningRecord_live h.reachable ht
    | result r => exact runningRecord_live h.reachable ht
    | finish =>
      rcases List.mem_append.mp ht with ht | ht
      · exact runningRecord_live h.reachable ht
      · exact tailRecord_live h.reachable ht

theorem sound_init (config : Option SchedulerConfig) (hasCleanup : Bool) :
    Sound (callsInit config hasCleanup) :=
  ⟨⟨config,hasCleanup,Reaches.refl _⟩,fun _ _ h => by cases h⟩

/-- A step that hands over no pending record keeps all of them live. -/
theorem Sound.step (h : Sound s) {x : CallStep} (hx : RetainsPending s x)
    (he : callStep s x = some s') : Sound s' := by
  cases x with
  | submit thread request =>
    obtain ⟨hs,hret⟩ := callStep_submit he
    refine ⟨h.reachable.step hs,fun thread' u hu hz => ?_⟩
    have hz' := ((step_cleanup_iff hs).mp hz).resolve_left (by simp [handedOver])
    rw [hret] at hu
    by_cases ht : thread' = thread
    · subst ht
      rw [Function.update_self] at hu
      cases hu
      exact fresh_live h.reachable hz'
    · rw [Function.update_of_ne ht] at hu
      exact h.pending thread' u hu hz'
  | returnId thread =>
    obtain rfl := callStep_returnId he
    refine ⟨h.reachable,fun thread' u hu => ?_⟩
    by_cases ht : thread' = thread
    · subst ht
      simp at hu
    · exact h.pending thread' u (by simpa [Function.update_of_ne ht] using hu)
  | poll =>
    obtain rfl := callStep_poll he
    exact h
  | other x =>
    obtain ⟨hs,hret⟩ := callStep_other he
    refine ⟨h.reachable.step hs,fun thread u hu hz => ?_⟩
    rw [hret] at hu
    rcases (step_cleanup_iff hs).mp hz with hz | hz
    · exact hx thread u hu hz
    · exact h.pending thread u hu hz

/-- A record handed over while its submission is under way is read afterwards. -/
theorem not_usesLive {x : CallStep} {thread : ThreadId} (he : callStep s x = some s')
    (hr : s.returning thread = some t) (hx : handed s x = some t) : ¬ UsesLive s' := by
  intro h
  cases x with
  | other x =>
    obtain ⟨hs,hret⟩ := callStep_other he
    rw [← hret] at hr
    refine h (.returnId thread) { s' with returning := Function.update s'.returning thread none }
      ?_ t (Option.mem_toList.mpr hr) ((step_cleanup_iff hs).mpr (Or.inl hx))
    simp only [callStep,hr]
  | _ => cases hx

end Steps

variable (config : Option SchedulerConfig) (hasCleanup : Bool) (steps : List CallStep)

/-- No record is used after its cleanup exactly where every submission has returned before
its record is cleaned up. All the other reads are of live records in every run. -/
theorem neverUsesCleaned_iff : NeverUsesCleaned config hasCleanup steps ↔
    ReturnsBeforeCleanup config hasCleanup steps := by
  constructor
  · intro h pre x post s s' hs he he' thread t hr hx
    refine not_usesLive he' hr hx (h (pre ++ [x]) post s' (by simp [hs]) ?_)
    rw [exec_append,he]
    simpa [exec] using he'
  · intro h pre post s hs he
    have hreach : Reaches (FiresIf RetainsPending callStep) (callsInit config hasCleanup) s := by
      refine reaches_of_exec_ok (fun pre' x post' u v hp hu hx => ?_) he
      exact h pre' x (post' ++ post) u v (by simp [hs,hp]) hu hx
    have hsound := hreach.invariant (P := Sound) (fun u x v hu hr => hu.step hr.1 hr.2)
      (sound_init config hasCleanup)
    exact hsound.usesLive

/-- A shell task is run to its end before the submitting thread goes on. -/
def overtakenSubmission : List CallStep :=
  [.submit 0 { type := .shell, clientNumber := 1, commandText := none, predictedBurst := -1,
               userData := none },
    .other .enter,.other (.result .complete),.other .finish]

theorem overtakenSubmission_reads_cleaned : ¬ NeverUsesCleaned none true overtakenSubmission := by
  intro h
  obtain ⟨s,he⟩ := Option.isSome_iff_exists.mp
    (show (exec callStep (callsInit none true) overtakenSubmission).isSome = true from rfl)
  have hs := h overtakenSubmission [] s (List.append_nil _).symm he
  cases he
  exact hs (.returnId 0) _ rfl 0 (by decide) (by decide)

end UnixShell.Scheduler
