import UnixShell.Scheduler.Conservation

/-! # Stopping

The loop is left with an empty queue, and after that only a submission puts a task
there. Nothing in `scheduler_submit_task` looks at whether the loop has been left.
-/
namespace UnixShell.Scheduler
open Foundation TaskQueue

/-- The loop is over and a task whose submission returned its number still waits. -/
def Stranded (s : System TaskLinks) : Prop :=
  s.main = .exited ∧ ∃ t ∈ waitingRecords s.allocated s.queue, 0 ≤ (s.tasks t).taskId

def NeverStranded (config : Option SchedulerConfig) (hasCleanup : Bool) (actions : List Action) :
    Prop :=
  ∀ pre post s, actions = pre ++ post →
    exec step (schedulerInit TaskLinks config hasCleanup) pre = some s → ¬ Stranded s

/-- No submission takes the lock after the loop was left. -/
def SubmitsInTime (config : Option SchedulerConfig) (hasCleanup : Bool) (actions : List Action) :
    Prop :=
  ∀ pre request post s, actions = pre ++ .submit request :: post →
    exec step (schedulerInit TaskLinks config hasCleanup) pre = some s → s.main ≠ .exited

/-- The side condition of `SubmitsInTime` on one step. -/
def InTime (core : Core) (x : Action) : Prop := ∀ request, x = .submit request → core.main ≠ .exited

section Lists
variable {s s' : System TaskLists}

/-- Once the loop is left only a submission queues a task. -/
theorem waiting_nil_of_exited {x : Action} (he : step s x = some s') (hok : InTime s.toCore x)
    (hm : s.main = .exited) (hw : s.queue.waiting = []) : s'.queue.waiting = [] := by
  cases step_stepped he with
  | submit request => exact (hok request rfl hm).elim
  | cancel => simp [schedulerCancelClientTasks,hw]
  | free he =>
    obtain ⟨_,_,hq,_⟩ := freeNext_eq he
    rw [hq]
    exact hw
  | quiet hq =>
    rw [hq.queue_eq]
    exact hw
  | dispatch _ hd =>
    obtain ⟨hn,_⟩ := dequeue_some hd
    have hmem := nextTask_mem hn
    rw [hw] at hmem
    cases hmem
  | setBurst => exact hw
  | requeue hr =>
    rw [hm] at hr
    cases hr
  | finalize => exact hw

theorem mayExit_waiting_nil (hi : Invariant s) (hx : mayExit s) : s.queue.waiting = [] :=
  (hi.counted.idle hx.2).1

/-- The queue is empty when the loop is left, and stays so. -/
theorem step_exited_waiting {x : Action} (hi : Invariant s) (he : step s x = some s')
    (hok : InTime s.toCore x) (hw : s.main = .exited → s.queue.waiting = [])
    (hm : s'.main = .exited) : s'.queue.waiting = [] := by
  by_cases hs : s.main = .exited
  · exact waiting_nil_of_exited he hok hs (hw hs)
  · exact mayExit_waiting_nil (step_invariant hi he) (step_exited he hs hm)

theorem reachableIf_exited_waiting (h : ReachableIf InTime s) (hm : s.main = .exited) :
    s.queue.waiting = [] := by
  obtain ⟨config,hasCleanup,h⟩ := h
  have hinv := h.invariant
    (P := fun u : System TaskLists => Invariant u ∧ (u.main = .exited → u.queue.waiting = []))
    (fun u x v hu hr => ⟨step_invariant hu.1 hr.2,step_exited_waiting hu.1 hr.2 hr.1 hu.2⟩)
    ⟨invariant_init config hasCleanup,fun _ => rfl⟩
  exact hinv.2 hm

end Lists

section Linked
variable {s s' : System TaskLinks}

theorem not_stranded_of_inTime (h : ReachableIf InTime s) : ¬ Stranded s := by
  rintro ⟨hm,t,ht,_⟩
  obtain ⟨l,hl,hr⟩ := reachableIf_refines h
  have hm' : l.main = .exited := by rw [← hr.core]; exact hm
  rw [hr.waitingRecords,reachableIf_exited_waiting hl hm'] at ht
  cases ht

/-- A task submitted after the loop was left waits for good. -/
theorem stranded_of_submit {request : TaskRequest} (h : Reachable s) (hm : s.main = .exited)
    (he : step s (.submit request) = some s') : Stranded s' := by
  obtain ⟨l,_,hr⟩ := reachable_refines h
  obtain ⟨l',he',hr'⟩ := step_refines hr he
  have ha : s'.allocated = s.allocated + 1 := by
    cases he
    simp
  have hid := hr'.invariant.numbered.taskId s.allocated (by rw [← hr'.core,ha]; omega)
  refine ⟨?_,s.allocated,?_,?_⟩
  · cases he
    simp [hm,MainThread.signal]
  · rw [hr'.waitingRecords,hr.core]
    cases he'
    simp
  · rw [hr'.core,hid]
    omega

/-- The loop strands no task exactly where every submission comes before its end. -/
theorem neverStranded_iff (config : Option SchedulerConfig) (hasCleanup : Bool)
    (actions : List Action) :
    NeverStranded config hasCleanup actions ↔ SubmitsInTime config hasCleanup actions := by
  constructor
  · intro h pre request post s hs he hm
    have hstep : step s (.submit request) =
      some (schedulerSubmitTask s (schedulerCreateTask request)) := rfl
    refine h (pre ++ [.submit request]) post _ (by simp [hs]) ?_
      (stranded_of_submit ⟨config,hasCleanup,reaches_of_exec he⟩ hm hstep)
    rw [exec_append,he]
    rfl
  · intro h pre post s hs he
    refine not_stranded_of_inTime ⟨config,hasCleanup,reaches_of_exec_ok ?_ he⟩
    rintro pre' x post' u v hp hu _ request rfl
    exact h pre' request (post' ++ post) u (by simp [hs,hp]) hu

/-- The idle scheduler is stopped and a client offers a task after that. -/
def lateSubmission : List Action :=
  [.requestStop,.enter,
    .submit { type := .shell, clientNumber := 1, commandText := none, predictedBurst := -1,
              userData := none }]

theorem lateSubmission_stranded : ¬ NeverStranded none true lateSubmission := by
  intro h
  obtain ⟨s,he⟩ := Option.isSome_iff_exists.mp
    (show (exec step (schedulerInit TaskLinks none true) lateSubmission).isSome = true from rfl)
  apply h lateSubmission [] s (List.append_nil _).symm he
  cases he
  exact ⟨rfl,0,by decide,by decide⟩

end Linked

end UnixShell.Scheduler
