import UnixShell.Scheduler.System

/-! # What a step keeps of a task record

Submission numbers records in the order of their allocation and writes the fields
that identify a task; no later step changes these, and a request to cancel is
never taken back.
-/
namespace UnixShell.Scheduler
open Foundation TaskQueue

/-- Two versions of one record. -/
structure Continues (a b : Task) : Prop where
  taskId : b.taskId = a.taskId
  arrivalOrder : b.arrivalOrder = a.arrivalOrder
  clientNumber : b.clientNumber = a.clientNumber
  type : b.type = a.type
  commandText : b.commandText = a.commandText
  userData : b.userData = a.userData
  cancelRequested : a.cancelRequested = true → b.cancelRequested = true

theorem Continues.refl (a : Task) : Continues a a := ⟨rfl,rfl,rfl,rfl,rfl,rfl,id⟩

theorem Continues.trans {a b c : Task} (h : Continues a b) (h' : Continues b c) :
    Continues a c :=
  ⟨h'.taskId.trans h.taskId,h'.arrivalOrder.trans h.arrivalOrder,
    h'.clientNumber.trans h.clientNumber,h'.type.trans h.type,
    h'.commandText.trans h.commandText,h'.userData.trans h.userData,
    fun hc => h'.cancelRequested (h.cancelRequested hc)⟩

variable {Q : Type} {s s' : System Q} {t : TaskRef}

theorem continues_update {tasks : TaskRef → Task} {c : TaskRef} {task : Task}
    (h : Continues (tasks c) task) : Continues (tasks t) (Function.update tasks c task t) := by
  by_cases hc : t = c
  · subst hc
    rwa [Function.update_self]
  · rw [Function.update_of_ne hc]
    exact Continues.refl _

theorem requestPreemption_continues (incoming : Task) :
    Continues (s.tasks t) ((requestPreemption s incoming).tasks t) := by
  rw [requestPreemption_tasks]
  split
  · exact ⟨rfl,rfl,rfl,rfl,rfl,rfl,id⟩
  · exact Continues.refl _

theorem cancelCurrent_continues (client : ℤ) :
    Continues (s.tasks t) ((cancelCurrent s client).tasks t) := by
  rw [cancelCurrent_tasks]
  split
  · exact ⟨rfl,rfl,rfl,rfl,rfl,rfl,fun _ => rfl⟩
  · exact Continues.refl _

variable [TaskQueue Q]

theorem freeNext_eq {thread : ThreadId} (he : freeNext s thread = some s') :
    ∃ c, toFree s.queue thread = some c ∧ s'.queue = popFree s.queue thread ∧
      s'.events = .cleanup c :: s.events ∧ s'.allocated = s.allocated ∧
      s'.currentTask = s.currentTask ∧ s'.stopRequested = s.stopRequested ∧
      s'.activeTaskCount = s.activeTaskCount ∧ s'.queuedSignalCount = s.queuedSignalCount ∧
      s'.nextTaskId = s.nextTaskId ∧ s'.lastSelectedTaskId = s.lastSelectedTaskId ∧
      s'.nextArrivalOrder = s.nextArrivalOrder ∧ s'.main = s.main ∧
      s'.tasks = if s.hasCleanup then
        Function.update s.tasks c { s.tasks c with state := .cancelled } else s.tasks := by
  unfold freeNext at he
  cases hf : toFree s.queue thread with
  | none => simp [hf] at he
  | some c =>
    simp only [hf,Option.some.injEq] at he
    subst he
    refine ⟨c,rfl,?_⟩
    cases hb : s.hasCleanup <;> simp [cleanupTask,setTask]

theorem freeNext_continues {thread : ThreadId} (he : freeNext s thread = some s') :
    Continues (s.tasks t) (s'.tasks t) := by
  obtain ⟨c,_,_,_,_,_,_,_,_,_,_,_,_,htasks⟩ := freeNext_eq he
  rw [htasks]
  split
  · exact continues_update ⟨rfl,rfl,rfl,rfl,rfl,rfl,id⟩
  · exact Continues.refl _

theorem submitted_continues (task : Task) :
    Continues (submittedTask s task) ((schedulerSubmitTask s task).tasks s.allocated) := by
  have hq : (queuedTask s task).tasks s.allocated = submittedTask s task :=
    Function.update_self _ _ _
  exact hq ▸ requestPreemption_continues (s := queuedTask s task) _

/-- No step changes what identifies a submitted task. -/
theorem step_continues {a : Action} (he : step s a = some s') (ht : t < s.allocated) :
    Continues (s.tasks t) (s'.tasks t) := by
  cases step_stepped he with
  | submit request =>
    have hq : (queuedTask s (schedulerCreateTask request)).tasks t = s.tasks t :=
      Function.update_of_ne ht.ne _ _
    exact hq ▸ requestPreemption_continues (s := queuedTask s (schedulerCreateTask request)) _
  | @cancel _ client =>
    refine Continues.trans ?_ (cancelCurrent_continues client)
    exact Continues.refl _
  | free he => exact freeNext_continues he
  | quiet hq =>
    rw [hq.tasks]
    exact Continues.refl _
  | dispatch => exact continues_update ⟨rfl,rfl,rfl,rfl,rfl,rfl,id⟩
  | setBurst => exact continues_update ⟨rfl,rfl,rfl,rfl,rfl,rfl,id⟩
  | requeue => exact continues_update ⟨rfl,rfl,rfl,rfl,rfl,rfl,id⟩
  | finalize => exact continues_update ⟨rfl,rfl,rfl,rfl,rfl,rfl,id⟩

theorem field_update {β : Type} (f : Task → β) {tasks : TaskRef → Task} {c : TaskRef} {task : Task}
    (h : f task = f (tasks c)) : f (Function.update tasks c task t) = f (tasks t) := by
  by_cases hc : t = c
  · subst hc
    rwa [Function.update_self]
  · rw [Function.update_of_ne hc]

/-- Only the executor of a task changes its burst. -/
theorem step_remainingBurst {a : Action} (he : step s a = some s') (ht : t < s.allocated) :
    (s'.tasks t).remainingBurst = (s.tasks t).remainingBurst ∨
      ∃ r quantum, a = .setBurst r ∧ s.main = .executing t quantum ∧
        (s'.tasks t).remainingBurst = r := by
  cases step_stepped he with
  | submit request =>
    rw [schedulerSubmitTask_tasks,Function.update_of_ne ht.ne]
    dsimp only
    split <;> exact Or.inl rfl
  | cancel =>
    simp only [schedulerCancelClientTasks,cancelCurrent_tasks]
    split <;> exact Or.inl rfl
  | free he =>
    obtain ⟨c,_,_,_,_,_,_,_,_,_,_,_,_,htasks⟩ := freeNext_eq he
    rw [htasks]
    split
    · exact Or.inl (field_update Task.remainingBurst rfl)
    · exact Or.inl rfl
  | quiet hq => exact Or.inl (by rw [hq.tasks])
  | dispatch => exact Or.inl (field_update Task.remainingBurst rfl)
  | @setBurst r quantum c hm =>
    by_cases hc : t = c
    · subst hc
      exact Or.inr ⟨r,quantum,rfl,hm,by simp [setTask]⟩
    · exact Or.inl (by simp [setTask,Function.update_of_ne hc])
  | requeue => exact Or.inl (field_update Task.remainingBurst rfl)
  | finalize => exact Or.inl (field_update Task.remainingBurst rfl)

/-- Only a submission allocates, and it allocates one record. -/
theorem step_allocated {a : Action} (he : step s a = some s') :
    s'.allocated = s.allocated ∧ s'.nextTaskId = s.nextTaskId ∧
        s'.nextArrivalOrder = s.nextArrivalOrder ∨
      (∃ request, a = .submit request) ∧ s'.allocated = s.allocated + 1 ∧
        s'.nextTaskId = s.nextTaskId + 1 ∧ s'.nextArrivalOrder = s.nextArrivalOrder + 1 ∧
        (s'.tasks s.allocated).taskId = s.nextTaskId ∧
        (s'.tasks s.allocated).arrivalOrder = s.nextArrivalOrder := by
  cases step_stepped he with
  | submit request =>
    have hc := submitted_continues (s := s) (schedulerCreateTask request)
    refine Or.inr ⟨⟨request,rfl⟩,?_,?_,?_,?_,?_⟩
    · simp
    · simp
    · simp
    · rw [hc.taskId]; simp
    · rw [hc.arrivalOrder]; simp
  | cancel => exact Or.inl (by simp [schedulerCancelClientTasks])
  | free he =>
    obtain ⟨c,_,_,_,ha,_,_,_,_,hi,_,ho,_⟩ := freeNext_eq he
    exact Or.inl ⟨ha,hi,ho⟩
  | quiet hq => exact Or.inl ⟨hq.allocated,hq.nextTaskId,hq.nextArrivalOrder⟩
  | dispatch => exact Or.inl ⟨rfl,rfl,rfl⟩
  | setBurst => exact Or.inl ⟨rfl,rfl,rfl⟩
  | requeue => exact Or.inl ⟨rfl,rfl,rfl⟩
  | finalize => exact Or.inl ⟨rfl,rfl,rfl⟩

theorem allocated_le {a : Action} (he : step s a = some s') : s.allocated ≤ s'.allocated := by
  rcases step_allocated he with ⟨h,_⟩ | ⟨_,h,_⟩ <;> omega

theorem allocated_eq {a : Action} (he : step s a = some s') (ha : ∀ request, a ≠ .submit request) :
    s'.allocated = s.allocated := by
  rcases step_allocated he with ⟨h,_⟩ | ⟨⟨request,hr⟩,_⟩
  · exact h
  · exact (ha request hr).elim

/-- Submissions and cancellations apart, the count changes where a task is finalised. -/
theorem step_activeTaskCount {a : Action} (he : step s a = some s')
    (hs : ∀ request, a ≠ .submit request) (hc : ∀ thread client, a ≠ .cancel thread client) :
    s'.activeTaskCount = s.activeTaskCount ∨
      a = .finish ∧ s'.activeTaskCount = s.activeTaskCount - 1 ∧
        ∃ t quantum r, s.main = .returned t quantum r ∧ ¬ mayRequeue (s.tasks t) r := by
  cases step_stepped he with
  | submit request => exact (hs request rfl).elim
  | cancel => exact (hc _ _ rfl).elim
  | free he =>
    obtain ⟨c,_,_,_,_,_,_,hactive,_⟩ := freeNext_eq he
    exact Or.inl hactive
  | quiet hq => exact Or.inl hq.activeTaskCount
  | dispatch => exact Or.inl rfl
  | setBurst => exact Or.inl rfl
  | requeue => exact Or.inl rfl
  | @finalize t quantum r _ _ hm hr => exact Or.inr ⟨rfl,rfl,t,quantum,r,hm,hr⟩

theorem reaches_continues {u : System Q} (h : Reaches (Fires step) s u) (ht : t < s.allocated) :
    Continues (s.tasks t) (u.tasks t) ∧ t < u.allocated :=
  h.invariant (P := fun u => Continues (s.tasks t) (u.tasks t) ∧ t < u.allocated)
    (fun _ _ _ ⟨hc,hlt⟩ he => ⟨hc.trans (step_continues he hlt),hlt.trans_le (allocated_le he)⟩)
    ⟨Continues.refl _,ht⟩

/-- Task ids and arrival numbers count the records from one. -/
structure Numbered (s : System Q) : Prop where
  nextTaskId : s.nextTaskId = s.allocated + 1
  nextArrivalOrder : s.nextArrivalOrder = s.allocated + 1
  taskId : ∀ t < s.allocated, (s.tasks t).taskId = t + 1
  arrivalOrder : ∀ t < s.allocated, (s.tasks t).arrivalOrder = t + 1

theorem numbered_init (config : Option SchedulerConfig) (hasCleanup : Bool) :
    Numbered (schedulerInit Q config hasCleanup) :=
  ⟨rfl,rfl,fun t ht => absurd ht (Nat.not_lt_zero t),fun t ht => absurd ht (Nat.not_lt_zero t)⟩

theorem step_numbered {a : Action} (h : Numbered s) (he : step s a = some s') : Numbered s' := by
  have hi := h.nextTaskId
  have ho := h.nextArrivalOrder
  have hold : ∀ t < s.allocated, (s'.tasks t).taskId = t + 1 ∧
      (s'.tasks t).arrivalOrder = t + 1 := by
    intro t ht
    have hc := step_continues he ht
    exact ⟨hc.taskId.trans (h.taskId t ht),hc.arrivalOrder.trans (h.arrivalOrder t ht)⟩
  rcases step_allocated he with ⟨ha,hi',ho'⟩ | ⟨_,ha,hi',ho',hid,har⟩
  · refine ⟨by omega,by omega,?_,?_⟩ <;> intro t ht <;> rw [ha] at ht
    · exact (hold t ht).1
    · exact (hold t ht).2
  · have hnew : ∀ t < s'.allocated, (s'.tasks t).taskId = t + 1 ∧
        (s'.tasks t).arrivalOrder = t + 1 := by
      intro t ht
      rcases Nat.lt_succ_iff_lt_or_eq.mp (ha ▸ ht : t < s.allocated + 1) with ht | rfl
      · exact hold t ht
      · exact ⟨hid.trans hi,har.trans ho⟩
    exact ⟨by omega,by omega,fun t ht => (hnew t ht).1,fun t ht => (hnew t ht).2⟩

/-- The configuration is set once. -/
theorem step_config {a : Action} (he : step s a = some s') : s'.config = s.config := by
  cases a with
  | submit request =>
    cases he
    simp only [schedulerSubmitTask_eq,condSignal]
    unfold requestPreemption
    split
    · rfl
    · split <;> rfl
  | cancel thread client =>
    obtain ⟨_,rfl⟩ := step_cancel he
    simp only [schedulerCancelClientTasks]
    unfold cancelCurrent
    split
    · rfl
    · split <;> rfl
  | free thread =>
    have hf : freeNext s thread = some s' := he
    unfold freeNext at hf
    split at hf
    · cases hf
    · cases hf
      cases s.hasCleanup <;> rfl
  | requestStop =>
    cases he
    rfl
  | enter =>
    obtain ⟨_,_,rfl⟩ := step_enter he
    rcases enter_cases s with ⟨_,_,hc⟩ | ⟨_,hc⟩ | ⟨_,_,q,_,hc⟩ | ⟨_,_,t,q,_,hc⟩ <;>
      simp [hc,dispatchTask,logSchedulerEvent,setTask]
  | setBurst remaining =>
    obtain ⟨t,quantum,_,rfl⟩ := step_setBurst he
    rfl
  | result r =>
    obtain ⟨t,quantum,_,rfl⟩ := step_result he
    rfl
  | finish =>
    obtain ⟨t,quantum,r,_,rfl⟩ := step_finish he
    rcases finish_cases s t quantum r with ⟨_,hc⟩ | ⟨_,state,event,hc,_⟩ <;> rw [hc] <;> rfl

/-- A round is counted when it is sent back. -/
theorem step_roundsCompleted {a : Action} (he : step s a = some s') (ht : t < s.allocated) :
    (s'.tasks t).roundsCompleted = (s.tasks t).roundsCompleted ∨
      a = .finish ∧ ∃ quantum r, s.main = .returned t quantum r ∧ mayRequeue (s.tasks t) r ∧
        (s'.tasks t).roundsCompleted = (s.tasks t).roundsCompleted + 1 := by
  cases step_stepped he with
  | submit request =>
    left
    rw [schedulerSubmitTask_tasks,Function.update_of_ne ht.ne]
    dsimp only
    split <;> rfl
  | cancel =>
    left
    simp only [schedulerCancelClientTasks,cancelCurrent_tasks]
    split <;> rfl
  | free he =>
    left
    obtain ⟨c,_,_,_,_,_,_,_,_,_,_,_,_,htasks⟩ := freeNext_eq he
    rw [htasks]
    split
    · exact field_update Task.roundsCompleted rfl
    · rfl
  | quiet hq =>
    left
    rw [hq.tasks]
  | dispatch => exact Or.inl (field_update Task.roundsCompleted rfl)
  | setBurst => exact Or.inl (field_update Task.roundsCompleted rfl)
  | @requeue c quantum r hm hr =>
    by_cases htc : t = c
    · subst htc
      exact Or.inr ⟨rfl,quantum,r,hm,hr,by simp⟩
    · left
      simp [Function.update_of_ne htc]
  | finalize => exact Or.inl (field_update Task.roundsCompleted rfl)

end UnixShell.Scheduler
