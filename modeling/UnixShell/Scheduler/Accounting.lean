import UnixShell.Scheduler.Placement

/-! # Task counter, signal counter and the waiting thread

The active count is what waits plus what runs. The signal counter drifts away from
the queue, since a cancellation leaves its signals behind, but never falls below
the queue's length; so a thread that waits has nothing to do.
-/
namespace UnixShell.Scheduler
open Foundation TaskQueue

structure Counted (s : System TaskLists) : Prop where
  main_task : s.main.task = s.currentTask
  active : s.activeTaskCount = s.queue.waiting.length + if s.currentTask.isSome then 1 else 0
  signals : s.queue.waiting.length ≤ s.queuedSignalCount
  blocked : s.main = .blocked false → s.queuedSignalCount = 0 ∧ ¬ mayExit s

theorem counted_init (config : Option SchedulerConfig) (hasCleanup : Bool) :
    Counted (schedulerInit TaskLists config hasCleanup) :=
  ⟨rfl,rfl,le_rfl,fun h => by cases h⟩

variable {s s' : System TaskLists} {place : TaskRef → Option Place}

theorem submit_counted (h : Counted s) (task : Task) : Counted (schedulerSubmitTask s task) := by
  have ha := h.active
  have hs := h.signals
  refine ⟨?_,?_,?_,?_⟩
  · simpa using h.main_task
  · simp only [schedulerSubmitTask_frame,enqueue_lists,List.length_append,List.length_singleton]
    push_cast
    omega
  · simpa using hs
  · intro hb
    simp only [schedulerSubmitTask_frame] at hb
    exact (MainThread.signal_ne_blocked _ hb).elim

theorem cancel_counted (h : Counted s) (thread : ThreadId) (client : ℤ) :
    Counted (schedulerCancelClientTasks s thread client) := by
  have ha := h.active
  have hs := h.signals
  have hlen := List.length_eq_length_filter_add (l := s.queue.waiting) (ownedBy s.tasks client)
  refine ⟨?_,?_,?_,?_⟩
  · simpa [schedulerCancelClientTasks] using h.main_task
  · simp only [schedulerCancelClientTasks,cancelCurrent_frame,unlinkClient_lists]
    omega
  · simp only [schedulerCancelClientTasks,cancelCurrent_frame,unlinkClient_lists]
    omega
  · intro hb
    simp only [schedulerCancelClientTasks,cancelCurrent_frame] at hb
    obtain ⟨hz,he⟩ := h.blocked hb
    -- nothing waits, so nothing is taken out and the count stays
    have hw : s.queue.waiting = [] := List.eq_nil_of_length_eq_zero (by omega)
    refine ⟨by simpa [schedulerCancelClientTasks] using hz,?_⟩
    simpa [schedulerCancelClientTasks,mayExit,hw] using he

theorem enter_counted (h : Counted s) (hn : s.main.task = none) :
    Counted (schedulerMainEnter s) := by
  have hc : s.currentTask = none := h.main_task ▸ hn
  have ha := h.active
  have hs := h.signals
  simp only [hc,Option.isSome_none,Bool.false_eq_true,if_false] at ha
  rcases enter_cases s with ⟨hz,hx,he⟩ | ⟨hx,he⟩ | ⟨hz,hx,q,hd,he⟩ | ⟨hz,hx,t,q,hd,he⟩ <;> rw [he]
  · exact ⟨hc.symm,h.active,hs,fun _ => ⟨hz,hx⟩⟩
  · have hw : s.queue.waiting.length = 0 := by
      have h0 := hx.2
      omega
    exact ⟨hc.symm,h.active,hw.trans_le (Nat.zero_le _),fun hb => by cases hb⟩
  · obtain ⟨rfl,hw⟩ := dequeue_none hd
    exact ⟨hc.symm,h.active,by simp [hw],fun hb => by cases hb⟩
  · obtain ⟨ht,rfl⟩ := dequeue_some hd
    have hmem := nextTask_mem ht
    have hpos := List.length_pos_of_mem hmem
    have hlen := List.length_erase_of_mem hmem
    refine ⟨rfl,?_,?_,?_⟩
    · simp only [dispatchTask_frame,hlen,Option.isSome_some,if_true]
      omega
    · simp only [dispatchTask_frame,hlen]
      omega
    · intro hb; simp at hb

theorem finish_counted (h : Counted s) {t : TaskRef} (hc : s.currentTask = some t)
    (quantum : ℤ) (r : TaskRunResult) : Counted (schedulerMainFinish s t quantum r) := by
  have ha := h.active
  have hs := h.signals
  simp only [hc,Option.isSome_some,if_true] at ha
  rcases finish_cases s t quantum r with ⟨_,he⟩ | ⟨_,state,event,he,_⟩ <;> rw [he]
  · refine ⟨rfl,?_,?_,?_⟩
    · simp [ha]
    · simpa using hs
    · intro hb; simp at hb
  · refine ⟨rfl,?_,?_,?_⟩
    · simp [ha]
    · simpa using hs
    · intro hb; simp at hb

theorem step_counted {a : Action} (h : Counted s) (he : step s a = some s') : Counted s' := by
  cases a with
  | submit request => cases he; exact submit_counted h _
  | cancel thread client =>
    obtain ⟨_,rfl⟩ := step_cancel he
    exact cancel_counted h thread client
  | free thread =>
    obtain ⟨c,_,hq,_,_,hc,hst,ha,hsig,_,_,_,hmain,_⟩ := freeNext_eq he
    refine ⟨?_,?_,?_,?_⟩
    · rw [hmain,hc]; exact h.main_task
    · rw [ha,hq,hc]; exact h.active
    · rw [hq,hsig]; exact h.signals
    · rw [hmain,hsig,mayExit,hst,ha]; exact h.blocked
  | requestStop =>
    cases he
    refine ⟨?_,h.active,h.signals,fun hb => (MainThread.signal_ne_blocked _ hb).elim⟩
    simpa [schedulerRequestStop,condSignal] using h.main_task
  | enter =>
    obtain ⟨hn,_,rfl⟩ := step_enter he
    exact enter_counted h hn
  | setBurst remaining =>
    obtain ⟨t,quantum,_,rfl⟩ := step_setBurst he
    exact ⟨h.main_task,h.active,h.signals,h.blocked⟩
  | result r =>
    obtain ⟨t,quantum,hmain,rfl⟩ := step_result he
    refine ⟨?_,h.active,h.signals,fun hb => by cases hb⟩
    rw [← h.main_task,hmain]
    rfl
  | finish =>
    obtain ⟨t,quantum,r,hmain,rfl⟩ := step_finish he
    exact finish_counted h (by rw [← h.main_task,hmain]; rfl) quantum r

/-- A count of zero leaves nothing to do. -/
theorem Counted.idle (h : Counted s) (hz : s.activeTaskCount = 0) :
    s.queue.waiting = [] ∧ s.currentTask = none := by
  have ha := h.active
  rw [hz] at ha
  cases hc : s.currentTask with
  | none =>
    rw [hc] at ha
    exact ⟨List.eq_nil_of_length_eq_zero (by simpa using ha.symm),rfl⟩
  | some t =>
    rw [hc,Option.isSome_some,if_pos rfl] at ha
    omega

/-- A thread that waits for a signal, with none sent since its last test, has nothing to do. -/
theorem Counted.blocked_idle (h : Counted s) (hb : s.main = .blocked false) :
    s.queue.waiting = [] ∧ s.activeTaskCount = 0 ∧ s.stopRequested = false := by
  obtain ⟨hz,hx⟩ := h.blocked hb
  have hsig := h.signals
  have hact := h.active
  have hcur : s.currentTask = none := by rw [← h.main_task,hb]; rfl
  have hwait : s.queue.waiting = [] := List.eq_nil_of_length_eq_zero (by omega)
  have ha : s.activeTaskCount = 0 := by simpa [hwait,hcur] using hact
  refine ⟨hwait,ha,?_⟩
  by_contra hs
  exact hx ⟨by simpa using hs,ha⟩

/-- Where something waits there is a signal for it, and the thread may not leave. -/
theorem Counted.enter_dispatches (h : Counted s) (hne : s.queue.waiting ≠ []) :
    ∃ t ∈ s.queue.waiting, schedulerMainEnter s = dispatchTask
      { s with
        queuedSignalCount := s.queuedSignalCount - 1
        queue := { s.queue with waiting := s.queue.waiting.erase t } } t := by
  have hpos := List.length_pos_iff.mpr hne
  have hsig := h.signals
  rcases enter_cases s with ⟨hz,_,_⟩ | ⟨hx,_⟩ | ⟨_,_,q,hd,_⟩ | ⟨_,_,t,q,hd,he⟩
  · omega
  · exact (hne (h.idle hx.2).1).elim
  · exact (hne (dequeue_none hd).2).elim
  · obtain ⟨hn,rfl⟩ := dequeue_some hd
    exact ⟨t,nextTask_mem hn,he⟩

/-- What holds of the list scheduler after any run. -/
structure Invariant (s : System TaskLists) : Prop where
  placed : ∃ place, Placed s place
  counted : Counted s
  numbered : Numbered s

theorem invariant_init (config : Option SchedulerConfig) (hasCleanup : Bool) :
    Invariant (schedulerInit TaskLists config hasCleanup) :=
  ⟨⟨_,placed_init config hasCleanup⟩,counted_init config hasCleanup,
    numbered_init config hasCleanup⟩

theorem step_invariant {a : Action} (h : Invariant s) (he : step s a = some s') : Invariant s' := by
  obtain ⟨place,hp⟩ := h.placed
  exact ⟨step_placed hp h.counted.main_task he,step_counted h.counted he,
    step_numbered h.numbered he⟩

theorem reachable_invariant (h : Reachable s) : Invariant s := by
  obtain ⟨config,hasCleanup,h⟩ := h
  exact h.invariant (fun _ _ _ hi he => step_invariant hi he) (invariant_init config hasCleanup)

namespace Invariant

/-- Ids tell the waiting tasks apart. -/
theorem taskId_inj (h : Invariant s) {t u : ℕ} (ht : t < s.allocated)
    (hu : u < s.allocated) (he : (s.tasks t).taskId = (s.tasks u).taskId) : t = u := by
  have h1 := h.numbered.taskId t ht
  have h2 := h.numbered.taskId u hu
  omega

theorem arrivalOrder_lt (h : Invariant s) {t u : ℕ} (ht : t < s.allocated)
    (hu : u < s.allocated) : (s.tasks t).arrivalOrder < (s.tasks u).arrivalOrder ↔ t < u := by
  rw [h.numbered.arrivalOrder t ht,h.numbered.arrivalOrder u hu]
  omega

theorem burstKey_inj (h : Invariant s) {t u : ℕ} (ht : t < s.allocated)
    (hu : u < s.allocated) (he : burstKey s.tasks t = burstKey s.tasks u) : t = u := by
  have ha : (s.tasks t).arrivalOrder = (s.tasks u).arrivalOrder :=
    congrArg (fun k => (ofLex k).2) he
  rw [h.numbered.arrivalOrder t ht,h.numbered.arrivalOrder u hu] at ha
  omega

end Invariant

end UnixShell.Scheduler
