import UnixShell.Scheduler.Effects
import UnixShell.Scheduler.Refinement

/-! # Cancelling a client's tasks

The call removes the client's waiting tasks, marks its running one and touches no
other. After it, whatever the executor returns and whoever else acts, none of the
client's earlier tasks runs again and each one it removed is cleaned up once.
-/
namespace UnixShell.Scheduler
open Foundation TaskQueue

variable {s s' : System TaskLists} {place : TaskRef → Option Place} {t : TaskRef}

/-- A client's records below a number are out of the queue for good, and the one that may
still be running is marked. -/
structure Withdrawn (client : ℤ) (n : ℕ) (base s : System TaskLists) : Prop where
  allocated : n ≤ s.allocated
  owner : ∀ t < n, (s.tasks t).clientNumber = (base.tasks t).clientNumber
  waiting : ∀ t < n, (base.tasks t).clientNumber = client → t ∉ s.queue.waiting
  current : ∀ t < n, (base.tasks t).clientNumber = client → s.currentTask = some t →
    (s.tasks t).cancelRequested = true
  entered : ∀ t < n, (base.tasks t).clientNumber = client →
    s.events.countP (Event.enters t) = base.events.countP (Event.enters t)
  dispatched : ∀ t < n, (base.tasks t).clientNumber = client →
    s.events.countP (fun e => e.dispatched = some t) =
      base.events.countP (fun e => e.dispatched = some t)

theorem step_withdrawn {client : ℤ} {n : ℕ} {base : System TaskLists} {x : Action}
    (h : Withdrawn client n base s) (hi : Invariant s) (he : step s x = some s') :
    Withdrawn client n base s' := by
  have hcont : ∀ t < n, Continues (s.tasks t) (s'.tasks t) := fun t ht =>
    step_continues he (ht.trans_le h.allocated)
  -- a marked task is not sent back, so the queue gains none of the client's records
  have hstay : ∀ t < n, (base.tasks t).clientNumber = client →
      (t ∈ s'.queue.waiting → t ∈ s.queue.waiting) ∧
        s'.events.countP (Event.enters t) = s.events.countP (Event.enters t) := by
    intro t ht hc
    rcases step_waiting he (ht.trans_le h.allocated) with hw | ⟨_,quantum,r,hm,hr⟩
    · exact hw
    · have hcur : s.currentTask = some t := by rw [← hi.counted.main_task,hm]; rfl
      have hmark := h.current t ht hc hcur
      rw [hr.2.1] at hmark
      cases hmark
  refine ⟨h.allocated.trans (allocated_le he),?_,?_,?_,?_,?_⟩
  · intro t ht
    rw [(hcont t ht).clientNumber,h.owner t ht]
  · intro t ht hc hw
    exact h.waiting t ht hc ((hstay t ht hc).1 hw)
  · intro t ht hc hcur
    rcases step_current he hcur with hold | hw
    · exact (hcont t ht).cancelRequested (h.current t ht hc hold)
    · exact (h.waiting t ht hc hw).elim
  · intro t ht hc
    rw [(hstay t ht hc).2,h.entered t ht hc]
  · intro t ht hc
    rw [← h.dispatched t ht hc]
    rcases step_dispatches he with ⟨_,_,new,hev,hn⟩ | ⟨_,_,u,q,hd,rfl⟩
    · rw [hev,List.countP_append,List.countP_eq_zero.mpr (fun e hm => by simp [hn e hm]),
        Nat.zero_add]
    · have hne : u ≠ t := by
        rintro rfl
        exact h.waiting u ht hc (nextTask_mem (dequeue_some hd).1)
      simp [Event.dispatched,hne]

/-- A running task that is marked stays so until its round ends, and is then finalised. -/
def Doomed (t : TaskRef) (s : System TaskLists) : Prop :=
  s.currentTask = some t ∧ (s.tasks t).cancelRequested = true ∨
    Event.cleanup t ∈ s.events ∧ Event.log .cancel t 0 ∈ s.events ∧ (s.tasks t).state = .cancelled

theorem step_doomed {x : Action} (h : Doomed t s) (hi : Invariant s) (he : step s x = some s') :
    Doomed t s' := by
  obtain ⟨place,hp⟩ := hi.placed
  rcases h with ⟨hcur,hmark⟩ | ⟨hz,hlog,hst⟩
  · have hkeep : s'.currentTask = s.currentTask → Doomed t s' := fun hc =>
      Or.inl ⟨hc.trans hcur,(step_continues he (hp.current_lt hcur)).cancelRequested hmark⟩
    have hmain : s.main.task = some t := hi.counted.main_task.trans hcur
    cases step_stepped he with
    | submit request => exact hkeep (by simp)
    | cancel => exact hkeep (by simp [schedulerCancelClientTasks])
    | free he =>
      obtain ⟨c,_,_,_,_,hc,_⟩ := freeNext_eq he
      exact hkeep hc
    | quiet hq => exact hkeep hq.currentTask
    | dispatch hm =>
      rw [hmain] at hm
      cases hm
    | setBurst => exact hkeep rfl
    | requeue hm hr =>
      rw [hm] at hmain
      cases hmain
      rw [hr.2.1] at hmark
      cases hmark
    | finalize hm _ _ _ hcancel =>
      rw [hm] at hmain
      cases hmain
      obtain ⟨rfl,rfl⟩ := hcancel hmark
      exact Or.inr ⟨by simp,by simp,by simp⟩
  · obtain ⟨new,hev⟩ := step_events he
    refine Or.inr ⟨?_,?_,?_⟩
    · rw [hev]; exact List.mem_append_right new hz
    · rw [hev]; exact List.mem_append_right new hlog
    · rw [step_finalised hi hz he]; exact hst

/-- What the call does, at once. -/
structure CancelEffect (s : System TaskLinks) (thread : ThreadId) (client : ℤ)
    (s' : System TaskLinks) : Prop where
  waiting : waitingRecords s'.allocated s'.queue =
    (waitingRecords s.allocated s.queue).filter (fun t => !ownedBy s.tasks client t)
  removed : toFreeRecords s'.allocated thread s'.queue =
    ((waitingRecords s.allocated s.queue).filter (ownedBy s.tasks client)).reverse
  tasks : ∀ t, s'.tasks t =
    if s.currentTask = some t ∧ (s.tasks t).clientNumber = client then
      { s.tasks t with cancelRequested := true, preemptRequested := true }
    else s.tasks t
  current : s'.currentTask = s.currentTask
  active : s'.activeTaskCount = s.activeTaskCount -
    ((waitingRecords s.allocated s.queue).filter (ownedBy s.tasks client)).length
  returned : cancelledCount s thread client =
    ((waitingRecords s.allocated s.queue).filter (ownedBy s.tasks client)).length +
      if s.currentTask.any (ownedBy s.tasks client) then 1 else 0

/-- What holds of the client's earlier tasks in every state `u` that follows the call in `s`. -/
structure StaysCancelled (s : System TaskLinks) (thread : ThreadId) (client : ℤ)
    (u : System TaskLinks) : Prop where
  never_dispatched : ∀ t < s.allocated, (s.tasks t).clientNumber = client →
    t ∉ waitingRecords u.allocated u.queue ∧
    u.events.countP (fun e => e.dispatched = some t) =
      s.events.countP (fun e => e.dispatched = some t)
  never_requeued : ∀ t < s.allocated, (s.tasks t).clientNumber = client →
    u.events.countP (Event.enters t) = s.events.countP (Event.enters t)
  running : ∀ t, s.currentTask = some t → (s.tasks t).clientNumber = client →
    u.currentTask = some t ∧ (u.tasks t).cancelRequested = true ∨
    u.currentTask ≠ some t ∧ (u.tasks t).state = .cancelled ∧
      Event.log .cancel t 0 ∈ u.events ∧ u.events.count (.cleanup t) = 1
  freed : ∀ t ∈ waitingRecords s.allocated s.queue, (s.tasks t).clientNumber = client →
    u.events.count (.cleanup t) + (toFreeRecords u.allocated thread u.queue).count t = 1
  /-- The freeing loop can go on until the list is empty. -/
  frees : toFreeRecords u.allocated thread u.queue ≠ [] → ∃ u', step u (.free thread) = some u' ∧
    toFreeRecords u'.allocated thread u'.queue = (toFreeRecords u.allocated thread u.queue).tail

theorem cancelEffect {c c' : System TaskLinks} {a : System TaskLists} {thread : ThreadId}
    {client : ℤ} (hr : Refines c a) (he : step c (.cancel thread client) = some c') :
    CancelEffect c thread client c' := by
  obtain ⟨a',ha,hr'⟩ := step_refines hr he
  obtain ⟨_,rfl⟩ := step_cancel ha
  obtain ⟨_,rfl⟩ := step_cancel he
  obtain ⟨place,hp⟩ := hr.invariant.placed
  have hu := (hr.queue.unlinkClient a.tasks hp.separated hp.waiting_length_le thread client).1
  refine ⟨?_,?_,?_,?_,?_,?_⟩
  · rw [hr'.waitingRecords,hr.waitingRecords,hr.core]
    simp [schedulerCancelClientTasks]
  · rw [hr'.toFreeRecords,hr.waitingRecords,hr.core]
    simp [schedulerCancelClientTasks]
  · intro t
    exact cancelCurrent_tasks _ client t
  · simp [schedulerCancelClientTasks]
  · rw [hr'.core,hr.waitingRecords,hr.core]
    simp [schedulerCancelClientTasks]
  · rw [hr.waitingRecords,cancelledCount,hr.core,hu]
    cases hc : a.currentTask with
    | none => simp
    | some t => by_cases ho : (a.tasks t).clientNumber = client <;> simp [ownedBy,ho]

theorem withdrawn_cancel {thread : ThreadId} {client : ℤ}
    (he : step s (.cancel thread client) = some s') : Withdrawn client s.allocated s s' := by
  have hcont : ∀ t < s.allocated, Continues (s.tasks t) (s'.tasks t) := fun t ht =>
    step_continues he ht
  refine ⟨allocated_le he,fun t ht => (hcont t ht).clientNumber,?_,?_,?_,?_⟩
  · intro t _ hc hw
    obtain ⟨_,rfl⟩ := step_cancel he
    simp [schedulerCancelClientTasks,ownedBy,hc] at hw
  · intro t _ hc hcur
    obtain ⟨_,rfl⟩ := step_cancel he
    simp only [schedulerCancelClientTasks,cancelCurrent_frame] at hcur
    simp only [schedulerCancelClientTasks,cancelCurrent_tasks]
    rw [if_pos ⟨hcur,hc⟩]
  · intro t ht _
    rcases step_waiting he ht with ⟨_,hw⟩ | ⟨hx,_⟩
    · exact hw
    · cases hx
  · intro t _ _
    rcases step_dispatches he with ⟨_,_,new,hev,hn⟩ | ⟨hx,_⟩
    · rw [hev,List.countP_append,List.countP_eq_zero.mpr (fun e hm => by simp [hn e hm]),
        Nat.zero_add]
    · cases hx

theorem doomed_cancel {thread : ThreadId} {client : ℤ}
    (he : step s (.cancel thread client) = some s') (ht : s.currentTask = some t)
    (hc : (s.tasks t).clientNumber = client) : Doomed t s' := by
  obtain ⟨_,rfl⟩ := step_cancel he
  left
  simp only [schedulerCancelClientTasks,cancelCurrent_frame,cancelCurrent_tasks]
  rw [if_pos ⟨ht,hc⟩]
  exact ⟨ht,rfl⟩

theorem freeing_cancel {thread : ThreadId} {client : ℤ}
    (he : step s (.cancel thread client) = some s') (ht : t ∈ s.queue.waiting)
    (hc : (s.tasks t).clientNumber = client) : t ∈ s'.queue.toFree thread := by
  obtain ⟨_,rfl⟩ := step_cancel he
  simp [schedulerCancelClientTasks,ownedBy,ht,hc]

/-- Everything the continuation keeps, in one induction over its steps. -/
theorem reaches_cancelled {thread : ThreadId} {client : ℤ} {u : System TaskLists}
    (hi : Invariant s) (he : step s (.cancel thread client) = some s')
    (hu : Reaches (Fires step) s' u) :
    Invariant u ∧ Withdrawn client s.allocated s u ∧
    (∀ t, s.currentTask = some t → (s.tasks t).clientNumber = client → Doomed t u) ∧
    (∀ t ∈ s.queue.waiting, (s.tasks t).clientNumber = client →
      t ∈ u.queue.toFree thread ∨ Event.cleanup t ∈ u.events) := by
  refine hu.invariant (P := fun u => Invariant u ∧ Withdrawn client s.allocated s u ∧
    (∀ t, s.currentTask = some t → (s.tasks t).clientNumber = client → Doomed t u) ∧
    (∀ t ∈ s.queue.waiting, (s.tasks t).clientNumber = client →
      t ∈ u.queue.toFree thread ∨ Event.cleanup t ∈ u.events)) ?_
    ⟨step_invariant hi he,withdrawn_cancel he,fun t ht hc => doomed_cancel he ht hc,
      fun t ht hc => Or.inl (freeing_cancel he ht hc)⟩
  rintro v x w ⟨hiv,hw,hd,hf⟩ hvw
  refine ⟨step_invariant hiv hvw,step_withdrawn hw hiv hvw,
    fun t ht hc => step_doomed (hd t ht hc) hiv hvw,fun t ht hc => ?_⟩
  rcases hf t ht hc with hin | hz
  · exact step_freeing hvw hin
  · obtain ⟨new,hev⟩ := step_events hvw
    exact Or.inr (by rw [hev]; exact List.mem_append_right new hz)

/-- A record to be freed is on the list or was handed to cleanup, and not both. -/
theorem Placed.freed_once (h : Placed s place) {thread : ThreadId}
    (ht : t ∈ s.queue.toFree thread ∨ Event.cleanup t ∈ s.events) :
    s.events.count (.cleanup t) + (s.queue.toFree thread).count t = 1 := by
  have honce := h.cleanup_once t
  rcases ht with hin | hz
  · have hzero : s.events.count (.cleanup t) = 0 :=
      List.count_eq_zero.mpr (fun hz => h.finalised_not_freeing hz thread hin)
    rw [hzero,List.count_eq_one_of_mem (h.toFree_nodup thread) hin]
  · have hzero : (s.queue.toFree thread).count t = 0 :=
      List.count_eq_zero.mpr (h.finalised_not_freeing hz thread)
    have hpos := List.count_pos_iff.mpr hz
    omega

/-- While records are left on its list the cancelling thread frees the next one. -/
theorem free_enabled {u : System TaskLinks} (hr : Refines u s) {thread : ThreadId}
    (hne : toFreeRecords u.allocated thread u.queue ≠ []) :
    ∃ u', step u (.free thread) = some u' ∧ toFreeRecords u'.allocated thread u'.queue =
      (toFreeRecords u.allocated thread u.queue).tail := by
  rw [hr.toFreeRecords] at hne ⊢
  obtain ⟨t,rest,hrest⟩ := List.exists_cons_of_ne_nil hne
  have hhead : TaskQueue.toFree u.queue thread = some t := by
    rw [hr.queue.toFree_eq,toFree_lists,hrest]
    rfl
  have hstep : ∃ u', step u (.free thread) = some u' := by
    simp only [step,freeNext,hhead]
    exact ⟨_,rfl⟩
  obtain ⟨u',hu'⟩ := hstep
  obtain ⟨v',hv',hr'⟩ := step_refines hr hu'
  refine ⟨u',hu',?_⟩
  obtain ⟨_,_,hq,_⟩ := freeNext_eq hv'
  rw [hr'.toFreeRecords,hq,popFree_lists]
  exact Function.update_self _ _ _

theorem staysCancelled {c c' u : System TaskLinks} {a : System TaskLists} {thread : ThreadId}
    {client : ℤ} (hr : Refines c a) (he : step c (.cancel thread client) = some c')
    (hu : Reaches (Fires step) c' u) : StaysCancelled c thread client u := by
  obtain ⟨a',ha,hr'⟩ := step_refines hr he
  obtain ⟨as,hrun⟩ := hu
  obtain ⟨v,hv,hrv⟩ := runs_refines hr' hrun
  obtain ⟨hi,hw,hd,hf⟩ := reaches_cancelled hr.invariant ha ⟨as,hv⟩
  obtain ⟨place,hp⟩ := hi.placed
  refine ⟨?_,?_,?_,?_,free_enabled hrv⟩
  · intro t ht hc
    rw [hr.core] at ht hc ⊢
    rw [hrv.waitingRecords,hrv.core]
    exact ⟨hw.waiting t ht hc,hw.dispatched t ht hc⟩
  · intro t ht hc
    rw [hr.core] at ht hc ⊢
    rw [hrv.core]
    exact hw.entered t ht hc
  · intro t ht hc
    rw [hr.core] at ht hc
    rw [hrv.core]
    rcases hd t ht hc with ⟨hcur,hmark⟩ | ⟨hz,hlog,hst⟩
    · exact Or.inl ⟨hcur,hmark⟩
    · exact Or.inr ⟨hp.finalised_not_current hz,hst,hlog,
        Nat.le_antisymm (hp.cleanup_once t) (List.count_pos_iff.mpr hz)⟩
  · intro t ht hc
    rw [hr.waitingRecords] at ht
    rw [hr.core] at hc
    rw [hrv.toFreeRecords,hrv.core]
    exact hp.freed_once (hf t ht hc)

theorem cancellation {s s' : System TaskLinks} {thread : ThreadId} {client : ℤ} (h : Reachable s)
    (he : step s (.cancel thread client) = some s') :
    CancelEffect s thread client s' ∧
      ∀ u, Reaches (Fires step) s' u → StaysCancelled s thread client u := by
  obtain ⟨a,_,hr⟩ := reachable_refines h
  exact ⟨cancelEffect hr he,fun u hu => staysCancelled hr he hu⟩

/-- One client's task runs and two of its tasks wait, next to another client's. -/
def mixedQueue : List Action :=
  [.submit { type := .program, clientNumber := 1, commandText := none, predictedBurst := 4,
             userData := none },
    .enter,
    .submit { type := .program, clientNumber := 1, commandText := none, predictedBurst := 6,
              userData := none },
    .submit { type := .shell, clientNumber := 2, commandText := none, predictedBurst := -1,
              userData := none },
    .submit { type := .shell, clientNumber := 1, commandText := none, predictedBurst := -1,
              userData := none }]

theorem cancellation_mixedQueue :
    ∃ s s', exec step (schedulerInit TaskLinks none true) mixedQueue = some s ∧
      step s (.cancel 7 1) = some s' ∧ CancelEffect s 7 1 s' ∧
      ∀ u, Reaches (Fires step) s' u → StaysCancelled s 7 1 u := by
  obtain ⟨s',he⟩ := Option.isSome_iff_exists.mp
    (show (exec step (schedulerInit TaskLinks none true)
      (mixedQueue ++ [.cancel 7 1])).isSome = true from rfl)
  rw [exec,List.foldlM_append] at he
  obtain ⟨s,hs,hcancel⟩ := Option.bind_eq_some_iff.mp he
  have hstep : step s (.cancel 7 1) = some s' := by simpa using hcancel
  exact ⟨s,s',hs,hstep,cancellation ⟨none,true,reaches_of_exec hs⟩ hstep⟩

end UnixShell.Scheduler
