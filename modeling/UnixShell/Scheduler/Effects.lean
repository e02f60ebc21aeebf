import UnixShell.Scheduler.Accounting

/-! # What one step can do

One lemma for each kind of change: which step dispatches, which record can enter the
queue, become the running one or leave a freeing list, and which records no step
writes to. Facts about runs are derived from these and do not open the sections again.
-/
namespace UnixShell.Scheduler
open Foundation TaskQueue

/-- The record is put at the end of the queue. -/
def Event.enters (t : TaskRef) : Event → Bool
  | .log .enqueue u _ => u = t
  | .log .waiting u _ => u = t
  | _ => false

/-- The record is taken out of the queue, to run or to be freed. -/
def Event.leaves (t : TaskRef) : Event → Bool
  | .log .dispatch u _ => u = t
  | .unlinked u => u = t
  | _ => false

def Event.dispatched : Event → Option TaskRef
  | .log .dispatch t _ => some t
  | _ => none

theorem cancel_events {Q : Type} [TaskQueue Q] (s : System Q) (thread : ThreadId) (client : ℤ) :
    ∃ new, (schedulerCancelClientTasks s thread client).events = new ++ s.events ∧
      ∀ e ∈ new, ∃ t, e = .unlinked t := by
  refine ⟨((unlinkClient s.allocated s.tasks thread client s.queue).1.map Event.unlinked).reverse,
    by simp [schedulerCancelClientTasks],fun e hm => ?_⟩
  obtain ⟨t,_,rfl⟩ := List.mem_map.mp (List.mem_reverse.mp hm)
  exact ⟨t,rfl⟩

/-- A step either dispatches what the queue yields, or records no dispatch and gives
the running task at most up. -/
theorem step_dispatches {Q : Type} [TaskQueue Q] {s s' : System Q} {x : Action}
    (he : step s x = some s') :
    (s'.lastSelectedTaskId = s.lastSelectedTaskId ∧
      (s'.currentTask = s.currentTask ∨ x = .finish ∧ s'.currentTask = none) ∧
      ∃ new, s'.events = new ++ s.events ∧ ∀ e ∈ new, Event.dispatched e = none) ∨
    (x = .enter ∧ s.main.task = none ∧ ∃ t q,
      dequeue s.allocated s.tasks s.lastSelectedTaskId s.queue = (some t,q) ∧
      s' = dispatchTask { s with queuedSignalCount := s.queuedSignalCount - 1, queue := q } t) := by
  cases step_stepped he with
  | submit request =>
    obtain ⟨new,hev,hn⟩ := schedulerSubmitTask_events s (schedulerCreateTask request)
    refine Or.inl ⟨by simp,Or.inl (by simp),new,hev,fun e hm => ?_⟩
    rcases hn e hm with rfl | ⟨t,rfl⟩ <;> rfl
  | @cancel thread client =>
    obtain ⟨new,hev,hn⟩ := cancel_events s thread client
    refine Or.inl ⟨by simp [schedulerCancelClientTasks],
      Or.inl (by simp [schedulerCancelClientTasks]),new,hev,fun e hm => ?_⟩
    obtain ⟨t,rfl⟩ := hn e hm
    rfl
  | free he =>
    obtain ⟨c,_,_,hev,_,hc,_,_,_,_,hl,_⟩ := freeNext_eq he
    exact Or.inl ⟨hl,Or.inl hc,[.cleanup c],hev,by simp [Event.dispatched]⟩
  | quiet hq => exact Or.inl ⟨hq.lastSelectedTaskId,Or.inl hq.currentTask,[],hq.events,by simp⟩
  | @dispatch t q hm hd => exact Or.inr ⟨rfl,hm,t,q,hd,rfl⟩
  | setBurst => exact Or.inl ⟨rfl,Or.inl rfl,[],rfl,by simp⟩
  | requeue => exact Or.inl ⟨rfl,Or.inr ⟨rfl,rfl⟩,[_],rfl,by simp [Event.dispatched]⟩
  | finalize _ _ _ hev =>
    refine Or.inl ⟨rfl,Or.inr ⟨rfl,rfl⟩,[_,_],rfl,?_⟩
    rcases hev with rfl | rfl | rfl <;> simp [Event.dispatched]

/-- The record is finalised at the end of its round. -/
def Event.finalised : Event → Option TaskRef
  | .log .cancel t _ => some t
  | .log .finish t _ => some t
  | .log .fail t _ => some t
  | _ => none

/-- A step either finalises no record at the end of a round, or is the end of a round
that is not sent back to the queue. -/
theorem step_finalises {Q : Type} [TaskQueue Q] {s s' : System Q} {x : Action}
    (he : step s x = some s') :
    (∃ new, s'.events = new ++ s.events ∧ ∀ e ∈ new, Event.finalised e = none) ∨
    (x = .finish ∧ ∃ t quantum r event, s.main = .returned t quantum r ∧
      ¬ mayRequeue (s.tasks t) r ∧ s'.events = [.cleanup t,.log event t 0] ++ s.events) := by
  cases step_stepped he with
  | submit request =>
    obtain ⟨new,hev,hn⟩ := schedulerSubmitTask_events s (schedulerCreateTask request)
    refine Or.inl ⟨new,hev,fun e hm => ?_⟩
    rcases hn e hm with rfl | ⟨t,rfl⟩ <;> rfl
  | @cancel thread client =>
    obtain ⟨new,hev,hn⟩ := cancel_events s thread client
    refine Or.inl ⟨new,hev,fun e hm => ?_⟩
    obtain ⟨t,rfl⟩ := hn e hm
    rfl
  | free he =>
    obtain ⟨c,_,_,hev,_⟩ := freeNext_eq he
    exact Or.inl ⟨[.cleanup c],hev,by simp [Event.finalised]⟩
  | quiet hq => exact Or.inl ⟨[],hq.events,by simp⟩
  | dispatch => exact Or.inl ⟨[_],rfl,by simp [Event.finalised]⟩
  | setBurst => exact Or.inl ⟨[],rfl,by simp⟩
  | requeue => exact Or.inl ⟨[_],rfl,by simp [Event.finalised]⟩
  | @finalize t quantum r state event hm hr =>
    exact Or.inr ⟨rfl,t,quantum,r,event,hm,hr,rfl⟩

variable {s s' : System TaskLists} {t : TaskRef}

theorem step_events {Q : Type} [TaskQueue Q] {s s' : System Q} {x : Action}
    (he : step s x = some s') : ∃ new, s'.events = new ++ s.events := by
  rcases step_dispatches he with ⟨_,_,new,hev,_⟩ | ⟨_,_,t,q,_,rfl⟩
  · exact ⟨new,hev⟩
  · exact ⟨[_],rfl⟩

/-- A record that exists gets into the queue only when its round asks for it. -/
theorem step_waiting {x : Action} (he : step s x = some s') (ht : t < s.allocated) :
    ((t ∈ s'.queue.waiting → t ∈ s.queue.waiting) ∧
      s'.events.countP (Event.enters t) = s.events.countP (Event.enters t)) ∨
    x = .finish ∧ ∃ quantum r, s.main = .returned t quantum r ∧ mayRequeue (s.tasks t) r := by
  cases step_stepped he with
  | submit request =>
    obtain ⟨new,hev,hn⟩ := schedulerSubmitTask_events s (schedulerCreateTask request)
    have hzero : new.countP (Event.enters t) = 0 := by
      apply List.countP_eq_zero.mpr
      intro e hm
      rcases hn e hm with rfl | ⟨u,rfl⟩
      · simpa [Event.enters] using ht.ne'
      · exact Bool.false_ne_true
    refine Or.inl ⟨fun hm => ?_,by rw [hev,List.countP_append,hzero,Nat.zero_add]⟩
    simp only [schedulerSubmitTask_frame,enqueue_lists,List.mem_append,List.mem_singleton] at hm
    exact hm.resolve_right ht.ne
  | @cancel thread client =>
    obtain ⟨new,hev,hn⟩ := cancel_events s thread client
    have hzero : new.countP (Event.enters t) = 0 := by
      apply List.countP_eq_zero.mpr
      intro e hm
      obtain ⟨u,rfl⟩ := hn e hm
      exact Bool.false_ne_true
    refine Or.inl ⟨?_,by rw [hev,List.countP_append,hzero,Nat.zero_add]⟩
    simp only [schedulerCancelClientTasks,cancelCurrent_frame,unlinkClient_lists]
    exact List.mem_of_mem_filter
  | free he =>
    obtain ⟨c,_,hq,hev,_⟩ := freeNext_eq he
    exact Or.inl ⟨by rw [hq]; exact id,by rw [hev]; rfl⟩
  | quiet hq => exact Or.inl ⟨by rw [hq.queue_eq]; exact id,by rw [hq.events]⟩
  | dispatch _ hd =>
    obtain ⟨_,rfl⟩ := dequeue_some hd
    exact Or.inl ⟨List.mem_of_mem_erase,rfl⟩
  | setBurst => exact Or.inl ⟨id,rfl⟩
  | @requeue c quantum r hm hr =>
    by_cases htc : t = c
    · subst htc
      exact Or.inr ⟨rfl,quantum,r,hm,hr⟩
    · refine Or.inl ⟨fun hw => ?_,?_⟩
      · simp only [requeueTask_frame,enqueue_lists,List.mem_append,List.mem_singleton] at hw
        exact hw.resolve_right htc
      · simp [Event.enters,Ne.symm htc]
  | finalize _ _ _ hev =>
    refine Or.inl ⟨id,?_⟩
    rcases hev with rfl | rfl | rfl <;> rfl

/-- The running task changes only by a dispatch from the queue. -/
theorem step_current {x : Action} (he : step s x = some s') (ht : s'.currentTask = some t) :
    s.currentTask = some t ∨ t ∈ s.queue.waiting := by
  rcases step_dispatches he with ⟨_,hc | ⟨_,hc⟩,_⟩ | ⟨_,_,u,q,hd,rfl⟩
  · exact Or.inl (hc ▸ ht)
  · rw [hc] at ht
    cases ht
  · obtain rfl : u = t := Option.some.inj ht
    exact Or.inr (nextTask_mem (dequeue_some hd).1)

/-- A record to be freed stays on its list until it is handed to cleanup. -/
theorem step_freeing {x : Action} {thread : ThreadId} (he : step s x = some s')
    (ht : t ∈ s.queue.toFree thread) :
    t ∈ s'.queue.toFree thread ∨ Event.cleanup t ∈ s'.events := by
  cases step_stepped he with
  | submit request => exact Or.inl (by simpa using ht)
  | @cancel thread' client hf =>
    have hne : thread ≠ thread' := by
      rintro rfl
      rw [List.head?_eq_none_iff.mp hf] at ht
      cases ht
    left
    simpa [schedulerCancelClientTasks,Function.update_of_ne hne] using ht
  | @free thread' _ he =>
    obtain ⟨c,hhead,hq,hev,_⟩ := freeNext_eq he
    rw [hq,hev,popFree_lists]
    by_cases hth : thread = thread'
    · subst hth
      obtain ⟨rest,hrest⟩ := List.head?_eq_some_iff.mp (show _ = some c from hhead)
      rw [hrest] at ht ⊢
      rcases List.mem_cons.mp ht with rfl | ht
      · exact Or.inr List.mem_cons_self
      · exact Or.inl (by simpa using ht)
    · exact Or.inl (by simpa [Function.update_of_ne hth] using ht)
  | quiet hq => exact Or.inl (by rwa [hq.queue_eq])
  | dispatch _ hd =>
    obtain ⟨_,rfl⟩ := dequeue_some hd
    exact Or.inl ht
  | setBurst => exact Or.inl ht
  | requeue => exact Or.inl ht
  | finalize => exact Or.inl ht

/-- No step writes to a record that was handed to cleanup. -/
theorem step_finalised {x : Action} (hi : Invariant s) (hz : Event.cleanup t ∈ s.events)
    (he : step s x = some s') : s'.tasks t = s.tasks t := by
  obtain ⟨place,hp⟩ := hi.placed
  have hnc := hp.finalised_not_current hz
  have hmain : ∀ c, s.main.task = some c → t ≠ c := by
    rintro c hc rfl
    exact hnc (hi.counted.main_task ▸ hc)
  cases step_stepped he with
  | submit request =>
    rw [schedulerSubmitTask_tasks,if_neg (fun h => hnc h.1),
      Function.update_of_ne (hp.finalised_lt hz).ne]
  | cancel =>
    simp only [schedulerCancelClientTasks,cancelCurrent_tasks]
    rw [if_neg (fun h => hnc h.1)]
  | @free thread _ he =>
    obtain ⟨c,hhead,_,_,_,_,_,_,_,_,_,_,_,htasks⟩ := freeNext_eq he
    have hne : t ≠ c := by
      rintro rfl
      exact hp.finalised_not_freeing hz thread (List.mem_of_head? hhead)
    rw [htasks]
    split
    · rw [Function.update_of_ne hne]
    · rfl
  | quiet hq => rw [hq.tasks]
  | @dispatch c _ _ hd =>
    have hne : t ≠ c := by
      rintro rfl
      exact hp.finalised_not_waiting hz (nextTask_mem (dequeue_some hd).1)
    exact Function.update_of_ne hne _ _
  | setBurst hm => exact Function.update_of_ne (hmain _ (by rw [hm]; rfl)) _ _
  | requeue hm => exact Function.update_of_ne (hmain _ (by rw [hm]; rfl)) _ _
  | finalize hm => exact Function.update_of_ne (hmain _ (by rw [hm]; rfl)) _ _

/-- How the state of a record changes: it leaves the queue's state for good ones, or its
round sends it back. -/
theorem step_state {x : Action} (hi : Invariant s) (he : step s x = some s')
    (ht : t < s.allocated) :
    (s'.tasks t).state = (s.tasks t).state ∨
    ((s'.tasks t).state ≠ .waiting ∧ t ∉ s'.queue.waiting) ∨
    ∃ quantum r, x = .finish ∧ s.main = .returned t quantum r ∧ mayRequeue (s.tasks t) r ∧
      (s'.tasks t).state = .waiting := by
  obtain ⟨place,hp⟩ := hi.placed
  obtain ⟨place',hp'⟩ := (step_invariant hi he).placed
  cases step_stepped he with
  | submit request =>
    rw [schedulerSubmitTask_tasks,Function.update_of_ne ht.ne]
    dsimp only
    split <;> exact Or.inl rfl
  | cancel =>
    simp only [schedulerCancelClientTasks,cancelCurrent_tasks]
    split <;> exact Or.inl rfl
  | @free thread _ he =>
    obtain ⟨c,hhead,hq,hev,_,_,_,_,_,_,_,_,_,htasks⟩ := freeNext_eq he
    by_cases hct : t = c
    · subst hct
      have hnw : t ∉ s'.queue.waiting := by
        rw [hq]
        exact fun hw => hp.waiting_not_freeing hw thread (List.mem_of_mem_head? hhead)
      rw [htasks]
      split
      · exact Or.inr (Or.inl ⟨by simp,hnw⟩)
      · exact Or.inl rfl
    · rw [htasks]
      split
      · rw [Function.update_of_ne hct]; exact Or.inl rfl
      · exact Or.inl rfl
  | quiet hq => exact Or.inl (by rw [hq.tasks])
  | @dispatch c =>
    by_cases hct : t = c
    · subst hct
      exact Or.inr (Or.inl ⟨by simp,hp'.current_not_waiting rfl⟩)
    · exact Or.inl (congrArg Task.state (Function.update_of_ne hct _ _))
  | setBurst => exact Or.inl (field_update Task.state rfl)
  | @requeue c quantum r hm hr =>
    by_cases hct : t = c
    · subst hct
      exact Or.inr (Or.inr ⟨quantum,r,rfl,hm,hr,by simp⟩)
    · exact Or.inl (congrArg Task.state (Function.update_of_ne hct _ _))
  | @finalize c _ _ _ _ hm _ hs =>
    by_cases hct : t = c
    · subst hct
      have hnw : t ∉ s.queue.waiting :=
        hp.current_not_waiting (by rw [← hi.counted.main_task,hm]; rfl)
      exact Or.inr (Or.inl ⟨by simpa using hs,hnw⟩)
    · exact Or.inl (congrArg Task.state (Function.update_of_ne hct _ _))

theorem submit_state {Q : Type} [TaskQueue Q] {s s' : System Q} {request : TaskRequest}
    (he : step s (.submit request) = some s') :
    (s'.tasks s.allocated).state = .waiting := by
  obtain rfl := Option.some.inj he
  rw [schedulerSubmitTask_tasks,Function.update_self]
  dsimp only
  split <;> simp

/-- The records in the queue have the state that goes with it. -/
theorem step_waitingState {x : Action} (hi : Invariant s)
    (h : ∀ t ∈ s.queue.waiting, (s.tasks t).state = .waiting) (he : step s x = some s') :
    ∀ t ∈ s'.queue.waiting, (s'.tasks t).state = .waiting := by
  intro t ht
  by_cases hlt : t < s.allocated
  · rcases step_state hi he hlt with hst | ⟨_,hn⟩ | ⟨_,_,_,_,_,hst⟩
    · rcases step_waiting he hlt with ⟨hw,_⟩ | ⟨rfl,quantum,r,hm,hr⟩
      · rw [hst]
        exact h t (hw ht)
      · obtain ⟨t',quantum',r',hm',rfl⟩ := step_finish he
        rw [hm] at hm'
        cases hm'
        rcases finish_cases s t quantum r with ⟨_,hs⟩ | ⟨hn,_⟩
        · rw [hs]; simp
        · exact (hn hr).elim
    · exact (hn ht).elim
    · exact hst
  · obtain ⟨place,hp⟩ := (step_invariant hi he).placed
    have hlt' := hp.waiting_lt ht
    rcases step_allocated he with ⟨hn,_⟩ | ⟨⟨request,rfl⟩,hn,_⟩
    · exact (hlt (hn ▸ hlt')).elim
    · rw [hn] at hlt'
      obtain rfl := Nat.le_antisymm (Nat.le_of_lt_succ hlt') (Nat.le_of_not_lt hlt)
      exact submit_state he

/-- The actions of threads other than the scheduler's own. -/
def Action.outside : Action → Bool
  | .submit _ => true
  | .cancel _ _ => true
  | .free _ => true
  | .requestStop => true
  | _ => false

/-- Another thread can wake the scheduler thread, and do no more to it. -/
theorem step_outside {Q : Type} [TaskQueue Q] {s s' : System Q} {x : Action}
    (hx : x.outside = true) (he : step s x = some s') :
    (s'.main = s.main ∨ s'.main = s.main.signal) ∧ s'.currentTask = s.currentTask := by
  cases x with
  | submit request => cases he; exact ⟨Or.inr (by simp),by simp⟩
  | cancel thread client =>
    obtain ⟨_,rfl⟩ := step_cancel he
    exact ⟨Or.inl (by simp [schedulerCancelClientTasks]),by simp [schedulerCancelClientTasks]⟩
  | free thread =>
    obtain ⟨c,_,_,_,_,hc,_,_,_,_,_,_,hm,_⟩ := freeNext_eq he
    exact ⟨Or.inl hm,hc⟩
  | requestStop => cases he; exact ⟨Or.inr rfl,rfl⟩
  | enter => cases hx
  | setBurst remaining => cases hx
  | result r => cases hx
  | finish => cases hx

theorem MainThread.signal_of_task {m : MainThread} {t : TaskRef} (h : m.task = some t) :
    m.signal = m := by
  cases m <;> first | rfl | cases h

end UnixShell.Scheduler
