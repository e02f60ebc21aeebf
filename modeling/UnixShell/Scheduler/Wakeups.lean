import UnixShell.Scheduler.Effects
import UnixShell.Scheduler.Refinement

/-! # No lost wakeup

There are at least as many signals as waiting tasks, and a thread that waits for one
has nothing to do. Every stay in the queue ends by one dispatch or one removal, so
the surplus signals of a cancellation go round the loop without any effect.
-/
namespace UnixShell.Scheduler
open Foundation TaskQueue

/-- Whoever entered the queue has left it once, or is in it. -/
def Balanced (events : List Event) (waiting : List TaskRef) : Prop :=
  ∀ t, events.countP (Event.enters t) = events.countP (Event.leaves t) + waiting.count t

variable {s s' : System TaskLists} {place : TaskRef → Option Place}

theorem Balanced.log {events : List Event} {waiting : List TaskRef} {new : List Event}
    (h : Balanced events waiting)
    (hn : ∀ e ∈ new, ∀ t, Event.enters t e = false ∧ Event.leaves t e = false) :
    Balanced (new ++ events) waiting := by
  intro t
  have he : new.countP (Event.enters t) = 0 :=
    List.countP_eq_zero.mpr (fun e hm => by simp [(hn e hm t).1])
  have hl : new.countP (Event.leaves t) = 0 :=
    List.countP_eq_zero.mpr (fun e hm => by simp [(hn e hm t).2])
  rw [List.countP_append,List.countP_append,he,hl,Nat.zero_add,Nat.zero_add]
  exact h t

theorem Balanced.enter {events : List Event} {waiting : List TaskRef} {u : TaskRef} {e : Event}
    (h : Balanced events waiting) (he : ∀ t, Event.enters t e = decide (u = t))
    (hl : ∀ t, Event.leaves t e = false) : Balanced (e :: events) (waiting ++ [u]) := by
  intro t
  have ht := h t
  rw [List.countP_cons,List.countP_cons,he t,hl t,List.count_append,List.count_singleton]
  by_cases hu : u = t
  · simp [hu]; omega
  · simp [hu]; omega

theorem Balanced.dispatch {events : List Event} {waiting : List TaskRef} {u : TaskRef}
    (h : Balanced events waiting) (hu : u ∈ waiting) (quantum : ℤ) :
    Balanced (.log .dispatch u quantum :: events) (waiting.erase u) := by
  intro t
  have ht := h t
  have hpos := List.count_pos_iff.mpr hu
  rw [List.countP_cons,List.countP_cons,List.count_erase]
  by_cases hut : u = t
  · subst hut
    simp [Event.enters,Event.leaves]
    omega
  · simp [Event.enters,Event.leaves,hut]
    omega

/-- Removing the matches of a predicate, with one event for each. -/
theorem Balanced.unlink {events : List Event} {waiting : List TaskRef} (p : TaskRef → Bool)
    (h : Balanced events waiting) :
    Balanced (((waiting.filter p).map Event.unlinked).reverse ++ events)
      (waiting.filter (fun t => !p t)) := by
  intro t
  have ht := h t
  have he : (((waiting.filter p).map Event.unlinked).reverse).countP (Event.enters t) = 0 :=
    List.countP_eq_zero.mpr (by
      intro e hm
      obtain ⟨u,_,rfl⟩ := List.mem_map.mp (List.mem_reverse.mp hm)
      exact Bool.false_ne_true)
  have hl : (((waiting.filter p).map Event.unlinked).reverse).countP (Event.leaves t) =
      (waiting.filter p).count t := by
    rw [List.countP_reverse,List.countP_map]
    rfl
  have hsplit : (waiting.filter p).count t + (waiting.filter (fun t => !p t)).count t =
      waiting.count t := by
    rw [← List.count_append]
    exact (List.filter_append_perm p waiting).count_eq t
  rw [List.countP_append,List.countP_append,he,hl]
  omega

theorem balanced_init (config : Option SchedulerConfig) (hasCleanup : Bool) :
    Balanced (schedulerInit TaskLists config hasCleanup).events
      (schedulerInit TaskLists config hasCleanup).queue.waiting :=
  fun _ => rfl

theorem step_balanced {x : Action} (h : Balanced s.events s.queue.waiting)
    (he : step s x = some s') : Balanced s'.events s'.queue.waiting := by
  cases step_stepped he with
  | submit request =>
    obtain ⟨new,he,hn⟩ := requestPreemption_events
      (queuedTask s (schedulerCreateTask request)) (submittedTask s (schedulerCreateTask request))
    have henter : Balanced (.log .enqueue s.allocated 0 :: s.events)
        (s.queue.waiting ++ [s.allocated]) :=
      h.enter (fun _ => rfl) (fun _ => rfl)
    have hev : (schedulerSubmitTask s (schedulerCreateTask request)).events =
        new ++ .log .enqueue s.allocated 0 :: s.events := he
    rw [hev,(schedulerSubmitTask_frame s _).2.2.2.2.2.2.2.2.2]
    apply henter.log
    intro e hm t
    obtain ⟨u,rfl⟩ := hn e hm
    exact ⟨rfl,rfl⟩
  | cancel => simpa [schedulerCancelClientTasks] using h.unlink (ownedBy s.tasks _)
  | free he =>
    obtain ⟨t,_,hq,hev,_⟩ := freeNext_eq he
    have hl : Balanced ([.cleanup t] ++ s.events) s.queue.waiting :=
      h.log (by simp [Event.enters,Event.leaves])
    rw [hq,hev]
    exact hl
  | quiet hq => rwa [hq.events,hq.queue_eq]
  | dispatch _ hd =>
    obtain ⟨hn,rfl⟩ := dequeue_some hd
    exact h.dispatch (nextTask_mem hn) _
  | setBurst => exact h
  | @requeue t quantum =>
    exact h.enter (e := .log .waiting t quantum) (fun _ => rfl) (fun _ => rfl)
  | @finalize t _ _ _ event _ _ _ hev =>
    have hl : Balanced ([.cleanup t,.log event t 0] ++ s.events) s.queue.waiting := by
      apply h.log
      rcases hev with rfl | rfl | rfl <;> simp [Event.enters,Event.leaves]
    exact hl

theorem reachable_balanced (h : Reachable s) : Balanced s.events s.queue.waiting := by
  obtain ⟨config,hasCleanup,h⟩ := h
  exact h.invariant (P := fun s => Balanced s.events s.queue.waiting)
    (fun _ _ _ hb he => step_balanced hb he) (balanced_init config hasCleanup)

/-- What the signal counter guarantees, in terms of the links. -/
structure NoLostWakeup (s : System TaskLinks) : Prop where
  signals : (waitingRecords s.allocated s.queue).length ≤ s.queuedSignalCount
  /-- A thread that waits, with no signal sent since its last test, has nothing to do. -/
  blocked : s.main = .blocked false →
    waitingRecords s.allocated s.queue = [] ∧ s.activeTaskCount = 0 ∧ s.stopRequested = false
  /-- Whatever signals are left over, the next turn of the loop runs a task if one waits,
  and takes that task alone out of the queue. -/
  dispatches : ∀ s', step s .enter = some s' → waitingRecords s.allocated s.queue ≠ [] →
    ∃ t ∈ waitingRecords s.allocated s.queue, ∃ quantum,
      s'.main = .executing t quantum ∧ s'.currentTask = some t ∧
      waitingRecords s'.allocated s'.queue = (waitingRecords s.allocated s.queue).erase t ∧
      s'.events = .log .dispatch t quantum :: s.events
  /-- A signal left over by a cancellation is used up without touching anything else. -/
  surplus : ∀ s', step s .enter = some s' → waitingRecords s.allocated s.queue = [] →
    0 < s.queuedSignalCount → ¬ mayExit s →
    s' = { s with queuedSignalCount := s.queuedSignalCount - 1, main := .top }
  balanced : Balanced s.events (waitingRecords s.allocated s.queue)

theorem dequeue_nil {fuel : ℕ} {tasks : TaskRef → Task} {last : ℤ} {l : TaskLinks}
    (h : waitingRecords fuel l = []) : dequeue fuel tasks last l = (none,l) := by
  have hv : visits l.queue.next fuel none l.queue.head = [] := List.map_eq_nil_iff.mp h
  change dequeueNextTaskLocked fuel tasks last l = (none,l)
  simp [dequeueNextTaskLocked,chooseShortestProgramLocked,hv,pickAvoiding]

theorem noLostWakeup {s : System TaskLinks} (h : Reachable s) : NoLostWakeup s := by
  obtain ⟨l,hl,hr⟩ := reachable_refines h
  have hc := hr.invariant.counted
  have hw := hr.waitingRecords
  refine ⟨?_,?_,?_,?_,?_⟩
  · rw [hw,hr.core]; exact hc.signals
  · intro hb
    rw [hr.core] at hb
    rw [hw,hr.core]
    exact hc.blocked_idle hb
  · intro s' he hne
    rw [hw] at hne
    obtain ⟨l',he',hr'⟩ := step_refines hr he
    obtain ⟨_,_,rfl⟩ := step_enter he'
    obtain ⟨t,ht,hl'⟩ := hc.enter_dispatches hne
    rw [hw,hr'.waitingRecords,hr'.core,hr.core,hl']
    exact ⟨t,ht,_,rfl,rfl,rfl,rfl⟩
  · intro s' he hnil hz hx
    obtain ⟨_,_,rfl⟩ := step_enter he
    rcases enter_cases s with ⟨h0,_,_⟩ | ⟨hx',_⟩ | ⟨_,_,q,hd,he'⟩ | ⟨_,_,t,q,hd,_⟩
    · omega
    · exact (hx hx').elim
    · rw [dequeue_nil hnil] at hd
      cases hd
      exact he'
    · rw [dequeue_nil hnil] at hd
      cases hd
  · rw [hw,hr.core]; exact reachable_balanced hl

/-- The cancelled task's signal is still there when the thread comes round. -/
def cancelBeforeDispatch : List Action :=
  [.submit { type := .program, clientNumber := 1, commandText := none, predictedBurst := 4,
             userData := none },
    .cancel 7 1,.free 7,.enter,.enter,
    .submit { type := .shell, clientNumber := 2, commandText := none, predictedBurst := -1,
              userData := none }]

theorem noLostWakeup_cancelBeforeDispatch :
    ∃ s, exec step (schedulerInit TaskLinks none true) cancelBeforeDispatch = some s ∧
      NoLostWakeup s := by
  obtain ⟨s,he⟩ := Option.isSome_iff_exists.mp
    (show (exec step (schedulerInit TaskLinks none true) cancelBeforeDispatch).isSome = true
      from rfl)
  exact ⟨s,he,noLostWakeup ⟨none,true,reaches_of_exec he⟩⟩

end UnixShell.Scheduler
