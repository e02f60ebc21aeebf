import UnixShell.Scheduler.Refinement

/-! # Conservation of tasks

In every reachable state of the linked scheduler each accepted task is in exactly
one place, the task counter counts the waiting and the running ones, and cleanup is
called at most once on a record and never on one that can still run.
-/
namespace UnixShell.Scheduler
open Foundation TaskQueue

/-- The place of a record, read off the links, the current task and the history. -/
def InPlace (s : System TaskLinks) (t : TaskRef) : Place → Prop
  | .waiting => t ∈ waitingRecords s.allocated s.queue
  | .current => s.currentTask = some t
  | .freeing thread => t ∈ toFreeRecords s.allocated thread s.queue
  | .finalised => Event.cleanup t ∈ s.events

structure TaskConservation (s : System TaskLinks) : Prop where
  active : s.activeTaskCount =
    (waitingRecords s.allocated s.queue).length + if s.currentTask.isSome then 1 else 0
  active_nonneg : 0 ≤ s.activeTaskCount
  waiting_nodup : (waitingRecords s.allocated s.queue).Nodup
  current_not_waiting : ∀ t, s.currentTask = some t → t ∉ waitingRecords s.allocated s.queue
  one_place : ∀ t < s.allocated, ∃! p, InPlace s t p
  cleanup_once : ∀ t, s.events.count (.cleanup t) ≤ 1
  cleanup_over : ∀ t, Event.cleanup t ∈ s.events →
    t ∉ waitingRecords s.allocated s.queue ∧ s.currentTask ≠ some t
  /-- The loop is left with every task accepted so far out of the queue and not running. -/
  leaves_none : ∀ a s', step s a = some s' → s.main ≠ .exited → s'.main = .exited →
    waitingRecords s'.allocated s'.queue = [] ∧ s'.currentTask = none

variable {c : System TaskLinks} {a : System TaskLists} {place : TaskRef → Option Place}

theorem Refines.inPlace_iff (h : Refines c a) (hp : Placed a place) (t : TaskRef) (p : Place) :
    InPlace c t p ↔ place t = some p := by
  cases p with
  | waiting =>
    rw [InPlace,h.waitingRecords]
    exact hp.waiting_iff t
  | current =>
    rw [InPlace,h.core]
    exact hp.current_iff t
  | freeing thread =>
    rw [InPlace,h.toFreeRecords]
    exact hp.freeing_iff thread t
  | finalised =>
    rw [InPlace,h.core]
    exact hp.finalised_iff t

/-- Only the first critical section leaves the loop, and only when the count is zero. -/
theorem step_exited {Q : Type} [TaskQueue Q] {s s' : System Q} {x : Action}
    (he : step s x = some s') (hm : s.main ≠ .exited) (hm' : s'.main = .exited) : mayExit s' := by
  cases x with
  | submit request =>
    cases he
    simp only [schedulerSubmitTask_frame] at hm'
    cases hs : s.main <;> simp [MainThread.signal,hs] at hm hm'
  | cancel thread client =>
    obtain ⟨_,rfl⟩ := step_cancel he
    exact (hm (by simpa [schedulerCancelClientTasks] using hm')).elim
  | free thread =>
    obtain ⟨t,_,_,_,_,_,_,_,_,_,_,_,hmain,_⟩ := freeNext_eq he
    exact (hm (hmain ▸ hm')).elim
  | requestStop =>
    cases he
    cases hs : s.main <;> simp [schedulerRequestStop,condSignal,MainThread.signal,hs] at hm hm'
  | enter =>
    obtain ⟨_,_,rfl⟩ := step_enter he
    rcases enter_cases s with ⟨_,_,hs⟩ | ⟨hx,hs⟩ | ⟨_,_,q,_,hs⟩ | ⟨_,_,t,q,_,hs⟩
    · rw [hs] at hm'; cases hm'
    · rw [hs]; exact hx
    · rw [hs] at hm'; cases hm'
    · rw [hs] at hm'; cases hm'
  | setBurst remaining =>
    obtain ⟨t,quantum,_,rfl⟩ := step_setBurst he
    exact (hm hm').elim
  | result r =>
    obtain ⟨t,quantum,_,rfl⟩ := step_result he
    cases hm'
  | finish =>
    obtain ⟨t,quantum,r,_,rfl⟩ := step_finish he
    rcases finish_cases s t quantum r with ⟨_,hs⟩ | ⟨_,_,_,hs,_⟩ <;> rw [hs] at hm' <;> cases hm'

theorem taskConservation {s : System TaskLinks} (h : Reachable s) : TaskConservation s := by
  obtain ⟨l,_,hr⟩ := reachable_refines h
  obtain ⟨place,hp⟩ := hr.invariant.placed
  have hc := hr.invariant.counted
  have hw := hr.waitingRecords
  have hactive : s.activeTaskCount =
      (waitingRecords s.allocated s.queue).length + if s.currentTask.isSome then 1 else 0 := by
    rw [hw,hr.core]
    exact hc.active
  refine ⟨hactive,?_,?_,?_,?_,?_,?_,?_⟩
  · rw [hactive]
    split <;> omega
  · rw [hw]; exact hp.waiting_nodup
  · intro t ht
    rw [hw]
    rw [hr.core] at ht
    exact hp.current_not_waiting ht
  · intro t ht
    rw [hr.core] at ht
    obtain ⟨p,hpt⟩ := Option.ne_none_iff_exists'.mp
      (fun hn => absurd ((hp.fresh_iff t).mp hn) (Nat.not_le_of_lt ht))
    refine ⟨p,(hr.inPlace_iff hp t p).mpr hpt,?_⟩
    intro p' hp'
    have he := (hr.inPlace_iff hp t p').mp hp'
    rw [hpt] at he
    exact (Option.some.inj he).symm
  · intro t
    rw [hr.core]
    exact hp.cleanup_once t
  · intro t ht
    rw [hr.core] at ht
    rw [hw,hr.core]
    exact ⟨hp.finalised_not_waiting ht,hp.finalised_not_current ht⟩
  · intro x s' he hm hm'
    obtain ⟨l',_,hr'⟩ := step_refines hr he
    have hx : mayExit l' := by
      have hx' := step_exited he hm hm'
      rw [mayExit,hr'.core] at hx'
      exact hx'
    rw [hr'.waitingRecords,hr'.core]
    exact hr'.invariant.counted.idle hx.2

/-- A cancellation hits a run that then asks to be queued again. -/
def cancelDuringRun : List Action :=
  [.submit { type := .program, clientNumber := 1, commandText := none, predictedBurst := 4,
             userData := none },
    .submit { type := .shell, clientNumber := 1, commandText := none, predictedBurst := -1,
              userData := none },
    .enter,.result .complete,.finish,.enter,.cancel 7 1,.setBurst 3,.result .requeue,.finish]

theorem taskConservation_cancelDuringRun :
    ∃ s, exec step (schedulerInit TaskLinks none true) cancelDuringRun = some s ∧
      TaskConservation s := by
  obtain ⟨s,he⟩ := Option.isSome_iff_exists.mp
    (show (exec step (schedulerInit TaskLinks none true) cancelDuringRun).isSome = true from rfl)
  exact ⟨s,he,taskConservation ⟨none,true,reaches_of_exec he⟩⟩

end UnixShell.Scheduler
