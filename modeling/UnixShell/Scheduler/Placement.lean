import UnixShell.Scheduler.Records

/-! # Every accepted task is in one place

On the list scheduler a function tells where each record is: waiting, current, on
a cancelling thread's list, or handed to cleanup. Each step moves at most the
records it names, so the function is updated there and nowhere else.
-/
namespace UnixShell.Scheduler
open Foundation TaskQueue

inductive Place
  | waiting
  | current
  | freeing (thread : ThreadId)
  | finalised
  deriving DecidableEq

section Lists

@[simp] theorem enqueue_lists (q : TaskLists) (t : TaskRef) :
    enqueue q t = { q with waiting := q.waiting ++ [t] } := rfl
@[simp] theorem toFree_lists (q : TaskLists) (thread : ThreadId) :
    TaskQueue.toFree q thread = (q.toFree thread).head? := rfl
@[simp] theorem popFree_lists (q : TaskLists) (thread : ThreadId) :
    popFree q thread =
      { q with toFree := Function.update q.toFree thread (q.toFree thread).tail } := rfl
@[simp] theorem unlinkClient_lists (n : ℕ) (tasks : TaskRef → Task) (thread : ThreadId)
    (client : ℤ) (q : TaskLists) : unlinkClient n tasks thread client q =
      (q.waiting.filter (ownedBy tasks client),
        { waiting := q.waiting.filter (fun t => !ownedBy tasks client t)
          toFree := Function.update q.toFree thread
            (q.waiting.filter (ownedBy tasks client)).reverse }) := rfl

variable {tasks : TaskRef → Task} {last : ℤ} {waiting : List TaskRef} {t : TaskRef}

theorem nextTask_mem (h : nextTask tasks last waiting = some t) : t ∈ waiting := by
  unfold nextTask at h
  split at h
  · rename_i shell hs
    cases h
    exact List.mem_of_find?_eq_some hs
  · split at h
    · rename_i program hp
      cases h
      exact List.mem_of_mem_filter (List.argmin_mem hp)
    · exact List.mem_of_head? h

theorem nextTask_eq_none (h : nextTask tasks last waiting = none) : waiting = [] := by
  unfold nextTask at h
  split at h
  · cases h
  · split at h
    · cases h
    · exact List.head?_eq_none_iff.mp h

theorem dequeue_none {n : ℕ} {q q' : TaskLists} (h : dequeue n tasks last q = (none,q')) :
    q' = q ∧ q.waiting = [] := by
  simp only [dequeue] at h
  split at h
  · rename_i hn
    exact ⟨(Prod.mk.inj h).2.symm,nextTask_eq_none hn⟩
  · simp at h

theorem Quiet.queue_eq {s s' : System TaskLists} (h : Quiet s s') : s'.queue = s.queue :=
  h.queue.elim id fun hd => (dequeue_none hd).1

theorem dequeue_some {n : ℕ} {q q' : TaskLists} (h : dequeue n tasks last q = (some t,q')) :
    nextTask tasks last q.waiting = some t ∧ q' = { q with waiting := q.waiting.erase t } := by
  simp only [dequeue] at h
  split at h
  · simp at h
  · rename_i u hu
    obtain ⟨hut,hq⟩ := Prod.mk.inj h
    cases hut
    exact ⟨hu,hq.symm⟩

end Lists

/-- The place function agrees with the queue, the current task, the freeing lists
and the cleanup calls, and covers exactly the allocated records. -/
structure Placed (s : System TaskLists) (place : TaskRef → Option Place) : Prop where
  waiting_iff : ∀ t, t ∈ s.queue.waiting ↔ place t = some .waiting
  current_iff : ∀ t, s.currentTask = some t ↔ place t = some .current
  freeing_iff : ∀ thread t, t ∈ s.queue.toFree thread ↔ place t = some (.freeing thread)
  finalised_iff : ∀ t, Event.cleanup t ∈ s.events ↔ place t = some .finalised
  fresh_iff : ∀ t, place t = none ↔ s.allocated ≤ t
  waiting_nodup : s.queue.waiting.Nodup
  toFree_nodup : ∀ thread, (s.queue.toFree thread).Nodup
  cleanup_once : ∀ t, s.events.count (.cleanup t) ≤ 1

namespace Placed
variable {s s' : System TaskLists} {place : TaskRef → Option Place} {t : TaskRef}

/-- Some records move to one new place, all others stay. -/
theorem moveAll (h : Placed s place) (p : Place) (moved : TaskRef → Prop) [DecidablePred moved]
    (hw : ∀ u, u ∈ s'.queue.waiting ↔ if moved u then p = .waiting else u ∈ s.queue.waiting)
    (hc : ∀ u, s'.currentTask = some u ↔ if moved u then p = .current else s.currentTask = some u)
    (hf : ∀ thread u, u ∈ s'.queue.toFree thread ↔
      if moved u then p = .freeing thread else u ∈ s.queue.toFree thread)
    (hz : ∀ u, Event.cleanup u ∈ s'.events ↔
      if moved u then p = .finalised else Event.cleanup u ∈ s.events)
    (ha : ∀ u, s'.allocated ≤ u ↔ ¬moved u ∧ s.allocated ≤ u)
    (hwn : s'.queue.waiting.Nodup) (hfn : ∀ thread, (s'.queue.toFree thread).Nodup)
    (ho : ∀ u, s'.events.count (.cleanup u) ≤ 1) :
    Placed s' (fun u => if moved u then some p else place u) := by
  refine ⟨?_,?_,?_,?_,?_,hwn,hfn,ho⟩
  · intro u
    by_cases hu : moved u <;> simp [hw,hu,h.waiting_iff]
  · intro u
    by_cases hu : moved u <;> simp [hc,hu,h.current_iff]
  · intro thread u
    by_cases hu : moved u <;> simp [hf,hu,h.freeing_iff]
  · intro u
    by_cases hu : moved u <;> simp [hz,hu,h.finalised_iff]
  · intro u
    by_cases hu : moved u <;> simp [ha,hu,h.fresh_iff]

/-- One record moves to a new place. -/
theorem move (h : Placed s place) (p : Place)
    (hw : ∀ u, u ∈ s'.queue.waiting ↔ if u = t then p = .waiting else u ∈ s.queue.waiting)
    (hc : ∀ u, s'.currentTask = some u ↔ if u = t then p = .current else s.currentTask = some u)
    (hf : ∀ thread u, u ∈ s'.queue.toFree thread ↔
      if u = t then p = .freeing thread else u ∈ s.queue.toFree thread)
    (hz : ∀ u, Event.cleanup u ∈ s'.events ↔
      if u = t then p = .finalised else Event.cleanup u ∈ s.events)
    (ha : ∀ u, s'.allocated ≤ u ↔ u ≠ t ∧ s.allocated ≤ u)
    (hwn : s'.queue.waiting.Nodup) (hfn : ∀ thread, (s'.queue.toFree thread).Nodup)
    (ho : ∀ u, s'.events.count (.cleanup u) ≤ 1) :
    Placed s' (Function.update place t (some p)) := by
  have he : Function.update place t (some p) = fun u => if u = t then some p else place u := by
    funext u
    rw [Function.update_apply]
  rw [he]
  exact h.moveAll p (· = t) hw hc hf hz ha hwn hfn ho

/-- A step that touches neither queue, current task, cleanup calls nor allocation. -/
theorem congr (h : Placed s place) (hq : s'.queue = s.queue)
    (hc : s'.currentTask = s.currentTask) (ha : s'.allocated = s.allocated)
    (he : ∃ new, s'.events = new ++ s.events ∧ ∀ t, Event.cleanup t ∉ new) : Placed s' place := by
  obtain ⟨new,he,hnew⟩ := he
  refine ⟨?_,?_,?_,?_,?_,?_,?_,?_⟩
  · rw [hq]; exact h.waiting_iff
  · rw [hc]; exact h.current_iff
  · rw [hq]; exact h.freeing_iff
  · intro t
    rw [he,List.mem_append,← h.finalised_iff t]
    simp [hnew t]
  · rw [ha]; exact h.fresh_iff
  · rw [hq]; exact h.waiting_nodup
  · rw [hq]; exact h.toFree_nodup
  · intro t
    rw [he,List.count_append,List.count_eq_zero.mpr (hnew t),Nat.zero_add]
    exact h.cleanup_once t

theorem waiting_lt (h : Placed s place) (ht : t ∈ s.queue.waiting) : t < s.allocated := by
  have hp := (h.waiting_iff t).mp ht
  by_contra hle
  rw [(h.fresh_iff t).mpr (Nat.le_of_not_lt hle)] at hp
  cases hp

theorem current_lt (h : Placed s place) (ht : s.currentTask = some t) : t < s.allocated := by
  have hp := (h.current_iff t).mp ht
  by_contra hle
  rw [(h.fresh_iff t).mpr (Nat.le_of_not_lt hle)] at hp
  cases hp

theorem freeing_lt (h : Placed s place) {thread : ThreadId} (ht : t ∈ s.queue.toFree thread) :
    t < s.allocated := by
  have hp := (h.freeing_iff thread t).mp ht
  by_contra hle
  rw [(h.fresh_iff t).mpr (Nat.le_of_not_lt hle)] at hp
  cases hp

theorem finalised_lt (h : Placed s place) (ht : Event.cleanup t ∈ s.events) : t < s.allocated := by
  by_contra hge
  have hn := (h.fresh_iff t).mpr (Nat.le_of_not_lt hge)
  rw [(h.finalised_iff t).mp ht] at hn
  cases hn

theorem current_not_waiting (h : Placed s place) (ht : s.currentTask = some t) :
    t ∉ s.queue.waiting := by
  intro hw
  have hp := (h.current_iff t).mp ht
  rw [(h.waiting_iff t).mp hw] at hp
  cases hp

theorem waiting_not_freeing (h : Placed s place) (ht : t ∈ s.queue.waiting) (thread : ThreadId) :
    t ∉ s.queue.toFree thread := by
  intro hf
  have hp := (h.freeing_iff thread t).mp hf
  rw [(h.waiting_iff t).mp ht] at hp
  cases hp

theorem freeing_unique (h : Placed s place) {thread thread' : ThreadId}
    (ht : t ∈ s.queue.toFree thread) (ht' : t ∈ s.queue.toFree thread') : thread = thread' := by
  have hp := (h.freeing_iff thread t).mp ht
  rw [(h.freeing_iff thread' t).mp ht'] at hp
  cases hp
  rfl

theorem current_not_freeing (h : Placed s place) (ht : s.currentTask = some t)
    (thread : ThreadId) : t ∉ s.queue.toFree thread := by
  intro hf
  have hp := (h.freeing_iff thread t).mp hf
  rw [(h.current_iff t).mp ht] at hp
  cases hp

theorem finalised_not_waiting (h : Placed s place) (ht : Event.cleanup t ∈ s.events) :
    t ∉ s.queue.waiting := by
  intro hw
  have hp := (h.waiting_iff t).mp hw
  rw [(h.finalised_iff t).mp ht] at hp
  cases hp

theorem finalised_not_current (h : Placed s place) (ht : Event.cleanup t ∈ s.events) :
    s.currentTask ≠ some t := by
  intro hc
  have hp := (h.current_iff t).mp hc
  rw [(h.finalised_iff t).mp ht] at hp
  cases hp

theorem finalised_not_freeing (h : Placed s place) (ht : Event.cleanup t ∈ s.events)
    (thread : ThreadId) : t ∉ s.queue.toFree thread := by
  intro hf
  have hp := (h.freeing_iff thread t).mp hf
  rw [(h.finalised_iff t).mp ht] at hp
  cases hp

/-- The queue fits into as many loop turns as there are records. -/
theorem waiting_length_le (h : Placed s place) : s.queue.waiting.length ≤ s.allocated :=
  length_le_of_nodup_lt h.waiting_nodup (fun _ ht => h.waiting_lt ht)

theorem toFree_length_le (h : Placed s place) (thread : ThreadId) :
    (s.queue.toFree thread).length ≤ s.allocated :=
  length_le_of_nodup_lt (h.toFree_nodup thread) (fun _ ht => h.freeing_lt ht)

end Placed

theorem placed_init (config : Option SchedulerConfig) (hasCleanup : Bool) :
    Placed (schedulerInit TaskLists config hasCleanup) (fun _ => none) := by
  refine ⟨?_,?_,?_,?_,?_,?_,?_,?_⟩
  all_goals simp [schedulerInit,TaskQueue.empty]

variable {s s' : System TaskLists} {place : TaskRef → Option Place}

theorem submit_placed (h : Placed s place) (task : Task) :
    Placed (schedulerSubmitTask s task)
      (Function.update place s.allocated (some .waiting)) := by
  have hnone : place s.allocated = none := (h.fresh_iff _).mpr le_rfl
  have hnw : s.allocated ∉ s.queue.waiting := fun hm => (h.waiting_lt hm).ne rfl
  have hnc : s.currentTask ≠ some s.allocated := fun hm => (h.current_lt hm).ne rfl
  have hnf : ∀ thread, s.allocated ∉ s.queue.toFree thread :=
    fun thread hm => (h.freeing_lt hm).ne rfl
  have hnz : Event.cleanup s.allocated ∉ s.events := by
    rw [h.finalised_iff,hnone]; simp
  obtain ⟨new,he,hn⟩ := schedulerSubmitTask_events s task
  have hnew : ∀ t, Event.cleanup t ∉ new := by
    intro t ht
    rcases hn _ ht with h | ⟨u,h⟩ <;> cases h
  apply h.move .waiting
  · intro u
    by_cases hu : u = s.allocated <;> simp [hu]
  · intro u
    by_cases hu : u = s.allocated
    · simp [hu,hnc]
    · simp [hu]
  · intro thread u
    by_cases hu : u = s.allocated
    · simp [hu,hnf thread]
    · simp [hu]
  · intro u
    by_cases hu : u = s.allocated
    · simp [he,hu,hnz,hnew]
    · simp [he,hu,hnew]
  · intro u; simp; omega
  · simpa using h.waiting_nodup.concat hnw
  · intro thread; simpa using h.toFree_nodup thread
  · intro u
    rw [he,List.count_append,List.count_eq_zero.mpr (hnew u),Nat.zero_add]
    exact h.cleanup_once u

theorem cancel_placed (h : Placed s place) (thread : ThreadId) (client : ℤ)
    (hfree : s.queue.toFree thread = []) :
    Placed (schedulerCancelClientTasks s thread client)
      (fun t => if t ∈ s.queue.waiting ∧ ownedBy s.tasks client t = true then
        some (.freeing thread) else place t) := by
  apply h.moveAll (.freeing thread)
  · intro u
    simp only [schedulerCancelClientTasks,cancelCurrent_frame,unlinkClient_lists,List.mem_filter]
    by_cases ho : ownedBy s.tasks client u = true <;> by_cases hw : u ∈ s.queue.waiting <;>
      simp [ho,hw]
  · intro u
    simp only [schedulerCancelClientTasks,cancelCurrent_frame]
    split
    · rename_i hw
      simpa using fun hc => h.current_not_waiting hc hw.1
    · rfl
  · intro th u
    simp only [schedulerCancelClientTasks,cancelCurrent_frame,unlinkClient_lists]
    by_cases hth : th = thread
    · subst hth
      rw [Function.update_self,List.mem_reverse,List.mem_filter,hfree]
      split
      · rename_i hw; simp [hw]
      · rename_i hw; simp [hw]
    · rw [Function.update_of_ne hth]
      split
      · rename_i hw
        simpa [Ne.symm hth] using h.waiting_not_freeing hw.1 th
      · rfl
  · intro u
    have hdone : Event.cleanup u ∈ (schedulerCancelClientTasks s thread client).events ↔
        Event.cleanup u ∈ s.events := by
      simp [schedulerCancelClientTasks]
    rw [hdone]
    split
    · rename_i hw
      simp [h.finalised_iff,(h.waiting_iff u).mp hw.1]
    · rfl
  · intro u
    simp only [schedulerCancelClientTasks,cancelCurrent_frame]
    exact ⟨fun hle => ⟨fun hw => absurd (h.waiting_lt hw.1) (Nat.not_lt.mpr hle),hle⟩,And.right⟩
  · simpa [schedulerCancelClientTasks] using h.waiting_nodup.filter _
  · intro th
    simp only [schedulerCancelClientTasks,cancelCurrent_frame,unlinkClient_lists]
    by_cases hth : th = thread
    · subst hth
      rw [Function.update_self]
      exact List.nodup_reverse.mpr (h.waiting_nodup.filter _)
    · rw [Function.update_of_ne hth]
      exact h.toFree_nodup th
  · intro u
    have hz : List.count (Event.cleanup u)
        (((s.queue.waiting.filter (ownedBy s.tasks client)).map Event.unlinked).reverse) = 0 :=
      List.count_eq_zero.mpr (by simp)
    simp only [schedulerCancelClientTasks,cancelCurrent_frame,unlinkClient_lists,
      List.count_append,hz,Nat.zero_add]
    exact h.cleanup_once u

theorem free_placed (h : Placed s place) {thread : ThreadId} (he : freeNext s thread = some s') :
    ∃ c, Placed s' (Function.update place c (some .finalised)) := by
  obtain ⟨c,hhead,hq,hev,ha,hc,_⟩ := freeNext_eq he
  obtain ⟨rest,hrest⟩ := List.head?_eq_some_iff.mp
    (show (s.queue.toFree thread).head? = some c from hhead)
  have hnd := h.toFree_nodup thread
  rw [hrest,List.nodup_cons] at hnd
  have hp : place c = some (.freeing thread) :=
    (h.freeing_iff thread c).mp (hrest ▸ List.mem_cons_self)
  have hz : Event.cleanup c ∉ s.events := by
    rw [h.finalised_iff,hp]; simp
  refine ⟨c,h.move .finalised ?_ ?_ ?_ ?_ ?_ ?_ ?_ ?_⟩
  · intro u
    rw [hq]
    by_cases hu : u = c
    · simp [hu,h.waiting_iff,hp]
    · simp [hu]
  · intro u
    rw [hc]
    by_cases hu : u = c
    · simp [hu,h.current_iff,hp]
    · simp [hu]
  · intro th u
    rw [hq,popFree_lists]
    by_cases hth : th = thread
    · subst hth
      by_cases hu : u = c
      · simp [hu,hrest,hnd.1]
      · simp [hu,hrest]
    · simp only [Function.update_of_ne hth]
      by_cases hu : u = c
      · simp [hu,h.freeing_iff,hp,Ne.symm hth]
      · simp [hu]
  · intro u
    by_cases hu : u = c <;> simp [hev,hu]
  · intro u
    rw [ha]
    by_cases hu : u = c
    · simpa [hu] using h.freeing_lt (hrest ▸ List.mem_cons_self : c ∈ s.queue.toFree thread)
    · simp [hu]
  · rw [hq]; exact h.waiting_nodup
  · intro th
    rw [hq,popFree_lists]
    by_cases hth : th = thread
    · subst hth; simpa [hrest] using hnd.2
    · simpa [Function.update_of_ne hth] using h.toFree_nodup th
  · intro u
    rw [hev,List.count_cons]
    by_cases hu : u = c
    · subst hu; simp [List.count_eq_zero.mpr hz]
    · simpa [Ne.symm hu] using h.cleanup_once u

theorem dispatch_placed (h : Placed s place) (hc : s.currentTask = none) {t : TaskRef}
    (ht : t ∈ s.queue.waiting) (n : ℕ) :
    Placed (dispatchTask { s with
        queuedSignalCount := n
        queue := { s.queue with waiting := s.queue.waiting.erase t } } t)
      (Function.update place t (some .current)) := by
  have hp := (h.waiting_iff t).mp ht
  refine h.move .current ?_ ?_ ?_ ?_ ?_ ?_ ?_ ?_
  · intro u
    simp only [dispatchTask_frame,h.waiting_nodup.mem_erase_iff]
    by_cases hu : u = t <;> simp [hu]
  · intro u
    by_cases hu : u = t
    · simp [hu]
    · simp [hu,hc,Ne.symm hu]
  · intro th u
    by_cases hu : u = t
    · simp [hu,h.freeing_iff,hp]
    · simp [hu]
  · intro u
    by_cases hu : u = t
    · simp [hu,h.finalised_iff,hp]
    · simp [hu]
  · intro u
    by_cases hu : u = t
    · simpa [hu] using h.waiting_lt ht
    · simp [hu]
  · exact h.waiting_nodup.erase t
  · exact h.toFree_nodup
  · intro u
    simpa using h.cleanup_once u

theorem requeue_placed (h : Placed s place) {t : TaskRef} (hc : s.currentTask = some t)
    (quantum : ℤ) :
    Placed (requeueTask { s with currentTask := none, main := .top } t quantum)
      (Function.update place t (some .waiting)) := by
  have hp := (h.current_iff t).mp hc
  refine h.move .waiting ?_ ?_ ?_ ?_ ?_ ?_ ?_ ?_
  · intro u
    by_cases hu : u = t <;> simp [hu]
  · intro u
    by_cases hu : u = t
    · simp [hu]
    · simp [hu,hc,Ne.symm hu]
  · intro th u
    by_cases hu : u = t
    · simp [hu,h.freeing_iff,hp]
    · simp [hu]
  · intro u
    by_cases hu : u = t
    · simp [hu,h.finalised_iff,hp]
    · simp [hu]
  · intro u
    by_cases hu : u = t
    · simpa [hu] using h.current_lt hc
    · simp [hu]
  · simpa using h.waiting_nodup.concat (h.current_not_waiting hc)
  · exact h.toFree_nodup
  · intro u
    simpa using h.cleanup_once u

theorem finalize_placed (h : Placed s place) {t : TaskRef} (hc : s.currentTask = some t)
    (state : TaskState) (event : LogEvent) :
    Placed (finalizeTask { s with currentTask := none, main := .top } t state event)
      (Function.update place t (some .finalised)) := by
  have hp := (h.current_iff t).mp hc
  have hz : Event.cleanup t ∉ s.events := by
    rw [h.finalised_iff,hp]; simp
  refine h.move .finalised ?_ ?_ ?_ ?_ ?_ ?_ ?_ ?_
  · intro u
    by_cases hu : u = t
    · simp [hu,h.waiting_iff,hp]
    · simp [hu]
  · intro u
    by_cases hu : u = t
    · simp [hu]
    · simp [hu,hc,Ne.symm hu]
  · intro th u
    by_cases hu : u = t
    · simp [hu,h.freeing_iff,hp]
    · simp [hu]
  · intro u
    by_cases hu : u = t <;> simp [hu]
  · intro u
    by_cases hu : u = t
    · simpa [hu] using h.current_lt hc
    · simp [hu]
  · exact h.waiting_nodup
  · exact h.toFree_nodup
  · intro u
    by_cases hu : u = t
    · subst hu; simp [List.count_eq_zero.mpr hz]
    · simpa [List.count_cons,Ne.symm hu] using h.cleanup_once u

/-- Every step keeps every accepted task in exactly one place. -/
theorem step_placed {a : Action} (h : Placed s place) (hm : s.main.task = s.currentTask)
    (he : step s a = some s') : ∃ place', Placed s' place' := by
  cases step_stepped he with
  | submit request => exact ⟨_,submit_placed h _⟩
  | @cancel thread client hf =>
    exact ⟨_,cancel_placed h thread client (by simpa using hf)⟩
  | free he =>
    obtain ⟨c,hc⟩ := free_placed h he
    exact ⟨_,hc⟩
  | quiet hq =>
    exact ⟨_,h.congr hq.queue_eq hq.currentTask hq.allocated ⟨[],hq.events,by simp⟩⟩
  | dispatch hn hd =>
    obtain ⟨hnext,rfl⟩ := dequeue_some hd
    exact ⟨_,dispatch_placed h (hm ▸ hn) (nextTask_mem hnext) _⟩
  | setBurst => exact ⟨_,h.congr rfl rfl rfl ⟨[],rfl,by simp⟩⟩
  | @requeue t quantum r hmain hr =>
    exact ⟨_,requeue_placed h (by rw [← hm,hmain]; rfl) quantum⟩
  | @finalize t quantum r state event hmain =>
    exact ⟨_,finalize_placed h (by rw [← hm,hmain]; rfl) state event⟩

end UnixShell.Scheduler
