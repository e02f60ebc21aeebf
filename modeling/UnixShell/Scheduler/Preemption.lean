import UnixShell.Scheduler.Dispatch

/-! # Shell priority and pending preemption

While a shell task waits, a running program is flagged and no program is dispatched.
A program that was overtaken by a shorter one stays flagged to the end of its round,
and is then not the next one unless nothing else waits.
-/
namespace UnixShell.Scheduler
open Foundation TaskQueue

section Flag
variable {Q : Type} [TaskQueue Q] {s s' : System Q} {t : TaskRef}

/-- The flag is taken back only where the round of its task ends or begins. -/
theorem step_preemptRequested {x : Action} (he : step s x = some s') (ht : t < s.allocated)
    (hf : (s.tasks t).preemptRequested = true) :
    (s'.tasks t).preemptRequested = true ∨ x = .finish ∨
      s.main.task = none ∧ s'.currentTask = some t := by
  cases step_stepped he with
  | submit request =>
    rw [schedulerSubmitTask_tasks,Function.update_of_ne ht.ne]
    dsimp only
    split
    · exact Or.inl rfl
    · exact Or.inl hf
  | cancel =>
    simp only [schedulerCancelClientTasks,cancelCurrent_tasks]
    split
    · exact Or.inl rfl
    · exact Or.inl hf
  | free he =>
    obtain ⟨c,_,_,_,_,_,_,_,_,_,_,_,_,htasks⟩ := freeNext_eq he
    left
    rw [htasks]
    split
    · refine (field_update Task.preemptRequested ?_).trans hf
      rfl
    · exact hf
  | quiet hq => exact Or.inl (by rwa [hq.tasks])
  | @dispatch c _ hm =>
    by_cases hct : t = c
    · subst hct
      exact Or.inr (Or.inr ⟨hm,rfl⟩)
    · exact Or.inl ((congrArg Task.preemptRequested (Function.update_of_ne hct _ _)).trans hf)
  | setBurst =>
    refine Or.inl ((field_update Task.preemptRequested ?_).trans hf)
    rfl
  | requeue => exact Or.inr (Or.inl rfl)
  | finalize => exact Or.inr (Or.inl rfl)

theorem finish_currentTask (he : step s .finish = some s') : s'.currentTask = none := by
  obtain ⟨c,quantum,r,_,rfl⟩ := step_finish he
  rcases finish_cases s c quantum r with ⟨_,hs⟩ | ⟨_,_,_,hs,_⟩ <;> rw [hs] <;> rfl

/-- What a submission does to a running program that has to give way. -/
theorem submit_preempts {task : Task} (hc : s.currentTask = some t) (ht : t < s.allocated)
    (hty : (s.tasks t).type = .program)
    (h : task.type = .shell ∨ task.type = .program ∧
      (submittedTask s task).remainingBurst < (s.tasks t).remainingBurst) :
    ((schedulerSubmitTask s task).tasks t).preemptRequested = true := by
  have hcur : (queuedTask s task).currentTask = some t := hc
  have hold : (queuedTask s task).tasks t = s.tasks t := Function.update_of_ne ht.ne _ _
  have hp : shouldPreemptCurrentLocked (queuedTask s task) (submittedTask s task) = true := by
    unfold shouldPreemptCurrentLocked
    rw [hcur]
    simp only [hold,hty,ne_eq,not_true_eq_false,if_false,submittedTask_frame]
    rcases h with hs | ⟨hs,hlt⟩
    · rw [if_pos hs]
    · simp [hs,hlt]
  rw [schedulerSubmitTask_tasks,if_pos ⟨hc,hp⟩]

end Flag

variable {s s' : System TaskLists} {t : TaskRef}

/-- A program that runs while a shell task waits is asked to stop. -/
def ShellFlags (s : System TaskLists) : Prop :=
  ∀ t ∈ s.queue.waiting, (s.tasks t).type = .shell → ∀ p, s.currentTask = some p →
    (s.tasks p).type = .program → (s.tasks p).preemptRequested = true

/-- With a shell task in the queue, a shell task is dispatched. -/
theorem nextTask_shell {tasks : TaskRef → Task} {last : ℤ} {waiting : List TaskRef} {u : TaskRef}
    (hu : u ∈ waiting) (hty : (tasks u).type = .shell)
    (h : nextTask tasks last waiting = some t) : (tasks t).type = .shell := by
  unfold nextTask at h
  cases hf : waiting.find? (isShell tasks) with
  | none => exact absurd (type_eq_program hf hu) (by simp [hty])
  | some shell =>
    rw [hf] at h
    obtain rfl : shell = t := Option.some.inj h
    simpa [isShell] using List.find?_some hf

theorem step_shellFlags {x : Action} (h : ShellFlags s) (hi : Invariant s)
    (he : step s x = some s') : ShellFlags s' := by
  obtain ⟨place,hp⟩ := hi.placed
  intro t ht hty p hcur hprog
  rcases step_dispatches he with ⟨_,hc | ⟨_,hc⟩,_⟩ | ⟨rfl,_,u,q,hd,rfl⟩
  · have hcur' : s.currentTask = some p := hc ▸ hcur
    have hplt := hp.current_lt hcur'
    have hprog' : (s.tasks p).type = .program := (step_continues he hplt).type ▸ hprog
    have hfin : x ≠ .finish := by
      rintro rfl
      rw [finish_currentTask he] at hcur
      cases hcur
    by_cases hlt : t < s.allocated
    · -- an old shell task waited before, so the flag was set, and this step keeps it
      rcases step_waiting he hlt with ⟨hw,_⟩ | ⟨hx,_⟩
      · have hty' : (s.tasks t).type = .shell := (step_continues he hlt).type ▸ hty
        have hflag := h t (hw ht) hty' p hcur' hprog'
        rcases step_preemptRequested he hplt hflag with hk | hk | ⟨hm,_⟩
        · exact hk
        · exact (hfin hk).elim
        · rw [hi.counted.main_task,hcur'] at hm
          cases hm
      · exact (hfin hx).elim
    · -- a new one is just being submitted
      have hlt' : t < s'.allocated := by
        obtain ⟨place',hp'⟩ := (step_invariant hi he).placed
        exact hp'.waiting_lt ht
      rcases step_allocated he with ⟨ha,_⟩ | ⟨⟨request,rfl⟩,ha,_⟩
      · exact (hlt (ha ▸ hlt')).elim
      · obtain rfl : t = s.allocated := by
          rw [ha] at hlt'
          exact Nat.le_antisymm (Nat.le_of_lt_succ hlt') (Nat.le_of_not_lt hlt)
        cases he
        rw [submitted_type] at hty
        exact submit_preempts hcur' hplt hprog' (Or.inl hty)
  · rw [hc] at hcur
    cases hcur
  · obtain ⟨hn,rfl⟩ := dequeue_some hd
    obtain rfl : u = p := Option.some.inj hcur
    have htypes : ∀ v < s.allocated, _ := fun v hv => (step_continues he hv).type
    have hw : t ∈ s.queue.waiting := List.mem_of_mem_erase ht
    rw [htypes t (hp.waiting_lt hw)] at hty
    rw [htypes u (hp.waiting_lt (nextTask_mem hn)),nextTask_shell hw hty hn] at hprog
    cases hprog

theorem reachable_shellFlags (h : Reachable s) : ShellFlags s := by
  obtain ⟨config,hasCleanup,h⟩ := h
  have hrun := h.invariant (P := fun s => Invariant s ∧ ShellFlags s)
    (fun s x s' ⟨hi,hf⟩ he => ⟨step_invariant hi he,step_shellFlags hf hi he⟩)
    ⟨invariant_init config hasCleanup,fun t ht => (by cases ht)⟩
  exact hrun.2

/-- The number of dispatches so far. -/
def dispatches (events : List Event) : ℕ := events.countP (fun e => e.dispatched.isSome)

/-- Since a moment after which there was no dispatch, the task has run on, flagged, or
has ended its round, and is still the one selected last. -/
def Overtaken (t : TaskRef) (n : ℕ) (s : System TaskLists) : Prop :=
  n ≤ dispatches s.events ∧ (dispatches s.events = n →
    lastDispatched s.events = some t ∧
    (s.currentTask = some t ∧ (s.tasks t).preemptRequested = true ∨ s.currentTask = none))

theorem step_overtaken {x : Action} {n : ℕ} (h : Overtaken t n s) (hi : Invariant s)
    (he : step s x = some s') : Overtaken t n s' := by
  obtain ⟨place,hp⟩ := hi.placed
  obtain ⟨hle,hsame⟩ := h
  rcases step_dispatches he with ⟨_,hc,new,hev,hn⟩ | ⟨rfl,_,u,q,hd,rfl⟩
  · have hcount : dispatches s'.events = dispatches s.events := by
      rw [hev,dispatches,List.countP_append,
        List.countP_eq_zero.mpr (fun e hm => by simp [hn e hm]),Nat.zero_add]
      rfl
    refine ⟨hle.trans hcount.ge,fun he' => ?_⟩
    obtain ⟨hlast,hcur⟩ := hsame (hcount.symm.trans he')
    refine ⟨by rw [hev,lastDispatched_append hn,hlast],?_⟩
    rcases hc with hc | ⟨_,hc⟩
    · rcases hcur with ⟨hcur,hflag⟩ | hcur
      · rcases step_preemptRequested he (hp.current_lt hcur) hflag with hk | rfl | ⟨hm,_⟩
        · exact Or.inl ⟨hc.trans hcur,hk⟩
        · exact Or.inr (finish_currentTask he)
        · rw [hi.counted.main_task,hcur] at hm
          cases hm
      · exact Or.inr (hc.trans hcur)
    · exact Or.inr hc
  · have hcount : dispatches (dispatchTask
        { s with queuedSignalCount := s.queuedSignalCount - 1, queue := q } u).events =
        dispatches s.events + 1 := by
      simp [dispatches,Event.dispatched]
    exact ⟨by omega,fun he' => absurd he' (by omega)⟩

theorem overtaken_submit (hi : Invariant s) (hm : Remembers s) (hc : s.currentTask = some t)
    (hty : (s.tasks t).type = .program) {task : Task} (hprog : task.type = .program)
    (hb : (submittedTask s task).remainingBurst < (s.tasks t).remainingBurst) :
    Overtaken t (dispatches s.events) (schedulerSubmitTask s task) := by
  obtain ⟨place,hp⟩ := hi.placed
  obtain ⟨new,hev,hn⟩ := schedulerSubmitTask_events s task
  have hnone : ∀ e ∈ new, Event.dispatched e = none := by
    intro e he
    rcases hn e he with rfl | ⟨u,rfl⟩ <;> rfl
  have hcount : dispatches (schedulerSubmitTask s task).events = dispatches s.events := by
    rw [hev,dispatches,List.countP_append,
      List.countP_eq_zero.mpr (fun e he => by simp [hnone e he]),Nat.zero_add]
    rfl
  refine ⟨hcount.ge,fun _ => ⟨?_,Or.inl ⟨by simpa using hc,?_⟩⟩⟩
  · rw [hev,lastDispatched_append hnone]
    exact hm.running t hc
  · exact submit_preempts hc (hp.current_lt hc) hty (Or.inr ⟨hprog,hb⟩)

/-- The guarantees of preemption, for any executor. -/
structure ShellPriority (s : System TaskLinks) : Prop where
  flagged : ∀ t ∈ waitingRecords s.allocated s.queue, (s.tasks t).type = .shell →
    ∀ p, s.currentTask = some p → (s.tasks p).type = .program →
      (s.tasks p).preemptRequested = true
  served : ∀ s' t quantum, step s .enter = some s' → s'.main = .executing t quantum →
    (∃ u ∈ waitingRecords s.allocated s.queue, (s.tasks u).type = .shell) →
    (s.tasks t).type = .shell
  /-- In every state `u` after a shorter program was accepted, up to the next dispatch. -/
  overtaken : ∀ t request s', s.currentTask = some t → (s.tasks t).type = .program →
    request.type = .program →
    (submittedTask s (schedulerCreateTask request)).remainingBurst < (s.tasks t).remainingBurst →
    step s (.submit request) = some s' →
    ∀ u, Reaches (Fires step) s' u → dispatches u.events = dispatches s.events →
      (u.currentTask = some t ∧ (u.tasks t).preemptRequested = true ∨ u.currentTask = none) ∧
      ∀ u' quantum, step u .enter = some u' → u'.main = .executing t quantum →
        waitingRecords u.allocated u.queue = [t]

theorem shellPriority {s : System TaskLinks} (h : Reachable s) : ShellPriority s := by
  obtain ⟨a,ha,hr⟩ := reachable_refines h
  have hi := hr.invariant
  have hw := hr.waitingRecords
  refine ⟨?_,?_,?_⟩
  · rw [hw,hr.core]
    exact reachable_shellFlags ha
  · rintro s' t quantum he hmain ⟨u,hu,hsu⟩
    rw [hw] at hu
    rw [hr.core] at hsu ⊢
    exact nextTask_shell hu hsu (hr.dispatched he hmain)
  · intro t request s' hcur hty hreq hb he u hu hcount
    obtain ⟨b,hab,hrb⟩ := step_refines hr he
    obtain ⟨as,hrun⟩ := hu
    obtain ⟨v,hv,hrv⟩ := runs_refines hrb hrun
    rw [submittedTask_agree hr.core,hr.core] at hb
    rw [hr.core] at hcur hty hcount
    obtain ⟨place,hp⟩ := hi.placed
    have hav : Reaches (Fires step) a v := ((Reaches.refl a).tail hab).trans ⟨as,hv⟩
    have hstart : Overtaken t (dispatches a.events) b := by
      cases hab
      exact overtaken_submit hi (reachable_remembers ha) hcur hty hreq hb
    obtain ⟨hiv,ho⟩ := hv.invariant
      (P := fun v => Invariant v ∧ Overtaken t (dispatches a.events) v)
      (fun v x w ⟨hiv,ho⟩ hvw => ⟨step_invariant hiv hvw,step_overtaken ho hiv hvw⟩)
      ⟨step_invariant hi hab,hstart⟩
    rw [hrv.core] at hcount
    obtain ⟨hlast,hcur'⟩ := ho.2 hcount
    refine ⟨by rw [hrv.core]; exact hcur',fun u' quantum he' hmain => ?_⟩
    have hn := hrv.dispatched he' hmain
    rw [((reachable_remembers (ha.trans hav)).latest t hlast).2] at hn
    rw [hrv.waitingRecords]
    refine nextTask_alone hiv ?_ hn
    rw [(reaches_continues hav (hp.current_lt hcur)).1.type]
    exact hty

end UnixShell.Scheduler
