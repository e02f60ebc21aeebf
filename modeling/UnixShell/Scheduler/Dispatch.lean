import UnixShell.Scheduler.Effects
import UnixShell.Scheduler.Refinement

/-! # Which task is dispatched

The scan of the links picks what the policy names: the shell task that came first,
else the least program that was not selected last, else the only task there is.
That the first shell task in the queue came first is a fact about runs: shell tasks
are never sent back to the queue, as long as their burst is left alone.
-/
namespace UnixShell.Scheduler
open Foundation TaskQueue

/-- What `server_task_executor` keeps to: the burst of a shell task is not changed. -/
def KeepsShellBurst (s : Core) : Action → Prop
  | .setBurst remaining => ∀ t ∈ s.main.task,
      (s.tasks t).type = .shell → remaining = (s.tasks t).remainingBurst
  | _ => True

instance (s : Core) : DecidablePred (KeepsShellBurst s)
  | .setBurst _ => inferInstanceAs (Decidable (∀ t ∈ s.main.task, _ → _))
  | .submit _ | .cancel _ _ | .free _ | .requestStop | .enter | .result _ | .finish =>
    inferInstanceAs (Decidable True)

/-- The task of the latest dispatch. -/
def lastDispatched (events : List Event) : Option TaskRef := events.findSome? Event.dispatched

/-- The selected id is that of the latest dispatch, and only its task can be running. -/
structure Remembers {Q : Type} (s : System Q) : Prop where
  initial : lastDispatched s.events = none → s.lastSelectedTaskId = -1
  latest : ∀ t, lastDispatched s.events = some t →
    t < s.allocated ∧ s.lastSelectedTaskId = (s.tasks t).taskId
  running : ∀ t, s.currentTask = some t → lastDispatched s.events = some t

/-- Shell tasks have the burst that submission gives them, and wait in the order of
their arrival. -/
structure ShellOrder (s : System TaskLists) : Prop where
  burst : ∀ t < s.allocated, (s.tasks t).type = .shell → (s.tasks t).remainingBurst = -1
  sorted : (s.queue.waiting.filter (isShell s.tasks)).Pairwise (· < ·)

variable {s s' : System TaskLists}

theorem lastDispatched_append {new events : List Event}
    (h : ∀ e ∈ new, Event.dispatched e = none) :
    lastDispatched (new ++ events) = lastDispatched events := by
  rw [lastDispatched,List.findSome?_append,List.findSome?_eq_none_iff.mpr h,Option.none_or]
  rfl

theorem filter_isShell_eq {tasks tasks' : TaskRef → Task} {xs : List TaskRef}
    (h : ∀ t ∈ xs, (tasks' t).type = (tasks t).type) :
    xs.filter (isShell tasks') = xs.filter (isShell tasks) :=
  List.filter_congr (fun t ht => by simp [isShell,h t ht])

/-- Nothing new waits: the shell tasks that are left keep their order. -/
theorem ShellOrder.sublist (h : ShellOrder s) (hi : Invariant s) {x : Action}
    (he : step s x = some s') (hw : s'.queue.waiting.Sublist s.queue.waiting) :
    (s'.queue.waiting.filter (isShell s'.tasks)).Pairwise (· < ·) := by
  obtain ⟨place,hp⟩ := hi.placed
  rw [filter_isShell_eq (fun t ht => (step_continues he (hp.waiting_lt (hw.subset ht))).type)]
  exact h.sorted.sublist (hw.filter _)

theorem submitted_type {Q : Type} [TaskQueue Q] {s : System Q} {task : Task} :
    ((schedulerSubmitTask s task).tasks s.allocated).type = task.type := by
  rw [(submitted_continues task).type]
  simp

theorem submitted_burst {Q : Type} [TaskQueue Q] {s : System Q} {task : Task}
    (h : task.type = .shell) :
    ((schedulerSubmitTask s task).tasks s.allocated).remainingBurst = -1 := by
  have hb : (submittedTask s task).remainingBurst = -1 := by
    unfold submittedTask
    dsimp only
    rw [if_pos h]
  rw [schedulerSubmitTask_tasks,Function.update_self]
  dsimp only
  split <;> exact hb

theorem step_shellBurst {x : Action} (h : ShellOrder s) (hok : KeepsShellBurst s.toCore x)
    (he : step s x = some s') {t : TaskRef} (ht : t < s'.allocated)
    (hty : (s'.tasks t).type = .shell) : (s'.tasks t).remainingBurst = -1 := by
  by_cases hold : t < s.allocated
  · have hty' : (s.tasks t).type = .shell := (step_continues he hold).type ▸ hty
    rcases step_remainingBurst he hold with hb | ⟨r,quantum,rfl,hm,hb⟩
    · rw [hb,h.burst t hold hty']
    · rw [hb,hok t (by rw [hm]; rfl) hty',h.burst t hold hty']
  · rcases step_allocated he with ⟨ha,_⟩ | ⟨⟨request,rfl⟩,ha,_⟩
    · exact (hold (ha ▸ ht)).elim
    · obtain rfl : t = s.allocated := by
        rw [ha] at ht
        exact Nat.le_antisymm (Nat.le_of_lt_succ ht) (Nat.le_of_not_lt hold)
      cases he
      rw [submitted_type] at hty
      exact submitted_burst hty

theorem step_shellOrder {x : Action} (h : ShellOrder s) (hi : Invariant s)
    (hok : KeepsShellBurst s.toCore x) (he : step s x = some s') : ShellOrder s' := by
  refine ⟨fun t ht hty => step_shellBurst h hok he ht hty,?_⟩
  obtain ⟨place,hp⟩ := hi.placed
  cases step_stepped he with
  | submit request =>
    have hold : s.queue.waiting.filter
          (isShell (schedulerSubmitTask s (schedulerCreateTask request)).tasks) =
        s.queue.waiting.filter (isShell s.tasks) :=
      filter_isShell_eq (fun t ht => (step_continues he (hp.waiting_lt ht)).type)
    rw [(schedulerSubmitTask_frame s _).2.2.2.2.2.2.2.2.2,enqueue_lists,List.filter_append,hold,
      List.pairwise_append]
    refine ⟨h.sorted,(List.pairwise_singleton _ _).filter _,?_⟩
    intro t ht u hu
    obtain rfl := List.mem_singleton.mp (List.mem_of_mem_filter hu)
    exact hp.waiting_lt (List.mem_of_mem_filter ht)
  | cancel =>
    refine h.sublist hi he ?_
    simp only [schedulerCancelClientTasks,cancelCurrent_frame,unlinkClient_lists]
    exact List.filter_sublist
  | free hf =>
    obtain ⟨c,_,hq,_⟩ := freeNext_eq hf
    exact h.sublist hi he (by rw [hq]; exact List.Sublist.refl _)
  | quiet hq => exact h.sublist hi he (by rw [hq.queue_eq])
  | dispatch _ hd =>
    obtain ⟨_,rfl⟩ := dequeue_some hd
    exact h.sublist hi he List.erase_sublist
  | setBurst => exact h.sublist hi he (List.Sublist.refl _)
  | @requeue c quantum r hm hr =>
    -- only a positive burst goes back, so the task is not a shell task
    have hlt : c < s.allocated := hp.current_lt (by rw [← hi.counted.main_task,hm]; rfl)
    have hprog : isShell s.tasks c = false := by
      by_contra hs
      have hb := h.burst c hlt (by simpa [isShell] using hs)
      have hpos := hr.2.2
      omega
    have hold : (s.queue.waiting ++ [c]).filter (isShell
          (requeueTask { s with currentTask := none, main := .top } c quantum).tasks) =
        (s.queue.waiting ++ [c]).filter (isShell s.tasks) := by
      refine filter_isShell_eq (fun t ht => (step_continues he ?_).type)
      rcases List.mem_append.mp ht with ht | ht
      · exact hp.waiting_lt ht
      · exact List.mem_singleton.mp ht ▸ hlt
    rw [(requeueTask_frame _ c quantum).2.2.2.2.2.2.2.2.2.2.1,enqueue_lists,hold,
      List.filter_append]
    simpa [hprog] using h.sorted
  | finalize => exact h.sublist hi he (List.Sublist.refl _)

theorem shellOrder_init (config : Option SchedulerConfig) (hasCleanup : Bool) :
    ShellOrder (schedulerInit TaskLists config hasCleanup) :=
  ⟨fun t ht => absurd ht (Nat.not_lt_zero t),List.Pairwise.nil⟩

theorem reachable_shellOrder (h : ReachableIf KeepsShellBurst s) : ShellOrder s := by
  obtain ⟨config,hasCleanup,h⟩ := h
  have hrun := h.invariant (P := fun s => Invariant s ∧ ShellOrder s)
    (fun s x s' ⟨hi,ho⟩ ⟨hok,he⟩ => ⟨step_invariant hi he,step_shellOrder ho hi hok he⟩)
    ⟨invariant_init config hasCleanup,shellOrder_init config hasCleanup⟩
  exact hrun.2

theorem step_remembers {x : Action} (h : Remembers s) (hi : Invariant s)
    (he : step s x = some s') : Remembers s' := by
  obtain ⟨place,hp⟩ := hi.placed
  rcases step_dispatches he with ⟨hl,hc,new,hev,hn⟩ | ⟨rfl,_,t,q,hd,rfl⟩
  · have hlast : lastDispatched s'.events = lastDispatched s.events := by
      rw [hev,lastDispatched_append hn]
    refine ⟨fun hnone => ?_,fun t ht => ?_,fun t ht => ?_⟩
    · rw [hl]
      exact h.initial (hlast ▸ hnone)
    · obtain ⟨hlt,hid⟩ := h.latest t (hlast ▸ ht)
      exact ⟨hlt.trans_le (allocated_le he),by rw [hl,hid,(step_continues he hlt).taskId]⟩
    · rcases hc with hc | ⟨_,hc⟩
      · rw [hlast]
        exact h.running t (hc ▸ ht)
      · rw [hc] at ht
        cases ht
  · refine ⟨fun hnone => (by cases hnone),fun u hu => ?_,fun u hu => hu⟩
    obtain rfl : t = u := Option.some.inj hu
    obtain ⟨hnext,_⟩ := dequeue_some hd
    exact ⟨hp.waiting_lt (nextTask_mem hnext),by simp⟩

theorem reachable_remembers (h : Reachable s) : Remembers s := by
  obtain ⟨config,hasCleanup,h⟩ := h
  have hrun := h.invariant (P := fun s => Invariant s ∧ Remembers s)
    (fun s x s' ⟨hi,hm⟩ he => ⟨step_invariant hi he,step_remembers hm hi he⟩)
    ⟨invariant_init config hasCleanup,fun _ => rfl,fun t ht => (by cases ht),
      fun t ht => (by cases ht)⟩
  exact hrun.2

/-- The task that the policy names among those that wait. -/
def IsNext (tasks : TaskRef → Task) (last : ℤ) (waiting : List TaskRef) (t : TaskRef) : Prop :=
  (t ∈ waiting ∧ (tasks t).type = .shell ∧ ∀ u ∈ waiting, (tasks u).type = .shell →
      (tasks t).arrivalOrder ≤ (tasks u).arrivalOrder) ∨
  ((∀ u ∈ waiting, (tasks u).type = .program) ∧ t ∈ waiting ∧ (tasks t).taskId ≠ last ∧
    ∀ u ∈ waiting, (tasks u).taskId ≠ last → burstKey tasks t ≤ burstKey tasks u) ∨
  ((∀ u ∈ waiting, (tasks u).type = .program ∧ (tasks u).taskId = last) ∧ waiting = [t])

/-- Without a shell task, the choice is the least program not selected last, or alone. -/
theorem nextTask_program {last : ℤ} {t : TaskRef} (hi : Invariant s)
    (hf : s.queue.waiting.find? (isShell s.tasks) = none)
    (h : nextTask s.tasks last s.queue.waiting = some t) :
    ((s.tasks t).taskId ≠ last ∧ ∀ u ∈ s.queue.waiting, (s.tasks u).taskId ≠ last →
      burstKey s.tasks t ≤ burstKey s.tasks u) ∨
    ((∀ u ∈ s.queue.waiting, (s.tasks u).taskId = last) ∧ s.queue.waiting = [t]) := by
  obtain ⟨place,hp⟩ := hi.placed
  have hmem := nextTask_mem h
  unfold nextTask at h
  rw [hf] at h
  cases harg : (s.queue.waiting.filter (fun t => (s.tasks t).taskId ≠ last)).argmin
      (burstKey s.tasks) with
  | some m =>
    simp only [harg] at h
    obtain rfl : m = t := Option.some.inj h
    refine Or.inl ⟨?_,fun u hu hne => ?_⟩
    · simpa using (List.mem_filter.mp (List.argmin_mem harg)).2
    · exact List.le_of_mem_argmin (List.mem_filter.mpr ⟨hu,by simpa using hne⟩) harg
  | none =>
    simp only [harg] at h
    -- every waiting id is the selected one, and ids differ
    have hall : ∀ u ∈ s.queue.waiting, (s.tasks u).taskId = last := by
      intro u hu
      by_contra hne
      have hnil := List.argmin_eq_none.mp harg
      have hmf : u ∈ s.queue.waiting.filter (fun t => (s.tasks t).taskId ≠ last) :=
        List.mem_filter.mpr ⟨hu,by simpa using hne⟩
      rw [hnil] at hmf
      cases hmf
    refine Or.inr ⟨hall,?_⟩
    obtain ⟨rest,hrest⟩ := List.head?_eq_some_iff.mp h
    cases rest with
    | nil => exact hrest
    | cons u rest =>
      have hu : u ∈ s.queue.waiting := by rw [hrest]; simp
      have htu : t = u := hi.taskId_inj (hp.waiting_lt hmem) (hp.waiting_lt hu)
        ((hall t hmem).trans (hall u hu).symm)
      have hnd := hp.waiting_nodup
      rw [hrest] at hnd
      exact ((List.nodup_cons.mp hnd).1 (by rw [htu]; simp)).elim

/-- The program selected last is picked again only from a queue that holds nothing else. -/
theorem nextTask_alone {t : TaskRef} (hi : Invariant s) (hty : (s.tasks t).type = .program)
    (h : nextTask s.tasks (s.tasks t).taskId s.queue.waiting = some t) :
    s.queue.waiting = [t] := by
  cases hf : s.queue.waiting.find? (isShell s.tasks) with
  | some shell =>
    have hs := List.find?_some hf
    unfold nextTask at h
    rw [hf] at h
    obtain rfl : shell = t := Option.some.inj h
    simp [isShell,hty] at hs
  | none =>
    rcases nextTask_program hi hf h with ⟨hne,_⟩ | ⟨_,hw⟩
    · exact (hne rfl).elim
    · exact hw

theorem nextTask_isNext {last : ℤ} {t : TaskRef} (hi : Invariant s) (ho : ShellOrder s)
    (h : nextTask s.tasks last s.queue.waiting = some t) :
    IsNext s.tasks last s.queue.waiting t := by
  obtain ⟨place,hp⟩ := hi.placed
  have hmem := nextTask_mem h
  cases hf : s.queue.waiting.find? (isShell s.tasks) with
  | some shell =>
    -- the first shell task of the queue is the least one, since they are sorted
    unfold nextTask at h
    rw [hf] at h
    obtain rfl : shell = t := Option.some.inj h
    have hty : (s.tasks shell).type = .shell := by
      simpa [isShell] using List.find?_some hf
    refine Or.inl ⟨hmem,hty,fun u hu hsu => ?_⟩
    have hhead : (s.queue.waiting.filter (isShell s.tasks)).head? = some shell := by
      rw [List.head?_filter,hf]
    obtain ⟨rest,hrest⟩ := List.head?_eq_some_iff.mp hhead
    have huf : u ∈ shell :: rest := hrest ▸ List.mem_filter.mpr ⟨hu,by simp [isShell,hsu]⟩
    have hsorted := ho.sorted
    rw [hrest] at hsorted
    rcases List.mem_cons.mp huf with rfl | hur
    · exact le_rfl
    · have hlt := (List.pairwise_cons.mp hsorted).1 u hur
      exact ((hi.arrivalOrder_lt (hp.waiting_lt hmem) (hp.waiting_lt hu)).mpr hlt).le
  | none =>
    have hprog : ∀ u ∈ s.queue.waiting, (s.tasks u).type = .program :=
      fun u hu => type_eq_program hf hu
    rcases nextTask_program hi hf h with ⟨hne,hle⟩ | ⟨hall,hw⟩
    · exact Or.inr (Or.inl ⟨hprog,hmem,hne,hle⟩)
    · exact Or.inr (Or.inr ⟨fun u hu => ⟨hprog u hu,hall u hu⟩,hw⟩)

/-- What the linked scheduler dispatches is what the list scheduler takes out. -/
theorem Refines.dispatched {c c' : System TaskLinks} {a : System TaskLists} {t : TaskRef}
    {quantum : ℤ} (hr : Refines c a) (he : step c .enter = some c')
    (hmain : c'.main = .executing t quantum) :
    nextTask a.tasks a.lastSelectedTaskId a.queue.waiting = some t := by
  obtain ⟨a',ha,hr'⟩ := step_refines hr he
  rw [hr'.core] at hmain
  obtain ⟨_,_,rfl⟩ := step_enter ha
  rcases enter_cases a with ⟨_,_,hs⟩ | ⟨_,hs⟩ | ⟨_,_,q,_,hs⟩ | ⟨_,_,u,q,hd,hs⟩ <;> rw [hs] at hmain
  · cases hmain
  · cases hmain
  · cases hmain
  · cases hmain
    exact (dequeue_some hd).1

/-- The dispatch policy of the linked queue. The selected id may be any number. -/
structure DispatchPolicy (s : System TaskLinks) : Prop where
  next : waitingRecords s.allocated s.queue ≠ [] → ∀ last, ∃ t l,
    dequeueNextTaskLocked s.allocated s.tasks last s.queue = (some t,l) ∧
    IsNext s.tasks last (waitingRecords s.allocated s.queue) t ∧
    waitingRecords s.allocated l = (waitingRecords s.allocated s.queue).erase t
  /-- A program is dispatched twice in a row only when nothing else waits. -/
  alone : ∀ s' t quantum, step s .enter = some s' → s'.main = .executing t quantum →
    (s.tasks t).type = .program → lastDispatched s.events = some t →
    waitingRecords s.allocated s.queue = [t]

theorem dispatchPolicy {s : System TaskLinks} (h : ReachableIf KeepsShellBurst s) :
    DispatchPolicy s := by
  obtain ⟨l,hl,hr⟩ := reachableIf_refines h
  have hi := hr.invariant
  have ho := reachable_shellOrder hl
  have hm := reachable_remembers hl.reachable
  have hw := hr.waitingRecords
  obtain ⟨place,hp⟩ := hi.placed
  have hlen := hp.waiting_length_le
  constructor
  · intro hne last
    rw [hw] at hne
    have hdeq := hr.queue.dequeue last hp.separated hlen
      (fun t ht u hu => hi.burstKey_inj (hp.waiting_lt ht) (hp.waiting_lt hu))
      (fun t ht u hu => hi.taskId_inj (hp.waiting_lt ht) (hp.waiting_lt hu))
    rw [hw,hr.core]
    rcases hq : dequeue l.allocated l.tasks last l.queue with ⟨found,q'⟩
    rw [hq] at hdeq
    cases found with
    | none => exact (hne (dequeue_none hq).2).elim
    | some t =>
      obtain ⟨hn,rfl⟩ := dequeue_some hq
      refine ⟨t,(dequeue l.allocated l.tasks last s.queue).2,Prod.ext hdeq.1 rfl,
        nextTask_isNext hi ho hn,?_⟩
      exact hdeq.2.waitingRecords (List.erase_sublist.length_le.trans hlen)
  · intro s' t quantum he hmain hty hlast
    have hn := hr.dispatched he hmain
    rw [hr.core] at hty hlast
    rw [(hm.latest t hlast).2] at hn
    rw [hw]
    exact nextTask_alone hi hty hn

/-- Two programs take turns although one of them stays shorter. -/
def takeTurns : List Action :=
  [.submit { type := .program, clientNumber := 1, commandText := none, predictedBurst := 9,
             userData := none },
    .submit { type := .program, clientNumber := 2, commandText := none, predictedBurst := 30,
              userData := none },
    .enter,.setBurst 6,.result .requeue,.finish]

theorem dispatchPolicy_takeTurns :
    ∃ s, exec (guarded (fun s : System TaskLinks => KeepsShellBurst s.toCore) step)
        (schedulerInit TaskLinks none true) takeTurns = some s ∧ DispatchPolicy s := by
  obtain ⟨s,he⟩ := Option.isSome_iff_exists.mp
    (show (exec (guarded (fun s : System TaskLinks => KeepsShellBurst s.toCore) step)
      (schedulerInit TaskLinks none true) takeTurns).isSome = true from rfl)
  exact ⟨s,he,dispatchPolicy ⟨none,true,reaches_of_guarded he⟩⟩

end UnixShell.Scheduler
