import UnixShell.Foundation.Journals
import UnixShell.Scheduler.Conservation

/-! # The log of one task

What the log says of one task is a run of its life cycle: it is enqueued, then dispatched
and sent back round after round, each time with the quantum of that round, until it ends or
is taken out of the queue, and last it is cleaned up. Where the run stands is where the
record is.
-/
namespace UnixShell.Scheduler
open Foundation TaskQueue

def Event.task : Event → TaskRef
  | .log _ t _ => t
  | .unlinked t => t
  | .cleanup t => t

/-- Where a task is in its life, with the rounds after which it was sent back. -/
inductive Stage
  | unborn
  | queued (rounds : ℕ)
  | running (rounds : ℕ)
  | ended (rounds : ℕ)
  | removed (rounds : ℕ)
  | over (rounds : ℕ)
  deriving DecidableEq, Repr

def roundQuantum (config : PolicyConfig) (rounds : ℕ) : ℤ :=
  if rounds = 0 then config.firstRoundQuantum else config.laterRoundQuantum

/-- The next stage, if the entry may stand at this one with this quantum. -/
def lifeStep (config : PolicyConfig) : Stage → Event → Option Stage
  | .unborn, .log .enqueue _ quantum => if quantum = 0 then some (.queued 0) else none
  | .queued n, .log .dispatch _ quantum =>
    if quantum = roundQuantum config n then some (.running n) else none
  | .queued n, .unlinked _ => some (.removed n)
  | .running n, .log .preemptRequest _ quantum => if quantum = 0 then some (.running n) else none
  | .running n, .log .waiting _ quantum =>
    if quantum = roundQuantum config n then some (.queued (n+1)) else none
  | .running n, .log .cancel _ quantum => if quantum = 0 then some (.ended n) else none
  | .running n, .log .finish _ quantum => if quantum = 0 then some (.ended n) else none
  | .running n, .log .fail _ quantum => if quantum = 0 then some (.ended n) else none
  | .ended n, .cleanup _ => some (.over n)
  | .removed n, .cleanup _ => some (.over n)
  | _, _ => none

section Counts

def Event.waits : Event → Bool
  | .log .waiting _ _ => true
  | _ => false

def Event.dispatches : Event → Bool
  | .log .dispatch _ _ => true
  | _ => false

def Event.ends : Event → Bool
  | .log .cancel _ _ | .log .finish _ _ | .log .fail _ _ => true
  | _ => false

/-- The entries about a task that are of some kind. -/
def entries (kind : Event → Bool) (t : TaskRef) (events : List Event) : ℕ :=
  (journal Event.task t events).countP kind

/-- The rounds, counted in the log: one more was begun where the task runs or has ended. -/
def Rounds (es : List Event) (stage : Stage) : Prop :=
  let waits := es.countP Event.waits
  let dispatches := es.countP Event.dispatches
  let ends := es.countP Event.ends
  match stage with
  | .unborn => waits = 0 ∧ dispatches = 0 ∧ ends = 0
  | .queued n | .removed n => waits = n ∧ dispatches = n ∧ ends = 0
  | .running n => waits = n ∧ dispatches = n + 1 ∧ ends = 0
  | .ended n => waits = n ∧ dispatches = n + 1 ∧ ends = 1
  | .over n => waits = n ∧ dispatches = n + ends ∧ ends ≤ 1

theorem lifeStep_rounds {config : PolicyConfig} {es : List Event} {p p' : Stage} {e : Event}
    (h : Rounds es p) (he : lifeStep config p e = some p') : Rounds (e :: es) p' := by
  unfold lifeStep at he
  split at he
  all_goals try split_ifs at he
  all_goals cases he
  all_goals
    simp only [Rounds,List.countP_cons,Event.waits,Event.dispatches,Event.ends] at h ⊢
    grind

theorem replay_rounds {config : PolicyConfig} {es : List Event} {p : Stage}
    (h : replay (lifeStep config) .unborn es = some p) : Rounds es p := by
  have hnone : Rounds [] .unborn := ⟨rfl,rfl,rfl⟩
  exact replay_invariant hnone (fun _ _ _ _ hp he => lifeStep_rounds hp he) h

end Counts

section Stages

def stageAt (rounds : ℕ) : Option Place → Stage
  | none => .unborn
  | some .waiting => .queued rounds
  | some .current => .running rounds
  | some (.freeing _) => .removed rounds
  | some .finalised => .over rounds

def stages (tasks : TaskRef → Task) (place : TaskRef → Option Place) (t : TaskRef) : Stage :=
  stageAt (tasks t).roundsCompleted (place t)

theorem stages_congr {tasks tasks' : TaskRef → Task} {place place' : TaskRef → Option Place}
    {t : TaskRef} (hr : (tasks' t).roundsCompleted = (tasks t).roundsCompleted)
    (hp : place' t = place t) : stages tasks' place' t = stages tasks place t := by
  rw [stages,hr,hp]
  rfl

/-- The task that the scheduler thread has dispatched, and the quantum it did so with. -/
def MainThread.dispatched : MainThread → Option (TaskRef × ℤ)
  | .executing t quantum => some (t,quantum)
  | .returned t quantum _ => some (t,quantum)
  | _ => none

@[simp] theorem MainThread.signal_dispatched (m : MainThread) :
    m.signal.dispatched = m.dispatched := by
  cases m <;> rfl

end Stages

section Quanta
variable {s s' : System TaskLists} {a : Action} {t : TaskRef} {quantum : ℤ}

/-- The quantum in the scheduler thread's hands is the one of the round under way. -/
def Quantified (s : System TaskLists) : Prop :=
  ∀ t quantum, s.main.dispatched = some (t,quantum) →
    t < s.allocated ∧ quantum = roundQuantum s.config (s.tasks t).roundsCompleted

theorem quantified_free (hm : s.main.dispatched = none) : Quantified s := by
  intro t quantum hd
  rw [hm] at hd
  cases hd

/-- A step by which the thread keeps its task, and no round is counted. -/
theorem Quantified.keep (h : Quantified s) (he : step s a = some s') (ha : a ≠ .finish)
    (hm : s'.main.dispatched = s.main.dispatched) : Quantified s' := by
  intro t quantum hd
  obtain ⟨ht,hq⟩ := h t quantum (hm ▸ hd)
  have hle : s.allocated ≤ s'.allocated := by
    rcases step_allocated he with ⟨h,_⟩ | ⟨_,h,_⟩ <;> omega
  rcases step_roundsCompleted he ht with hr | ⟨hf,_⟩
  · exact ⟨ht.trans_le hle,by rw [hq,hr,step_config he]⟩
  · exact (ha hf).elim

theorem step_quantified (hi : Invariant s) (h : Quantified s) (he : step s a = some s') :
    Quantified s' := by
  cases a with
  | submit request =>
    refine h.keep he (by simp) ?_
    cases he
    simp
  | cancel thread client =>
    refine h.keep he (by simp) ?_
    obtain ⟨_,rfl⟩ := step_cancel he
    simp [schedulerCancelClientTasks]
  | free thread =>
    refine h.keep he (by simp) ?_
    obtain ⟨_,_,_,_,_,_,_,_,_,_,_,_,hmain,_⟩ := freeNext_eq he
    rw [hmain]
  | requestStop =>
    refine h.keep he (by simp) ?_
    cases he
    simp [schedulerRequestStop,condSignal]
  | enter =>
    obtain ⟨_,_,rfl⟩ := step_enter he
    rcases enter_cases s with ⟨_,_,hs⟩ | ⟨_,hs⟩ | ⟨_,_,q,_,hs⟩ | ⟨_,_,t,q,hd,hs⟩ <;> rw [hs]
    · exact quantified_free rfl
    · exact quantified_free rfl
    · exact quantified_free rfl
    · obtain ⟨hn,rfl⟩ := dequeue_some hd
      obtain ⟨place,hp⟩ := hi.placed
      intro u quantum hu
      obtain ⟨rfl,rfl⟩ : t = u ∧ _ = quantum := by simpa [MainThread.dispatched] using hu
      exact ⟨hp.waiting_lt (nextTask_mem hn),by
        simp [roundQuantum,quantumFor,dispatchTask,logSchedulerEvent,setTask]⟩
  | setBurst remaining =>
    refine h.keep he (by simp) ?_
    obtain ⟨t,quantum,_,rfl⟩ := step_setBurst he
    rfl
  | result r =>
    refine h.keep he (by simp) ?_
    obtain ⟨t,quantum,hm,rfl⟩ := step_result he
    rw [hm]
    rfl
  | finish =>
    obtain ⟨t,quantum,r,_,rfl⟩ := step_finish he
    rcases finish_cases s t quantum r with ⟨_,hs⟩ | ⟨_,state,event,hs,_⟩ <;> rw [hs]
    · exact quantified_free rfl
    · exact quantified_free rfl

end Quanta

section Journals
variable {s s' : System TaskLists} {a : Action} {place : TaskRef → Option Place} {t : TaskRef}

/-- The log of each task leads to the stage that its place says. -/
structure Journaled (s : System TaskLists) (place : TaskRef → Option Place) : Prop where
  placed : Placed s place
  kept : Kept (lifeStep s.config) Event.task .unborn s.events (stages s.tasks place)

theorem journaled_init (config : Option SchedulerConfig) (hasCleanup : Bool) :
    Journaled (schedulerInit TaskLists config hasCleanup) fun _ => none :=
  ⟨placed_init config hasCleanup,kept_nil⟩

/-- What a submission logs: the new task, and a request to the running one. -/
theorem submit_log (task : Task) :
    (schedulerSubmitTask s task).events = .log .enqueue s.allocated 0 :: s.events ∨
      ∃ c, s.currentTask = some c ∧ (schedulerSubmitTask s task).events =
        .log .preemptRequest c 0 :: .log .enqueue s.allocated 0 :: s.events := by
  rw [schedulerSubmitTask_eq]
  simp only [condSignal]
  unfold requestPreemption
  split
  · exact Or.inl rfl
  · rename_i c hc
    split
    · exact Or.inr ⟨c,hc,rfl⟩
    · exact Or.inl rfl

theorem submittedTask_roundsCompleted (task : Task) :
    (submittedTask s task).roundsCompleted = task.roundsCompleted := by
  unfold submittedTask
  dsimp only
  split
  · rfl
  · split <;> rfl

theorem submit_roundsCompleted (task : Task) (t : TaskRef) :
    ((schedulerSubmitTask s task).tasks t).roundsCompleted =
      (Function.update s.tasks s.allocated (submittedTask s task) t).roundsCompleted := by
  rw [schedulerSubmitTask_tasks]
  dsimp only
  split <;> rfl

theorem submit_journaled (h : Journaled s place) (request : TaskRequest)
    (he : step s (.submit request) = some s') : ∃ place', Journaled s' place' := by
  have hconfig := step_config he
  have hfresh : place s.allocated = none := (h.placed.fresh_iff _).mpr le_rfl
  cases he
  set task := schedulerCreateTask request
  have hplaced := submit_placed h.placed task
  set place' := Function.update place s.allocated (some .waiting) with hplace
  have hnew : stages (schedulerSubmitTask s task).tasks place' s.allocated = .queued 0 := by
    rw [stages,hplace,Function.update_self,submit_roundsCompleted,Function.update_self,
      submittedTask_roundsCompleted]
    rfl
  have hold : ∀ t, t ≠ s.allocated →
      stages (schedulerSubmitTask s task).tasks place' t = stages s.tasks place t := by
    intro t ht
    apply stages_congr
    · rw [submit_roundsCompleted,Function.update_of_ne ht]
    · rw [hplace,Function.update_of_ne ht]
  have hkept : Kept (lifeStep s.config) Event.task .unborn
      (.log .enqueue s.allocated 0 :: s.events)
      (stages (schedulerSubmitTask s task).tasks place') := by
    refine h.kept.cons ?_ hold
    rw [Event.task,stages,hfresh,hnew]
    rfl
  refine ⟨place',hplaced,?_⟩
  rw [hconfig]
  rcases submit_log task with hev | ⟨c,hc,hev⟩ <;> rw [hev]
  · exact hkept
  · refine hkept.cons ?_ fun _ _ => rfl
    have hne : c ≠ s.allocated := (h.placed.current_lt hc).ne
    rw [Event.task,hold c hne,stages,(h.placed.current_iff c).mp hc]
    rfl

theorem cancel_journaled (h : Journaled s place) {thread : ThreadId} {client : ℤ}
    (he : step s (.cancel thread client) = some s') : ∃ place', Journaled s' place' := by
  have hconfig := step_config he
  obtain ⟨hf,rfl⟩ := step_cancel he
  have hplaced := cancel_placed h.placed thread client (by simpa using hf)
  set place' := fun t => if t ∈ s.queue.waiting ∧ ownedBy s.tasks client t = true then
    some (Place.freeing thread) else place t with hplace
  have hrounds : ∀ t, ((schedulerCancelClientTasks s thread client).tasks t).roundsCompleted =
      (s.tasks t).roundsCompleted := by
    intro t
    simp only [schedulerCancelClientTasks,cancelCurrent_tasks]
    split <;> rfl
  set removed := s.queue.waiting.filter (ownedBy s.tasks client) with hremoved
  have hkeys : (removed.map Event.unlinked).reverse.map Event.task = removed.reverse := by
    rw [List.map_reverse,List.map_map]
    exact congrArg List.reverse (List.map_id removed)
  have hmem : ∀ t, t ∈ removed ↔ t ∈ s.queue.waiting ∧ ownedBy s.tasks client t = true :=
    fun t => List.mem_filter
  have hev : (schedulerCancelClientTasks s thread client).events =
      (removed.map Event.unlinked).reverse ++ s.events := by
    simp [schedulerCancelClientTasks,hremoved]
  refine ⟨place',hplaced,?_⟩
  rw [hconfig,hev]
  refine h.kept.append ?_ ?_ ?_
  · rw [hkeys]
    exact List.nodup_reverse.mpr (h.placed.waiting_nodup.filter _)
  · intro e hm
    obtain ⟨t,ht,rfl⟩ := List.mem_map.mp (List.mem_reverse.mp hm)
    have hwait := (h.placed.waiting_iff t).mp ((hmem t).mp ht).1
    rw [Event.task,stages,stages,hwait,hrounds,hplace]
    simp only [if_pos ((hmem t).mp ht)]
    rfl
  · intro t ht
    rw [hkeys,List.mem_reverse,hmem] at ht
    exact stages_congr (hrounds t) (if_neg ht)

theorem free_journaled (h : Journaled s place) {thread : ThreadId}
    (he : step s (.free thread) = some s') : ∃ place', Journaled s' place' := by
  have hconfig := step_config he
  obtain ⟨c,hplaced⟩ := free_placed h.placed he
  obtain ⟨t,hhead,_,hev,ha,_⟩ := freeNext_eq he
  have hmem : t ∈ s.queue.toFree thread := List.mem_of_head? hhead
  have hfreeing := (h.placed.freeing_iff thread t).mp hmem
  -- the record that is cleaned up is the one that moves
  obtain rfl : t = c := by
    have hover := (hplaced.finalised_iff t).mp (by rw [hev]; exact List.mem_cons_self)
    by_contra hne
    rw [Function.update_of_ne hne,hfreeing] at hover
    cases hover
  have hrounds : ∀ u < s.allocated, (s'.tasks u).roundsCompleted = (s.tasks u).roundsCompleted := by
    intro u hu
    rcases step_roundsCompleted he hu with hr | ⟨hf,_⟩
    · exact hr
    · cases hf
  refine ⟨_,hplaced,?_⟩
  rw [hconfig,hev]
  refine h.kept.cons ?_ ?_
  · rw [Event.task,stages,stages,hfreeing,Function.update_self,
      hrounds t (h.placed.freeing_lt hmem)]
    rfl
  · intro u hu
    rw [Event.task] at hu
    by_cases hlt : u < s.allocated
    · exact stages_congr (hrounds u hlt) (Function.update_of_ne hu _ _)
    · have hnone := (h.placed.fresh_iff u).mpr (Nat.le_of_not_lt hlt)
      rw [stages,stages,Function.update_of_ne hu,hnone]
      rfl

theorem dispatch_journaled (h : Journaled s place) (hc : s.currentTask = none)
    (ht : t ∈ s.queue.waiting) (n : ℕ) :
    ∃ place', Journaled (dispatchTask { s with
      queuedSignalCount := n
      queue := { s.queue with waiting := s.queue.waiting.erase t } } t) place' := by
  have hwait := (h.placed.waiting_iff t).mp ht
  refine ⟨_,dispatch_placed h.placed hc ht n,?_⟩
  refine h.kept.cons ?_ ?_
  · rw [Event.task,stages,stages,hwait,Function.update_self]
    simp [lifeStep,stageAt,roundQuantum,quantumFor]
  · intro u hu
    exact stages_congr (field_update Task.roundsCompleted rfl) (Function.update_of_ne hu _ _)

theorem requeue_journaled (h : Journaled s place) (hc : s.currentTask = some t) {quantum : ℤ}
    (hq : quantum = roundQuantum s.config (s.tasks t).roundsCompleted) :
    ∃ place', Journaled (requeueTask { s with currentTask := none, main := .top } t quantum)
      place' := by
  have hcurrent := (h.placed.current_iff t).mp hc
  refine ⟨_,requeue_placed h.placed hc quantum,?_⟩
  refine h.kept.cons ?_ ?_
  · rw [Event.task,stages,stages,hcurrent,Function.update_self]
    simp [lifeStep,stageAt,hq]
  · intro u hu
    rw [Event.task] at hu
    apply stages_congr
    · simp [Function.update_of_ne hu]
    · exact Function.update_of_ne hu _ _

theorem finalize_journaled (h : Journaled s place) (hc : s.currentTask = some t)
    {state : TaskState} {event : LogEvent}
    (hev : event = .cancel ∨ event = .finish ∨ event = .fail) :
    ∃ place', Journaled (finalizeTask { s with currentTask := none, main := .top } t state event)
      place' := by
  have hcurrent := (h.placed.current_iff t).mp hc
  set n := (s.tasks t).roundsCompleted
  have hended : Kept (lifeStep s.config) Event.task .unborn (.log event t 0 :: s.events)
      (Function.update (stages s.tasks place) t (.ended n)) := by
    refine h.kept.cons ?_ fun u hu => Function.update_of_ne hu _ _
    rw [Event.task,stages,hcurrent,Function.update_self]
    rcases hev with rfl | rfl | rfl <;> rfl
  refine ⟨_,finalize_placed h.placed hc state event,?_⟩
  refine hended.cons ?_ ?_
  · rw [Event.task,stages,Function.update_self,Function.update_self]
    simp [lifeStep,stageAt,n]
  · intro u hu
    rw [Event.task] at hu
    rw [Function.update_of_ne hu]
    exact stages_congr (field_update Task.roundsCompleted rfl) (Function.update_of_ne hu _ _)

theorem step_journaled (h : Journaled s place) (hi : Invariant s) (hq : Quantified s)
    (he : step s a = some s') : ∃ place', Journaled s' place' := by
  have hm := hi.counted.main_task
  have hconfig := step_config he
  cases step_stepped he with
  | submit request => exact submit_journaled h request he
  | cancel hf => exact cancel_journaled h he
  | free => exact free_journaled h he
  | quiet hquiet =>
    refine ⟨place,h.placed.congr hquiet.queue_eq hquiet.currentTask hquiet.allocated
      ⟨[],hquiet.events,by simp⟩,?_⟩
    rw [hconfig,hquiet.events,hquiet.tasks]
    exact h.kept
  | dispatch hn hd =>
    obtain ⟨hnext,rfl⟩ := dequeue_some hd
    exact dispatch_journaled h (hm ▸ hn) (nextTask_mem hnext) _
  | setBurst hmain =>
    refine ⟨place,h.placed.congr rfl rfl rfl ⟨[],rfl,by simp⟩,?_⟩
    exact h.kept.congr fun u => stages_congr (field_update Task.roundsCompleted rfl) rfl
  | @requeue t quantum r hmain hr =>
    have hquantum := hq t quantum (by rw [hmain]; rfl)
    exact requeue_journaled h (by rw [← hm,hmain]; rfl) hquantum.2
  | @finalize t quantum r state event hmain hr hs hev hc =>
    exact finalize_journaled h (by rw [← hm,hmain]; rfl) hev

theorem reachable_journaled (h : Reachable s) : ∃ place, Journaled s place := by
  obtain ⟨config,hasCleanup,h⟩ := h
  have hall : Invariant s ∧ Quantified s ∧ ∃ place, Journaled s place := by
    refine h.invariant (P := fun s => Invariant s ∧ Quantified s ∧ ∃ place, Journaled s place) ?_ ?_
    · rintro u a v ⟨hi,hq,place,hj⟩ he
      exact ⟨step_invariant hi he,step_quantified hi hq he,step_journaled hj hi hq he⟩
    · exact ⟨invariant_init config hasCleanup,quantified_free rfl,_,
        journaled_init config hasCleanup⟩
  exact hall.2.2

end Journals

/-- What the log says of a task: its life so far, which ends where its record is, and how often
it was dispatched and sent back. -/
structure Chronicled (s : System TaskLinks) (t : TaskRef) : Prop where
  fresh : s.allocated ≤ t → ∀ e ∈ s.events, e.task ≠ t
  life : t < s.allocated → ∃ p, InPlace s t p ∧
    replay (lifeStep s.config) .unborn (journal Event.task t s.events) =
      some (stageAt (s.tasks t).roundsCompleted (some p))
  waits : t < s.allocated → entries Event.waits t s.events = (s.tasks t).roundsCompleted
  dispatches : t < s.allocated → entries Event.dispatches t s.events =
    (s.tasks t).roundsCompleted + (if s.currentTask = some t then 1 else 0) +
      entries Event.ends t s.events
  ends : entries Event.ends t s.events ≤ 1

/-- The stages say how many rounds were logged. -/
theorem rounds_stageAt {es : List Event} {n : ℕ} {p : Place} (h : Rounds es (stageAt n (some p))) :
    es.countP Event.waits = n ∧
      es.countP Event.dispatches =
        n + (if p = .current then 1 else 0) + es.countP Event.ends ∧
      es.countP Event.ends ≤ 1 := by
  cases p <;> simp only [stageAt,Rounds] at h <;> simp <;> omega

theorem rounds_unborn {es : List Event} (h : Rounds es .unborn) : es.countP Event.ends ≤ 1 := by
  simp only [Rounds] at h
  omega

theorem lifeStep_ne_unborn {config : PolicyConfig} {p : Stage} {e : Event} :
    lifeStep config p e ≠ some .unborn := by
  intro h
  unfold lifeStep at h
  split at h
  all_goals try split_ifs at h
  all_goals cases h

theorem replay_unborn {config : PolicyConfig} {es : List Event}
    (h : replay (lifeStep config) .unborn es = some .unborn) : es = [] := by
  cases es with
  | nil => rfl
  | cons e es =>
    obtain ⟨p,_,he⟩ := Option.bind_eq_some_iff.mp h
    exact (lifeStep_ne_unborn he).elim

/-- In every reachable state, whatever the interleaving, the log tells the life of each task. -/
theorem tasks_chronicled {s : System TaskLinks} (h : Reachable s) (t : TaskRef) :
    Chronicled s t := by
  obtain ⟨l,hl,hr⟩ := reachable_refines h
  obtain ⟨place,hp,hkept⟩ := reachable_journaled hl
  have hlife := hkept t
  rw [← hr.core,stages] at hlife
  have hfresh := hp.fresh_iff t
  rw [← hr.core] at hfresh
  have hcurrent := hp.current_iff t
  rw [← hr.core] at hcurrent
  have hrounds := replay_rounds hlife
  cases hpt : place t with
  | none =>
    rw [hpt] at hlife hrounds
    have hge := hfresh.mp hpt
    have hnil := replay_unborn hlife
    refine ⟨fun _ => journal_eq_nil_iff.mp hnil,?_,?_,?_,rounds_unborn hrounds⟩
    all_goals exact fun hlt => absurd hlt (Nat.not_lt.mpr hge)
  | some q =>
    rw [hpt] at hlife hrounds hcurrent hfresh
    obtain ⟨hw,hd,he⟩ := rounds_stageAt hrounds
    have hlt : t < s.allocated := by
      by_contra hge
      cases hfresh.mpr (Nat.le_of_not_lt hge)
    refine ⟨fun hge => absurd hlt (Nat.not_lt.mpr hge),fun _ => ⟨q,?_,hlife⟩,fun _ => hw,
      fun _ => ?_,he⟩
    · exact (hr.inPlace_iff hp t q).mpr hpt
    · have hiff : s.currentTask = some t ↔ q = .current :=
        hcurrent.trans ⟨Option.some.inj,congrArg some⟩
      simp only [hiff]
      exact hd

/-- A program is preempted by a shell command, cancelled while it waits for its second round,
and cleaned up. -/
def removedBetweenRounds : List Action :=
  [.submit { type := .program, clientNumber := 1, commandText := none, predictedBurst := 4,
             userData := none },
    .enter,
    .submit { type := .shell, clientNumber := 2, commandText := none, predictedBurst := -1,
              userData := none },
    .setBurst 3,.result .requeue,.finish,.cancel 7 1,.free 7]

theorem tasks_chronicled_removedBetweenRounds :
    ∃ s, exec step (schedulerInit TaskLinks none true) removedBetweenRounds = some s ∧
      Chronicled s 0 ∧ (journal Event.task 0 s.events).reverse =
        [.log .enqueue 0 0,.log .dispatch 0 3,.log .preemptRequest 0 0,.log .waiting 0 3,
          .unlinked 0,.cleanup 0] := by
  obtain ⟨s,he⟩ := Option.isSome_iff_exists.mp (show
    (exec step (schedulerInit TaskLinks none true) removedBetweenRounds).isSome = true from rfl)
  refine ⟨s,he,tasks_chronicled ⟨none,true,reaches_of_exec he⟩ 0,?_⟩
  cases he
  rfl

end UnixShell.Scheduler
