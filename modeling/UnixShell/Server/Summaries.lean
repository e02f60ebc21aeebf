import UnixShell.Server.Timeline
import UnixShell.Server.Connections

/-! # One summary for each batch

A batch begins with the submission that finds no active work, and what its rounds leave
on the clock is noted beside the run. The summary is printed by a client thread, after
an idle check of its own; the notes say what should have been printed by then.
-/
namespace UnixShell.Server
open Foundation Scheduler

/-- A summary is due for a batch with a preemption. -/
def Batch.summary (b : Batch) : List (List (ℤ × ℤ)) := if b.preempted then [b.rounds] else []

def ServerEvent.summary : ServerEvent → Option (List (ℤ × ℤ))
  | .printed timeline => some timeline
  | _ => none

/-- The summaries printed so far, the first one first. -/
def summaries (log : List ServerEvent) : List (List (ℤ × ℤ)) :=
  log.reverse.filterMap ServerEvent.summary

def ServerEvent.invokes : ServerEvent → Bool
  | .invoked _ => true
  | _ => false

def roundsRun (log : List ServerEvent) : ℕ := log.countP ServerEvent.invokes

def Request.submits : Request → Bool
  | .program _ _ _ => true
  | .shell _ => true
  | _ => false

/-- The batch gets a round when the executor is about to return. -/
def Batch.note (b : Batch) (clientNumber : ℤ) (r : Round) : Batch :=
  match r.pc with
  | .exiting exit [] => b.add clientNumber r.slicesRun exit
  | _ => b

/-- The batches of a run, the newest first. -/
def noteBatch (batches : List Batch) (core : Core) (w : World) : ServerAction → List Batch
  | .request _ request =>
    if request.submits = true ∧ core.activeTaskCount = 0 then emptyBatch :: batches else batches
  | .exec _ =>
    match w.round,batches with
    | some r,b :: earlier => b.note (core.tasks r.task).clientNumber r :: earlier
    | _,_ => batches
  | _ => batches

/-- The client has an idle check before it, or the print that follows. -/
def ClientPc.ahead : ClientPc → Bool
  | .waiting _ => true
  | .peeking _ => true
  | .answering _ => true
  | .responding _ _ => true
  | .idleCheck _ => true
  | .printing _ => true
  | _ => false

/-- No client hangs up, and nothing that is sent to one is lost. -/
def ServerAction.connected : ServerAction → Bool
  | .hangup _ => false
  | .peek _ closed => !closed
  | .cancel _ => false
  | .send _ ok => ok
  | .exec (.sent ok) => ok
  | _ => true

/-- Once the server is idle and all idle checks are made, every batch with a preemption was
printed, once and by itself, and no entry of any batch is left over. -/
def OneSummaryEach {Q : Type} [TaskQueue Q] (s : State Q) (batches : List Batch) : Prop :=
  roundsRun s.world.log ≤ maxTimelineSlices → s.sched.activeTaskCount = 0 →
    (∀ c, (s.world.clients c).pc.ahead = false) →
    summaries s.world.log = batches.reverse.flatMap Batch.summary ∧ s.world.clock.timeline = []

section Conditions
variable (core : Core) (w : World)

/-- The scheduler thread is about to finalise the only task that is active. -/
def endsBatch : Bool :=
  match core.main with
  | .returned t _ result => core.activeTaskCount = 1 && !decide (mayRequeue (core.tasks t) result)
  | _ => false

def somethingToPrint : Bool := w.clock.hadPreemption && !w.clock.timeline.isEmpty

def someoneAhead : Bool := (List.range w.nextThread).any fun c => (w.clients c).pc.ahead

/-- The drain after a reaped child goes through. -/
def drainsReaped (i : Input) : Bool :=
  w.round.all fun r => r.pc ≠ .draining .reaped || i.drains (w.contexts r.context)

/-- Batches do not meet: entries are left behind only for a client that will print them,
they are printed before the next submission, and nothing is printed while work is active. -/
def keepsBatchesApart : ServerAction → Bool
  | .request _ request =>
    !request.submits || core.activeTaskCount ≠ 0 || w.clock.timeline.isEmpty
  | .print _ => core.activeTaskCount = 0 || !somethingToPrint w
  | .finish => !endsBatch core || w.clock.timeline.isEmpty ||
      (somethingToPrint w && someoneAhead w)
  | .exec i => drainsReaped w i
  | _ => true

end Conditions

section Log
variable {new log : List ServerEvent}

theorem summaries_append (new log : List ServerEvent) :
    summaries (new ++ log) = summaries log ++ summaries new := by
  rw [summaries,List.reverse_append,List.filterMap_append]
  rfl

theorem summaries_quiet (h : ∀ e ∈ new, e.summary = none) :
    summaries (new ++ log) = summaries log := by
  have hnone : summaries new = [] := by
    apply List.filterMap_eq_nil_iff.mpr
    intro e he
    exact h e (List.mem_reverse.mp he)
  rw [summaries_append,hnone,List.append_nil]

theorem roundsRun_append (new log : List ServerEvent) :
    roundsRun (new ++ log) = roundsRun new + roundsRun log := List.countP_append

end Log

/-- Neither the clock nor the printed summaries have changed. -/
structure SameClock (w w' : World) : Prop where
  clock : w'.clock = w.clock
  summaries : summaries w'.log = summaries w.log

namespace SameClock
variable {w w' w'' : World}

theorem refl (w : World) : SameClock w w := ⟨rfl,rfl⟩

theorem trans (h : SameClock w w') (h' : SameClock w' w'') : SameClock w w'' :=
  ⟨h'.clock.trans h.clock,h'.summaries.trans h.summaries⟩

theorem append (new : List ServerEvent) (hc : w'.clock = w.clock) (hl : w'.log = new ++ w.log)
    (hn : ∀ e ∈ new, e.summary = none) : SameClock w w' :=
  ⟨hc,by rw [hl]; exact summaries_quiet hn⟩

end SameClock

section Frames
variable {core : Core} {toFree : ThreadId → Option TaskRef} {w w' : World} {x : Option Action}
  {a : ServerAction}

theorem cleanup_sameClock (w : World) (task : Task) : SameClock w (serverTaskCleanup w task) := by
  unfold serverTaskCleanup
  split <;> exact ⟨rfl,rfl⟩

theorem callbacks_sameClock (y : Action) : SameClock w (callbacks y core w) := by
  unfold callbacks
  split
  · split
    · exact .append [_] rfl rfl (by simp [ServerEvent.summary])
    · exact .refl w
  · have hclean := fun task => cleanup_sameClock { w with round := none } task
    exact ⟨(hclean _).clock,(hclean _).summaries⟩
  · exact ⟨rfl,rfl⟩
  · exact cleanup_sameClock w _
  · exact .refl w

theorem clientSend_sameClock {c : ThreadId} {ok : Bool} (h : clientSend w c ok = some w') :
    SameClock w w' := by
  unfold clientSend at h
  dsimp only at h
  split at h
  · split at h
    · cases h
      exact .append [_,_] rfl rfl (by simp [ServerEvent.summary])
    · cases h
      exact .append [_] rfl rfl (by simp [ServerEvent.summary])
  · cases h
    exact ⟨rfl,rfl⟩
  · cases h
    exact .append [_] rfl rfl (by simp [ServerEvent.summary])
  · cases h
    exact ⟨rfl,rfl⟩
  · cases h

/-- Of the other threads only a print touches the clock. -/
theorem respond_sameClock (ha : a.outside = true) (hp : ∀ c, a ≠ .print c)
    (h : respond core toFree w a = some (x,w')) : SameClock w w' := by
  cases a with
  | request c request =>
    simp only [respond] at h
    split at h
    · cases request <;> cases h <;> exact ⟨rfl,rfl⟩
    · cases h
  | send c ok =>
    obtain ⟨u,hu,he⟩ := Option.map_eq_some_iff.mp h
    cases he
    exact clientSend_sameClock hu
  | print c => exact (hp c rfl).elim
  | cancelled c =>
    simp only [respond] at h
    split at h <;> cases h <;> exact ⟨rfl,rfl⟩
  | cleanupNext c =>
    cases h
    exact ⟨rfl,rfl⟩
  | requestStop =>
    cases h
    exact ⟨rfl,rfl⟩
  | enter => cases ha
  | exec i => cases ha
  | finish => cases ha
  | _ =>
    simp only [respond] at h
    split at h
    · cases h
      exact ⟨rfl,rfl⟩
    · cases h

/-- A client is still on its way if another one moves, or if its own move leads on. -/
theorem ahead_setPc {c d : ThreadId} {pc : ClientPc} (h : (w.clients c).pc.ahead = true)
    (hd : (w.clients d).pc.ahead = false ∨ pc.ahead = true) :
    ((setPc w d pc).clients c).pc.ahead = true := by
  by_cases hcd : c = d
  · subst hcd
    rw [h] at hd
    simpa only [setPc,Function.update_self] using hd.resolve_left (by simp)
  · simpa only [setPc,Function.update_of_ne hcd] using h

theorem clientSend_ahead {c d : ThreadId} {ok : Bool} (hs : clientSend w d ok = some w')
    (hok : ok = true) (h : (w.clients c).pc.ahead = true) :
    w'.nextThread = w.nextThread ∧ (w'.clients c).pc.ahead = true := by
  unfold clientSend at hs
  dsimp only at hs
  split at hs
  · split at hs
    · cases hs
      exact ⟨rfl,ahead_setPc h (Or.inr rfl)⟩
    · cases hs
      exact ⟨rfl,ahead_setPc h (Or.inr rfl)⟩
  · cases hok
  · rename_i piece rest connection hpc _
    cases hs
    exact ⟨rfl,ahead_setPc (w := record w (.farewell connection piece)) h
      (Or.inl (congrArg ClientPc.ahead hpc))⟩
  · cases hok
  · cases hs

/-- While no work is active, a client that stays connected gets to its idle check, and from
there to the print. -/
theorem respond_ahead (ha : a.outside = true) (hp : ∀ c, a ≠ .print c) (hconn : a.connected = true)
    (hidle : core.activeTaskCount = 0) (h : respond core toFree w a = some (x,w')) {c : ThreadId}
    (hc : c < w.nextThread) (hahead : (w.clients c).pc.ahead = true) :
    c < w'.nextThread ∧ (w'.clients c).pc.ahead = true := by
  cases a with
  | accept fd =>
    simp only [respond] at h
    split at h
    · cases h
      refine ⟨hc.trans (Nat.lt_succ_self _),?_⟩
      simpa only [Function.update_of_ne hc.ne] using hahead
    · cases h
  | request d request =>
    simp only [respond] at h
    split at h
    · rename_i hpc
      have hd : (w.clients d).pc.ahead = false := congrArg ClientPc.ahead hpc
      cases request <;> cases h <;> exact ⟨hc,ahead_setPc hahead (Or.inl hd)⟩
    · cases h
  | poll d =>
    simp only [respond] at h
    split at h
    · cases h
      refine ⟨hc,ahead_setPc hahead (Or.inr ?_)⟩
      split <;> rfl
    · cases h
  | fetch d =>
    simp only [respond] at h
    split at h
    · cases h
      exact ⟨hc,ahead_setPc hahead (Or.inr rfl)⟩
    · cases h
  | peek d closed =>
    obtain rfl : closed = false := by simpa [ServerAction.connected] using hconn
    simp only [respond] at h
    split at h
    · cases h
      exact ⟨hc,ahead_setPc hahead (Or.inr rfl)⟩
    · cases h
  | cancelled d =>
    simp only [respond] at h
    split at h
    · rename_i hpc _
      cases h
      exact ⟨hc,ahead_setPc hahead (Or.inl (congrArg ClientPc.ahead hpc))⟩
    · rename_i hpc _
      cases h
      exact ⟨hc,ahead_setPc hahead (Or.inl (congrArg ClientPc.ahead hpc))⟩
    · cases h
  | send d ok =>
    obtain ⟨u,hu,he⟩ := Option.map_eq_some_iff.mp h
    cases he
    obtain ⟨hnext,hu⟩ := clientSend_ahead hu hconn hahead
    exact ⟨hc.trans_eq hnext.symm,hu⟩
  | checkIdle d =>
    simp only [respond,schedulerHasActiveWork,hidle,lt_irrefl,decide_false] at h
    split at h
    · cases h
      exact ⟨hc,ahead_setPc hahead (Or.inr rfl)⟩
    · cases h
  | release d =>
    simp only [respond] at h
    split at h
    · rename_i k again hpc
      cases h
      exact ⟨hc,ahead_setPc (w := releaseContext w k) hahead
        (Or.inl (congrArg ClientPc.ahead hpc))⟩
    · cases h
  | close d =>
    simp only [respond] at h
    split at h
    · rename_i hpc
      cases h
      exact ⟨hc,ahead_setPc (w := { w with sockets := _ }) hahead
        (Or.inl (congrArg ClientPc.ahead hpc))⟩
    · cases h
  | cleanupNext d =>
    cases h
    exact ⟨hc,hahead⟩
  | requestStop =>
    cases h
    exact ⟨hc,hahead⟩
  | childWrite pid bytes =>
    simp only [respond] at h
    split at h
    · cases h
      exact ⟨hc,hahead⟩
    · cases h
  | childExit pid =>
    simp only [respond] at h
    split at h
    · cases h
      exact ⟨hc,hahead⟩
    · cases h
  | print d => exact (hp d rfl).elim
  | hangup d => cases hconn
  | cancel d => cases hconn
  | enter => cases ha
  | exec i => cases ha
  | finish => cases ha

/-- What another thread may ask of the scheduler while every client stays connected. -/
theorem respond_submits (ha : a.outside = true) (hconn : a.connected = true)
    (h : respond core toFree w a = some (x,w')) :
    (∃ c request new, a = .request c request ∧ request.submits = true ∧ x = some (.submit new)) ∨
    (∀ c request, a = .request c request → request.submits = false) ∧
      ∀ y, x = some y → y = .requestStop ∨ ∃ thread, y = .free thread := by
  cases a with
  | request c request =>
    simp only [respond] at h
    split at h
    · cases request with
      | program command argv iterations =>
        cases h
        exact Or.inl ⟨c,_,_,rfl,rfl,rfl⟩
      | shell command =>
        cases h
        exact Or.inl ⟨c,_,_,rfl,rfl,rfl⟩
      | _ =>
        cases h
        refine Or.inr ⟨?_,fun y hy => by cases hy⟩
        rintro d request ⟨⟩
        rfl
    · cases h
  | cleanupNext thread =>
    cases h
    refine Or.inr ⟨fun _ _ hf => (by cases hf),?_⟩
    rintro y ⟨⟩
    exact Or.inr ⟨thread,rfl⟩
  | requestStop =>
    cases h
    refine Or.inr ⟨fun _ _ hf => (by cases hf),?_⟩
    rintro y ⟨⟩
    exact Or.inl rfl
  | send c ok =>
    obtain ⟨u,_,he⟩ := Option.map_eq_some_iff.mp h
    cases he
    exact Or.inr ⟨fun _ _ hf => (by cases hf),fun y hy => (by cases hy)⟩
  | cancelled c =>
    simp only [respond] at h
    split at h <;> cases h <;>
      exact Or.inr ⟨fun _ _ hf => (by cases hf),fun y hy => (by cases hy)⟩
  | cancel c => cases hconn
  | hangup c => cases hconn
  | enter => cases ha
  | exec i => cases ha
  | finish => cases ha
  | _ =>
    simp only [respond] at h
    split at h
    · cases h
      exact Or.inr ⟨fun _ _ hf => (by cases hf),fun y hy => (by cases hy)⟩
    · cases h

end Frames

section Steps
variable {s s' : State TaskLists} {a : ServerAction}

/-- Only the executor and a print touch the clock. -/
theorem serverStep_sameClock (hx : ∀ i, a ≠ .exec i) (hp : ∀ c, a ≠ .print c)
    (he : serverStep s a = some s') : SameClock s.world s'.world := by
  by_cases ha : a.outside = true
  · rcases serverStep_cases he with ⟨w,hr,rfl⟩ | ⟨y,w,sched,hr,hs,rfl⟩
    · exact respond_sameClock ha hp hr
    · exact (respond_sameClock ha hp hr).trans (callbacks_sameClock y)
  · cases a with
    | enter =>
      obtain ⟨_,hw⟩ := serverStep_enter he
      rw [hw]
      exact callbacks_sameClock _
    | finish =>
      obtain ⟨_,hw⟩ := serverStep_finish he
      rw [hw]
      exact callbacks_sameClock _
    | exec i => exact (hx i rfl).elim
    | _ => exact (ha rfl).elim

theorem serverStep_print {c : ThreadId} (he : serverStep s (.print c) = some s') :
    ∃ k, s'.sched = s.sched ∧
      s'.world = setPc (printSummaryIfNeeded s.world) c (.releasing k true) := by
  rcases serverStep_cases he with ⟨w,hr,rfl⟩ | ⟨y,w,sched,hr,hs,rfl⟩
  · simp only [respond] at hr
    split at hr
    · rename_i k _
      cases hr
      exact ⟨k,rfl,rfl⟩
    · cases hr
  · simp only [respond] at hr
    split at hr <;> cases hr

/-- The count of active tasks, as the other threads change it. -/
theorem outside_activeTaskCount (ha : a.outside = true) (hconn : a.connected = true)
    (he : serverStep s a = some s') :
    (∃ c request, a = .request c request ∧ request.submits = true ∧
      s'.sched.activeTaskCount = s.sched.activeTaskCount + 1) ∨
    (∀ c request, a = .request c request → request.submits = false) ∧
      s'.sched.activeTaskCount = s.sched.activeTaskCount := by
  rcases serverStep_cases he with ⟨w,hr,rfl⟩ | ⟨y,w,sched,hr,hs,rfl⟩
  · rcases respond_submits ha hconn hr with ⟨_,_,_,_,_,hx⟩ | ⟨hno,_⟩
    · cases hx
    · exact Or.inr ⟨hno,rfl⟩
  · rcases respond_submits ha hconn hr with ⟨c,request,new,hreq,hsub,hx⟩ | ⟨hno,hy⟩
    · obtain rfl := Option.some.inj hx
      obtain rfl := Option.some.inj hs
      exact Or.inl ⟨c,request,hreq,hsub,by simp⟩
    · refine Or.inr ⟨hno,?_⟩
      have hkind := hy y rfl
      have hcount : sched.activeTaskCount = s.sched.activeTaskCount ∨ y = .finish ∧ _ :=
        step_activeTaskCount hs (by rintro request rfl; simp at hkind)
          (by rintro thread client rfl; simp at hkind)
      rcases hcount with hcount | ⟨rfl,_⟩
      · exact hcount
      · simp at hkind

/-- The executor leaves the count alone. -/
theorem moved_activeTaskCount {r : Round} {i : Input} {m : Move}
    (hm : Moved (view s.sched.toCore s.world r) r i m)
    (hs : m.action = none ∧ s'.sched = s.sched ∨
      ∃ y, m.action = some y ∧ Scheduler.step s.sched y = some s'.sched) :
    s'.sched.activeTaskCount = s.sched.activeTaskCount := by
  rcases hs with ⟨_,hs⟩ | ⟨y,hy,hs⟩
  · rw [hs]
  · rcases shift_main hm.shift with ⟨_,_,hx | ⟨b,hx⟩⟩ | ⟨exit,_,_,hx⟩ <;> rw [hy] at hx <;> cases hx
    · obtain ⟨t,quantum,_,hse⟩ := step_setBurst hs
      rw [hse]
      rfl
    · obtain ⟨t,quantum,_,hse⟩ := step_result hs
      rw [hse]

end Steps

/-- The counters of the round in progress, under quanta that allow for a tick. -/
structure Timed (s : State TaskLists) : Prop where
  first : 0 < s.sched.config.firstRoundQuantum
  later : 0 < s.sched.config.laterRoundQuantum
  round : ∀ r, s.world.round = some r → 0 < r.quantum ∧
    Counts r.quantum r.slice r.slicesRun (s.sched.tasks r.task).remainingBurst r.pc

theorem timed_init : Timed (serverInit TaskLists) := by
  constructor
  · decide
  · decide
  · intro r hr
    cases hr

section Counting
variable {s s' : State TaskLists} {a : ServerAction}

theorem RoundStep.config (h : RoundStep s s' a) : s'.sched.config = s.sched.config := by
  rcases h.sched with hs | ⟨y,hs,_⟩
  · rw [hs]
  · exact step_config hs

/-- A move of the executor keeps the counters of its round. -/
theorem Timed.moved (h : Timed s) (hc : Consistent s) {r : Round} {i : Input} {m : Move}
    (hr : s.world.round = some r)
    (hm : serverTaskExecutor (view s.sched.toCore s.world r) r i = some m)
    (hs : m.action = none ∧ s'.sched = s.sched ∨
      ∃ y, m.action = some y ∧ Scheduler.step s.sched y = some s'.sched)
    (hconn : (ServerAction.exec i).connected = true) (hok : drainsReaped s.world i = true) :
    0 < m.round.quantum ∧ Counts m.round.quantum m.round.slice m.round.slicesRun
      (s'.sched.tasks m.round.task).remainingBurst m.round.pc := by
  obtain ⟨hq,hcounts⟩ := h.round r hr
  have hmoved := serverTaskExecutor_moved hm
  have hburst := moved_burst (by rw [(hc.running r hr).1,mainOf_task]) (hc.task_lt hr) hs
  have hsent : i ≠ .sent false := by
    rintro rfl
    cases hconn
  have hdrains : r.pc = .draining .reaped → i.drains (s.world.contexts r.context) = true := by
    intro hp
    simp only [drainsReaped,hr,Option.all_some,hp,ne_eq,not_true_eq_false,decide_false,
      Bool.false_or] at hok
    exact hok
  have hkept : ∀ ops, r.pc ≠ .exiting (.drainFailed .reaped) ops := by
    intro ops hp
    rw [hp] at hcounts
    exact hcounts.reaped rfl
  rw [hmoved.quantum,hmoved.task,hburst]
  exact ⟨hq,shift_counts hmoved.shift hq (serverTaskExecutor_slice hm)
    (serverTaskExecutor_slicesRun hm) (serverTaskExecutor_drains hm hsent hdrains hkept) hcounts⟩

theorem step_timed (h : Timed s) (hc : Consistent s) (hconn : a.connected = true)
    (hok : keepsBatchesApart s.sched.toCore s.world a = true) (he : serverStep s a = some s') :
    Timed s' := by
  have hshape := serverStep_shape hc he
  have hconfig := hshape.config
  refine ⟨hconfig ▸ h.first,hconfig ▸ h.later,?_⟩
  intro r' hr'
  cases hshape with
  | outside ha hw hs =>
    rw [hw.round] at hr'
    obtain ⟨hq,hcounts⟩ := h.round r' hr'
    have hburst : (s'.sched.tasks r'.task).remainingBurst =
        (s.sched.tasks r'.task).remainingBurst := by
      rcases hs with hs | ⟨y,hy,_,hs⟩
      · rw [hs]
      · rcases step_remainingBurst hs (hc.task_lt hr') with hb | ⟨b,_,rfl,_⟩
        · exact hb
        · cases hy
    rw [hburst]
    exact ⟨hq,hcounts⟩
  | @exec i r _ hr _ _ _ =>
    obtain ⟨r₀,m,hr₀,hm,hw,hs⟩ := serverStep_executor he
    obtain rfl : m.round = r' := by
      rw [hw] at hr'
      exact Option.some.inj hr'
    exact h.moved hc hr₀ hm hs hconn hok
  | idle hr _ _ hw =>
    rw [hw,hr] at hr'
    cases hr'
  | @dispatch t quantum _ hs _ hm _ hw =>
    rw [hw] at hr'
    obtain rfl := Option.some.inj hr'
    obtain ⟨hquantum,_⟩ := step_enter_executing hs hm
    refine ⟨?_,rfl,rfl⟩
    show 0 < quantum
    rw [hquantum,quantumFor]
    split
    · exact h.first
    · exact h.later
  | finish _ _ _ _ hn _ =>
    rw [hn] at hr'
    cases hr'

end Counting

end UnixShell.Server
