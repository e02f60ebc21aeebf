import UnixShell.Server.Contexts
import UnixShell.Server.Polling

/-! # The burst of a program

Each tick of a round takes one off the burst, so what is left and the ticks so far make
up what was submitted. A round that is not cut off by a failure or a cancellation has a
tick at least, which bounds the dispatches.
-/
namespace UnixShell.Scheduler
open TaskQueue

def dispatchesOf (t : TaskRef) (events : List Event) : ℕ :=
  events.countP fun e => Event.dispatched e = some t

section Steps
variable {Q : Type} [TaskQueue Q] {s s' : System Q} {x : Action} {t : TaskRef}

/-- The record of a program that is submitted with a burst. -/
theorem submit_program {request : TaskRequest} (hty : request.type = .program)
    (hb : 1 ≤ request.predictedBurst) (he : step s (.submit request) = some s') :
    s'.allocated = s.allocated + 1 ∧ (s'.tasks s.allocated).type = .program ∧
      (s'.tasks s.allocated).remainingBurst = request.predictedBurst ∧
      (s'.tasks s.allocated).roundsCompleted = 0 := by
  have hnot : ¬ request.predictedBurst ≤ 0 := by omega
  obtain rfl := Option.some.inj he
  rw [schedulerSubmitTask_tasks,Function.update_self]
  refine ⟨by simp,?_⟩
  dsimp only
  split <;> simp [submittedTask,schedulerCreateTask,hty,hnot]

theorem dispatchesOf_append (new : List Event) {events : List Event}
    (h : ∀ e ∈ new, Event.dispatched e = none) :
    dispatchesOf t (new ++ events) = dispatchesOf t events := by
  have hzero : new.countP (fun e => decide (Event.dispatched e = some t)) = 0 := by
    apply List.countP_eq_zero.mpr
    intro e he
    simp [h e he]
  rw [dispatchesOf,List.countP_append,hzero,Nat.zero_add]
  rfl

/-- The turn of the loop that hands the task to the executor. -/
theorem step_enter_executing {quantum : ℤ} (he : step s .enter = some s')
    (hm : s'.main = .executing t quantum) :
    quantum = quantumFor s (s.tasks t) ∧ s'.events = .log .dispatch t quantum :: s.events := by
  obtain ⟨_,_,rfl⟩ := step_enter he
  rcases enter_cases s with ⟨_,_,hc⟩ | ⟨_,hc⟩ | ⟨_,_,q,_,hc⟩ | ⟨_,_,u,q,_,hc⟩
  · rw [hc] at hm
    cases hm
  · rw [hc] at hm
    cases hm
  · rw [hc] at hm
    cases hm
  · rw [hc] at hm ⊢
    cases hm
    exact ⟨rfl,rfl⟩

/-- A step that is no turn of the loop dispatches nothing. -/
theorem step_dispatchesOf (he : step s x = some s') (hx : x ≠ .enter) :
    dispatchesOf t s'.events = dispatchesOf t s.events := by
  rcases step_dispatches he with ⟨_,_,new,hev,hnew⟩ | ⟨rfl,_⟩
  · rw [hev]
    exact dispatchesOf_append new hnew
  · exact (hx rfl).elim

end Steps
end UnixShell.Scheduler

namespace UnixShell.Server
open Foundation Scheduler

/-- Starting, resuming and draining succeed. -/
def Input.succeeds : Input → Bool
  | .started ok => ok
  | .resumed ok => ok
  | .readSome _ allocOk => allocOk
  | .readError => false
  | .sent ok => ok
  | _ => true

/-- They succeed for the child of the task. -/
def smooth (t : TaskRef) (_ : Core) (w : World) : ServerAction → Prop
  | .exec i => ∀ r ∈ w.round, r.task = t → i.succeeds = true
  | _ => True

instance (t : TaskRef) (core : Core) (w : World) : DecidablePred (smooth t core w)
  | .exec i => inferInstanceAs (Decidable (∀ r ∈ w.round, r.task = t → i.succeeds = true))
  | .accept _ | .request _ _ | .hangup _ | .poll _ | .fetch _ | .peek _ _ | .cancel _
  | .cleanupNext _ | .cancelled _ | .send _ _ | .checkIdle _ | .print _ | .release _ | .close _
  | .requestStop | .enter | .finish | .childWrite _ _ | .childExit _ =>
    inferInstanceAs (Decidable True)

/-- The ticks since the executor was last called for the task. -/
def ticksInRound (t : TaskRef) (log : List ServerEvent) : ℕ :=
  ticksOf t (log.takeWhile fun e => decide (e ≠ .invoked t))

/-- A tick has begun, and the burst was not lowered for it yet. -/
def ExecutorPc.ticking : ExecutorPc → Bool
  | .sleeping => true
  | .draining .tick => true
  | .sending .tick _ _ => true
  | .decrement => true
  | _ => false

/-- The poll after a tick has found that the child has exited. -/
def ExecutorPc.sawExit : ExecutorPc → Bool
  | .draining .reaped => true
  | .sending .reaped _ _ => true
  | .exiting .reaped _ => true
  | .returned .reaped => true
  | _ => false

/-- The ways out of a round that nothing has failed in. -/
def Exit.regular : Exit → Bool
  | .reaped => true
  | .preempted => true
  | .quantumEnd => true
  | .final => true
  | _ => false

/-- On the way out because starting, resuming or draining has failed. -/
def ExecutorPc.failed : ExecutorPc → Bool
  | .exiting exit _ =>
    match exit with
    | .noArgv => true
    | .startFailed => true
    | .resumeFailed => true
    | .drainFailed _ => true
    | _ => false
  | _ => false

/-- What the points of the executor know of the loop's counter, the burst and the ticks of
the round. -/
def OnTrack (slice quantum burst : ℤ) (ticks : ℕ) : ExecutorPc → Prop
  | .start => ticks = 0 ∧ slice = 0 ∧ 0 < burst
  | .shell => False
  | .program => ticks = 0 ∧ slice = 0 ∧ 0 < burst
  | .loopTest => ticks = slice ∧ ticks ≤ quantum ∧ 0 ≤ burst ∧ (ticks = 0 → 0 < burst)
  | .sleeping => ticks = slice + 1 ∧ 1 ≤ ticks ∧ ticks ≤ quantum ∧ 0 < burst
  | .draining .tick => ticks = slice + 1 ∧ 1 ≤ ticks ∧ ticks ≤ quantum ∧ 0 < burst
  | .sending .tick _ _ => ticks = slice + 1 ∧ 1 ≤ ticks ∧ ticks ≤ quantum ∧ 0 < burst
  | .decrement => ticks = slice + 1 ∧ 1 ≤ ticks ∧ ticks ≤ quantum ∧ 0 < burst
  | .reap => ticks = slice + 1 ∧ 1 ≤ ticks ∧ ticks ≤ quantum ∧ 0 ≤ burst
  | .pollPreempt => ticks = slice + 1 ∧ 1 ≤ ticks ∧ ticks ≤ quantum ∧ 0 ≤ burst
  | .exiting exit _ => exit.regular = true ∧ 1 ≤ ticks ∧ ticks ≤ quantum ∧ 0 ≤ burst
  | .returned exit => exit.regular = true ∧ 1 ≤ ticks ∧ ticks ≤ quantum ∧ 0 ≤ burst
  | _ => 1 ≤ ticks ∧ ticks ≤ quantum ∧ 0 ≤ burst

theorem OnTrack.nonneg {slice quantum burst : ℤ} {ticks : ℕ} {pc : ExecutorPc}
    (h : OnTrack slice quantum burst ticks pc) : 0 ≤ burst := by
  unfold OnTrack at h
  split at h
  case h_2 => exact h.elim
  all_goals omega

theorem OnTrack.ticks_le {slice quantum burst : ℤ} {ticks : ℕ} {pc : ExecutorPc}
    (h : OnTrack slice quantum burst ticks pc) (hq : 0 < quantum) : ticks ≤ quantum := by
  unfold OnTrack at h
  split at h
  case h_2 => exact h.elim
  all_goals omega

/-- The burst that a move leaves. -/
def burstAfter (burst : ℤ) : Option Action → ℤ
  | some (.setBurst remaining) => remaining
  | _ => burst

def tickInProgress (pc : ExecutorPc) : ℤ := if pc.ticking then 1 else 0

section Moves
variable {v : View} {r : Round} {i : Input} {m : Move} {pc pc' : ExecutorPc} {x : Option Action}
  {events : List ServerEvent} {quantum slice slice' : ℤ} {ticks : ℕ}

/-- Only a poll that finds no request counts a slice. -/
theorem serverTaskExecutor_slice (h : serverTaskExecutor v r i = some m) :
    m.round.slice = if r.pc = .pollPreempt ∧ m.round.pc = .loopTest then r.slice + 1
      else r.slice := by
  by_cases hp : r.pc = .pollPreempt
  · have hm : m = pollPreempt v r := by
      unfold serverTaskExecutor at h
      rw [hp] at h
      cases i <;> simp_all
    rw [hm]
    unfold pollPreempt
    split
    · simp [stopAndDrain,goto]
    · simp [goto,hp]
  · rw [if_neg fun hc => hp hc.1]
    exact (serverTaskExecutor_moved h).slice.resolve_left hp

theorem executeProgramTask_runs (h : executeProgramTask v r i = some m) (hi : i.succeeds = true)
    (hargv : v.context.argv ≠ none) : m.round.pc = .loopTest := by
  unfold executeProgramTask at h
  split at h
  · rename_i hnone
    exact (hargv hnone).elim
  · split at h
    · cases h
      rfl
    · cases hi
    · rename_i pid ok _
      obtain rfl : ok = true := hi
      split at h
      · cases h
        rfl
      · cases h
        rfl
    · cases h

theorem drained_true_failed (site : Site) : (drained true site).failed = false := by
  cases site <;> rfl

theorem taskContextDrainPipe_runs {site : Site} (h : taskContextDrainPipe v r site i = some m)
    (hi : i.succeeds = true) : m.round.pc.failed = false := by
  unfold taskContextDrainPipe at h
  split at h
  · cases h
    exact drained_true_failed site
  · rename_i size allocOk _
    obtain rfl : allocOk = true := hi
    dsimp only at h
    split at h
    · split at h <;> cases h <;> rfl
    · cases h
  · split at h
    · cases h
      exact drained_true_failed site
    · cases h
  · cases h
    exact drained_true_failed site
  · cases hi
  · cases h

theorem shift_failed (h : Shift v r pc i pc' x events) (hi : i.succeeds = true)
    (hp : pc ≠ .program) (hd : ∀ site, pc ≠ .draining site) (hf : pc.failed = false) :
    pc'.failed = false := by
  cases h with
  | early _ => exact (hp rfl).elim
  | drained _ => exact (hd _ rfl).elim
  | piece connection _ => split <;> rfl
  | sendFailed => cases hi
  | op _ => exact hf
  | opFailed => exact hf
  | mark _ _ => exact hf
  | _ => rfl

/-- Where starting, resuming and draining succeed no round fails over them. -/
theorem serverTaskExecutor_smooth (h : serverTaskExecutor v r i = some m)
    (hi : i.succeeds = true) (hargv : v.context.argv ≠ none) (hf : r.pc.failed = false) :
    m.round.pc.failed = false := by
  by_cases hp : r.pc = .program
  · have hm : executeProgramTask v r i = some m := by
      simpa only [serverTaskExecutor,hp] using h
    rw [executeProgramTask_runs hm hi hargv]
    rfl
  by_cases hd : ∃ site, r.pc = .draining site
  · obtain ⟨site,hd⟩ := hd
    have hm : taskContextDrainPipe v r site i = some m := by
      simpa only [serverTaskExecutor,hd] using h
    exact taskContextDrainPipe_runs hm hi
  exact shift_failed (serverTaskExecutor_moved h).shift hi hp (not_exists.mp hd) hf

/-- Two points of a round that know the same of it. -/
structure SameTrack (pc pc' : ExecutorPc) : Prop where
  onTrack : ∀ slice quantum burst ticks,
    OnTrack slice quantum burst ticks pc → OnTrack slice quantum burst ticks pc'
  sawExit : pc'.sawExit = pc.sawExit
  ticking : pc'.ticking = pc.ticking
  slice : pc ≠ .pollPreempt

theorem SameTrack.refl (h : pc ≠ .pollPreempt) : SameTrack pc pc :=
  ⟨fun _ _ _ _ => id,rfl,rfl,h⟩

theorem sameTrack_sending (site : Site) (chunk : Text) (pieces : List Piece) :
    SameTrack (.draining site) (.sending site chunk pieces) ∧
      SameTrack (.sending site chunk pieces) (.draining site) := by
  cases site <;> exact ⟨⟨fun _ _ _ _ => id,rfl,rfl,by simp⟩,⟨fun _ _ _ _ => id,rfl,rfl,by simp⟩⟩

theorem sameTrack_piece (site : Site) (chunk : Text) (piece : Piece) (rest : List Piece) :
    SameTrack (.sending site chunk (piece :: rest))
      (if rest = [] then .draining site else .sending site chunk rest) := by
  split
  · exact (sameTrack_sending site chunk (piece :: rest)).2
  · cases site <;> exact ⟨fun _ _ _ _ => id,rfl,rfl,by simp⟩

theorem sameTrack_afterDrain {site : Site} (hd : AfterDrain site pc') (hf : pc'.failed = false) :
    SameTrack (.draining site) pc' := by
  cases hd with
  | failed site => cases hf
  | tick => exact ⟨fun _ _ _ _ => id,rfl,rfl,by simp⟩
  | _ => exact ⟨fun _ _ _ _ h => ⟨rfl,h⟩,rfl,rfl,by simp⟩

theorem sameTrack_op {exit : Exit} {op : ExitOp} {rest : List ExitOp} :
    SameTrack (.exiting exit (op :: rest)) (.exiting exit rest) := by
  refine ⟨fun _ _ _ _ => id,?_,rfl,by simp⟩
  cases exit <;> rfl

theorem sameTrack_done {exit : Exit} : SameTrack (.exiting exit []) (.returned exit) := by
  refine ⟨fun _ _ _ _ => id,?_,rfl,by simp⟩
  cases exit <;> rfl

/-- The move follows the round: it stays on its track, and a tick is paid for by the burst. -/
structure Follows (v : View) (r : Round) (slice : ℤ) (ticks : ℕ) (pc pc' : ExecutorPc)
    (x : Option Action) (events : List ServerEvent) : Prop where
  onTrack : OnTrack slice r.quantum (burstAfter v.task.remainingBurst x)
    (ticks + ticksOf r.task events) pc'
  balance : pc'.sawExit = false → pc.sawExit = false ∧
    burstAfter v.task.remainingBurst x + ticksOf r.task events - tickInProgress pc' =
      v.task.remainingBurst - tickInProgress pc

theorem SameTrack.follows (h : SameTrack pc pc')
    (hs : slice = if pc = .pollPreempt ∧ pc' = .loopTest then r.slice + 1 else r.slice)
    (hb : burstAfter v.task.remainingBurst x = v.task.remainingBurst)
    (he : ticksOf r.task events = 0)
    (ht : OnTrack r.slice r.quantum v.task.remainingBurst ticks pc) :
    Follows v r slice ticks pc pc' x events := by
  have hslice : slice = r.slice := by
    rw [hs,if_neg fun hc => h.slice hc.1]
  constructor
  · rw [hb,he,hslice]
    exact h.onTrack _ _ _ _ ht
  · intro hsaw
    rw [hb,he,tickInProgress,tickInProgress,h.ticking]
    exact ⟨h.sawExit ▸ hsaw,by simp⟩

/-- One move keeps the round on its track, and its tick is paid for by the burst. -/
theorem shift_follows (h : Shift v r pc i pc' x events) (hq : 0 < r.quantum)
    (hs : slice = if pc = .pollPreempt ∧ pc' = .loopTest then r.slice + 1 else r.slice)
    (hf : pc'.failed = false) (hty : v.task.type = .program) (hdata : v.task.userData ≠ none)
    (hcancel : (v.shouldCancel || v.task.cancelRequested) = false)
    (ht : OnTrack r.slice r.quantum v.task.remainingBurst ticks pc) :
    Follows v r slice ticks pc pc' x events := by
  cases h with
  | noContext hn => exact (hdata hn).elim
  | shell hshell =>
    rw [hty] at hshell
    cases hshell
  | shellNoLine => exact ht.elim
  | shellDone => exact ht.elim
  | shellNoOutput => exact ht.elim
  | early he => rcases he with rfl | rfl | rfl <;> cases hf
  | cancelled _ _ hc =>
    rw [hcancel] at hc
    cases hc
  | drained hd => exact (sameTrack_afterDrain hd hf).follows hs rfl rfl ht
  | chunk bytes _ _ => exact (sameTrack_sending _ _ _).1.follows hs rfl rfl ht
  | appended _ => exact (SameTrack.refl (by simp)).follows hs rfl rfl ht
  | piece connection _ =>
    exact (sameTrack_piece _ _ _ _).follows hs rfl (by simp [ticksOf]) ht
  | sendFailed => cases hf
  | op _ => exact sameTrack_op.follows hs rfl rfl ht
  | opFailed => exact sameTrack_op.follows hs rfl rfl ht
  | mark _ _ => exact sameTrack_op.follows hs rfl (by simp [ticksOf]) ht
  | done => exact sameTrack_done.follows hs rfl (by simp [ticksOf]) ht
  | program _ =>
    exact (show SameTrack .start .program from ⟨fun _ _ _ _ => id,rfl,rfl,by simp⟩).follows hs rfl
      rfl ht
  | slept =>
    exact (show SameTrack .sleeping (.draining .tick) from
      ⟨fun _ _ _ _ => id,rfl,rfl,by simp⟩).follows hs rfl rfl ht
  | alive =>
    exact (show SameTrack .reap .pollPreempt from ⟨fun _ _ _ _ => id,rfl,rfl,by simp⟩).follows
      hs rfl rfl ht
  | running =>
    obtain rfl : slice = r.slice := by simpa using hs
    simp only [OnTrack] at ht
    refine ⟨?_,fun _ => ⟨rfl,?_⟩⟩
    · simp [OnTrack,ticksOf,burstAfter]
      omega
    · simp [ticksOf,burstAfter,tickInProgress,ExecutorPc.ticking]
  | tick hslice hpos _ =>
    obtain rfl : slice = r.slice := by simpa using hs
    simp only [OnTrack] at ht
    refine ⟨?_,fun _ => ⟨rfl,?_⟩⟩
    · simp [OnTrack,ticksOf,burstAfter]
      omega
    · simp [ticksOf,burstAfter,tickInProgress,ExecutorPc.ticking]
  | loopEnd hend =>
    obtain rfl : slice = r.slice := by simpa using hs
    simp only [OnTrack] at ht
    refine ⟨?_,fun _ => ⟨rfl,?_⟩⟩
    · simp [OnTrack,ticksOf,burstAfter]
      omega
    · simp [ticksOf,burstAfter,tickInProgress,ExecutorPc.ticking]
  | decrement hpos =>
    obtain rfl : slice = r.slice := by simpa using hs
    simp only [OnTrack] at ht
    refine ⟨?_,fun _ => ⟨rfl,?_⟩⟩
    · simp [OnTrack,ticksOf,burstAfter]
      omega
    · simp [ticksOf,burstAfter,tickInProgress,ExecutorPc.ticking]
  | noDecrement hpos =>
    simp only [OnTrack] at ht
    omega
  | reaped =>
    obtain rfl : slice = r.slice := by simpa using hs
    simp only [OnTrack] at ht
    refine ⟨by simp [OnTrack,ticksOf,burstAfter]; omega,fun hsaw => ?_⟩
    cases hsaw
  | preempted _ =>
    obtain rfl : slice = r.slice := by simpa using hs
    simp only [OnTrack] at ht
    refine ⟨?_,fun _ => ⟨rfl,?_⟩⟩
    · simp [OnTrack,ticksOf,burstAfter]
      omega
    · simp [ticksOf,burstAfter,tickInProgress,ExecutorPc.ticking]
  | again _ =>
    obtain rfl : slice = r.slice + 1 := by simpa using hs
    simp only [OnTrack] at ht
    refine ⟨?_,fun _ => ⟨rfl,?_⟩⟩
    · simp [OnTrack,ticksOf,burstAfter]
      omega
    · simp [ticksOf,burstAfter,tickInProgress,ExecutorPc.ticking]
  | quantumEnd _ =>
    exact (show SameTrack .afterLoop (.draining .quantumEnd) from
      ⟨fun _ _ _ _ => id,rfl,rfl,by simp⟩).follows hs rfl rfl ht
  | wait _ =>
    exact (show SameTrack .afterLoop .waitChild from
      ⟨fun _ _ _ _ => id,rfl,rfl,by simp⟩).follows hs rfl rfl ht
  | noWait _ =>
    exact (show SameTrack .afterLoop (.draining .final) from
      ⟨fun _ _ _ _ => id,rfl,rfl,by simp⟩).follows hs rfl rfl ht
  | waited =>
    exact (show SameTrack .waitChild (.draining .final) from
      ⟨fun _ _ _ _ => id,rfl,rfl,by simp⟩).follows hs rfl rfl ht

end Moves

section Account
variable (config : SchedulerConfig) (burst : ℤ) (t : TaskRef)

/-- The books of a task that was submitted with the burst, while nobody cancels it. -/
structure RoundBooks (s : State TaskLists) (r : Round) : Prop where
  rounds : (s.sched.tasks t).roundsCompleted + 1 = dispatchesOf t s.sched.events
  quantum : r.quantum = if dispatchesOf t s.sched.events = 1 then config.firstRoundQuantum
    else config.laterRoundQuantum
  onTrack : OnTrack r.slice r.quantum (s.sched.tasks t).remainingBurst
    (ticksInRound t s.world.log) r.pc
  failed : r.pc.failed = false
  paid : dispatchesOf t s.sched.events + ticksInRound t s.world.log ≤ ticksOf t s.world.log + 1
  balance : r.pc.sawExit = false → (s.sched.tasks t).remainingBurst + ticksOf t s.world.log =
    burst + tickInProgress r.pc

structure Books (s : State TaskLists) : Prop where
  nonneg : 0 ≤ (s.sched.tasks t).remainingBurst
  dispatches : dispatchesOf t s.sched.events ≤ burst
  waiting : t ∈ s.sched.queue.waiting → 0 < (s.sched.tasks t).remainingBurst ∧
    (s.sched.tasks t).remainingBurst + ticksOf t s.world.log = burst ∧
    dispatchesOf t s.sched.events ≤ ticksOf t s.world.log ∧
    (s.sched.tasks t).roundsCompleted = dispatchesOf t s.sched.events
  round : ∀ r, s.world.round = some r → r.task = t → RoundBooks config burst t s r

/-- What the books rest on. -/
structure KeepsBooks (s : State TaskLists) : Prop where
  coherent : Coherent s
  configured : s.sched.config = initConfig (some config)
  lt : t < s.sched.allocated
  type : (s.sched.tasks t).type = .program
  argv : Event.cleanup t ∉ s.sched.events → (s.world.contexts t).argv ≠ none
  books : (s.sched.tasks t).cancelRequested = false → Books config burst t s

variable {config burst t} {s s' : State TaskLists} {a : ServerAction}

theorem ticksInRound_append {new log : List ServerEvent} (h : .invoked t ∉ new) :
    ticksInRound t (new ++ log) = ticksOf t new + ticksInRound t log := by
  have hall : ∀ e ∈ new, decide (e ≠ ServerEvent.invoked t) = true := by
    intro e he
    apply decide_eq_true
    rintro rfl
    exact h he
  rw [ticksInRound,List.takeWhile_append_of_pos hall,ticksOf_append]
  rfl

/-- A step that is not about the task. -/
theorem Books.congr (h : Books config burst t s)
    (hb : (s'.sched.tasks t).remainingBurst = (s.sched.tasks t).remainingBurst)
    (hr : (s'.sched.tasks t).roundsCompleted = (s.sched.tasks t).roundsCompleted)
    (hd : dispatchesOf t s'.sched.events = dispatchesOf t s.sched.events)
    (hw : t ∈ s'.sched.queue.waiting → t ∈ s.sched.queue.waiting)
    (hround : ∀ r, s'.world.round = some r → r.task = t → s.world.round = some r)
    {new : List ServerEvent} (hlog : s'.world.log = new ++ s.world.log)
    (hticks : ticksOf t new = 0) (hinv : .invoked t ∉ new) : Books config burst t s' := by
  have hall : ticksOf t s'.world.log = ticksOf t s.world.log := by
    rw [hlog,ticksOf_append,hticks,Nat.zero_add]
  have hin : ticksInRound t s'.world.log = ticksInRound t s.world.log := by
    rw [hlog,ticksInRound_append hinv,hticks,Nat.zero_add]
  refine ⟨?_,?_,?_,?_⟩
  · rw [hb]
    exact h.nonneg
  · rw [hd]
    exact h.dispatches
  · intro hwait
    rw [hb,hr,hd,hall]
    exact h.waiting (hw hwait)
  · intro r hr' ht
    obtain ⟨hrounds,hquantum,htrack,hf,hpaid,hbalance⟩ := h.round r (hround r hr' ht) ht
    refine ⟨?_,?_,?_,hf,?_,?_⟩
    · rw [hr,hd]
      exact hrounds
    · rw [hd]
      exact hquantum
    · rw [hb,hin]
      exact htrack
    · rw [hd,hin,hall]
      exact hpaid
    · rw [hb,hall]
      exact hbalance

theorem invoked_byClient {new : List ServerEvent} (h : ∀ e ∈ new, e.byClient = true) :
    ServerEvent.invoked t ∉ new := by
  intro hm
  cases h _ hm

theorem shift_invoked {v : View} {r : Round} {i : Input} {pc pc' : ExecutorPc} {x : Option Action}
    {events : List ServerEvent} (h : Shift v r pc i pc' x events) :
    ServerEvent.invoked t ∉ events := by
  cases h <;> simp

/-- A step of another thread, or of the round of another task. -/
theorem Books.other (new : List ServerEvent) (h : Books config burst t s)
    (ht : t < s.sched.allocated)
    (hs : s'.sched = s.sched ∨ ∃ y, Scheduler.step s.sched y = some s'.sched ∧
      (y = .enter → dispatchesOf t s'.sched.events = dispatchesOf t s.sched.events) ∧
      (s.sched.main.task = some t → y.outside = true))
    (hround : ∀ r, s'.world.round = some r → r.task = t → s.world.round = some r)
    (hlog : s'.world.log = new ++ s.world.log) (hticks : ticksOf t new = 0)
    (hinv : .invoked t ∉ new) : Books config burst t s' := by
  rcases hs with hs | ⟨y,hs,hd,hy⟩
  · apply h.congr _ _ _ _ hround hlog hticks hinv
    · rw [hs]
    · rw [hs]
    · rw [hs]
    · rw [hs]
      exact id
  · apply h.congr _ _ _ _ hround hlog hticks hinv
    · rcases step_remainingBurst hs ht with hb | ⟨b,quantum,rfl,hm,_⟩
      · exact hb
      · cases hy (by rw [hm]; rfl)
    · rcases step_roundsCompleted hs ht with hr | ⟨rfl,quantum,r,hm,_⟩
      · exact hr
      · cases hy (by rw [hm]; rfl)
    · by_cases hx : y = .enter
      · exact hd hx
      · exact step_dispatchesOf hs hx
    · rcases step_waiting hs ht with ⟨hw,_⟩ | ⟨rfl,quantum,r,hm,_⟩
      · exact hw
      · cases hy (by rw [hm]; rfl)

theorem dispatchesOf_dispatch {u : TaskRef} {quantum : ℤ} {events : List Event} :
    dispatchesOf t (.log .dispatch u quantum :: events) =
      dispatchesOf t events + if u = t then 1 else 0 := by
  simp [dispatchesOf,List.countP_cons,Event.dispatched]

theorem ticksInRound_invoked {log : List ServerEvent} : ticksInRound t (.invoked t :: log) = 0 := by
  simp [ticksInRound,ticksOf]

theorem initConfig_quanta (hq : 0 < config.firstRoundQuantum)
    (hq' : 0 < config.laterRoundQuantum) :
    (initConfig (some config)).firstRoundQuantum = config.firstRoundQuantum ∧
      (initConfig (some config)).laterRoundQuantum = config.laterRoundQuantum := by
  simp [initConfig,positiveOr,hq,hq']

/-- A task that waits is dispatched: its round begins with the books in order. -/
theorem Books.dispatched (h : Books config burst t s) (hc : Consistent s) (hc' : Consistent s')
    (hconfig : s.sched.config = initConfig (some config))
    (hq : 0 < config.firstRoundQuantum) (hq' : 0 < config.laterRoundQuantum) {quantum : ℤ}
    (hs : Scheduler.step s.sched .enter = some s'.sched) (ht : t ∈ s.sched.queue.waiting)
    (hm : s'.sched.main = .executing t quantum)
    (hw : s'.world = record { s.world with round := some (newRound t t quantum) } (.invoked t)) :
    Books config burst t s' := by
  obtain ⟨place,hp⟩ := hc.sched.placed
  have hlt := hp.waiting_lt ht
  obtain ⟨hpos,hbalance,hpaid,hrounds⟩ := h.waiting ht
  obtain ⟨hquantum,hev⟩ := step_enter_executing hs hm
  have hb : (s'.sched.tasks t).remainingBurst = (s.sched.tasks t).remainingBurst := by
    rcases step_remainingBurst hs hlt with hb | ⟨b,_,hx,_⟩
    · exact hb
    · cases hx
  have hr : (s'.sched.tasks t).roundsCompleted = (s.sched.tasks t).roundsCompleted := by
    rcases step_roundsCompleted hs hlt with hr | ⟨hx,_⟩
    · exact hr
    · cases hx
  have hd : dispatchesOf t s'.sched.events = dispatchesOf t s.sched.events + 1 := by
    rw [hev,dispatchesOf_dispatch,if_pos rfl]
  have hround : s'.world.round = some (newRound t t quantum) := by rw [hw]; rfl
  have hlog : s'.world.log = .invoked t :: s.world.log := by rw [hw]; rfl
  have hticks : ticksOf t s'.world.log = ticksOf t s.world.log := by
    rw [hlog]
    simp [ticksOf]
  have hzero : ticksInRound t s'.world.log = 0 := by
    rw [hlog]
    exact ticksInRound_invoked
  refine ⟨?_,?_,?_,?_⟩
  · rw [hb]
    exact hpos.le
  · rw [hd]
    push_cast
    omega
  · intro hwait
    exact (hc'.not_waiting hround hwait).elim
  · intro r hr' _
    obtain rfl := Option.some.inj (hround.symm.trans hr')
    refine ⟨?_,?_,?_,rfl,?_,?_⟩
    · rw [hr,hd,hrounds]
    · obtain ⟨hfirst,hlater⟩ := initConfig_quanta hq hq'
      show quantum = _
      rw [hquantum,quantumFor,hconfig,hfirst,hlater,hrounds,hd]
      simp
    · rw [hzero,hb]
      exact ⟨rfl,rfl,hpos⟩
    · rw [hzero,hd,hticks]
      omega
    · intro _
      rw [hb,hticks]
      exact hbalance.trans (add_zero _).symm

/-- The burst after a move is the one that it stored, or the old one. -/
theorem moved_burst {m : Move} (hmain : s.sched.main.task = some t)
    (ht : t < s.sched.allocated)
    (hs : m.action = none ∧ s'.sched = s.sched ∨
      ∃ y, m.action = some y ∧ Scheduler.step s.sched y = some s'.sched) :
    (s'.sched.tasks t).remainingBurst =
      burstAfter (s.sched.tasks t).remainingBurst m.action := by
  rcases hs with ⟨hx,hs⟩ | ⟨y,hx,hs⟩
  · rw [hx,hs]
    rfl
  · rw [hx]
    by_cases hy : ∃ b, y = .setBurst b
    · obtain ⟨b,rfl⟩ := hy
      obtain ⟨u,quantum,hm,hse⟩ := step_setBurst hs
      obtain rfl : u = t := by
        rw [hm] at hmain
        exact Option.some.inj hmain
      rw [hse]
      simp [setTask,burstAfter]
    · have hburst : burstAfter (s.sched.tasks t).remainingBurst (some y) =
          (s.sched.tasks t).remainingBurst := by
        unfold burstAfter
        split
        · rename_i b hb
          exact (hy ⟨b,Option.some.inj hb⟩).elim
        · rfl
      rw [hburst]
      rcases step_remainingBurst hs ht with hb | ⟨b,_,hb,_⟩
      · exact hb
      · exact (hy ⟨b,hb⟩).elim

/-- A move of the task's own round. -/
theorem Books.moved (h : Books config burst t s) (hc : Consistent s) (hc' : Consistent s')
    (hq : 0 < config.firstRoundQuantum) (hq' : 0 < config.laterRoundQuantum) {r : Round} {i : Input}
    {m : Move} (hr : s.world.round = some r) (ht : r.task = t)
    (hm : serverTaskExecutor (view s.sched.toCore s.world r) r i = some m)
    (hi : i.succeeds = true) (hargv : (s.world.contexts t).argv ≠ none)
    (hty : (s.sched.tasks t).type = .program)
    (hcancel : (s.sched.tasks t).cancelRequested = false)
    (hw : s'.world = applyMove s.world m)
    (hs : m.action = none ∧ s'.sched = s.sched ∨
      ∃ y, m.action = some y ∧ Scheduler.step s.sched y = some s'.sched) :
    Books config burst t s' := by
  subst ht
  have hmoved := serverTaskExecutor_moved hm
  have hlt := hc.task_lt hr
  obtain ⟨hrounds,hquantum,htrack,hf,hpaid,hbalance⟩ := h.round r hr rfl
  have hpos : 0 < r.quantum := by
    rw [hquantum]
    split
    · exact hq
    · exact hq'
  have hround : s'.world.round = some m.round := by rw [hw]; rfl
  have hb : (s'.sched.tasks r.task).remainingBurst =
      burstAfter (s.sched.tasks r.task).remainingBurst m.action := by
    apply moved_burst _ hlt hs
    rw [hc.sched.counted.main_task,hc.current hr]
  have hy : ∀ y, m.action = some y → y ≠ .enter ∧ y ≠ .finish := by
    intro y hy
    rcases shift_main hmoved.shift with ⟨_,_,hx | ⟨b,hx⟩⟩ | ⟨exit,_,_,hx⟩ <;> rw [hy] at hx <;>
      cases hx <;> simp
  have hd : dispatchesOf r.task s'.sched.events = dispatchesOf r.task s.sched.events := by
    rcases hs with ⟨_,hs⟩ | ⟨y,hx,hs⟩
    · rw [hs]
    · exact step_dispatchesOf hs (hy y hx).1
  have hrc : (s'.sched.tasks r.task).roundsCompleted = (s.sched.tasks r.task).roundsCompleted := by
    rcases hs with ⟨_,hs⟩ | ⟨y,hx,hs⟩
    · rw [hs]
    · exact (step_roundsCompleted hs hlt).resolve_right fun hfin => (hy y hx).2 hfin.1
  have hlog : s'.world.log = m.events ++ s.world.log := by rw [hw]; rfl
  have hall : ticksOf r.task s'.world.log =
      ticksOf r.task m.events + ticksOf r.task s.world.log := by
    rw [hlog,ticksOf_append]
  have hin : ticksInRound r.task s'.world.log =
      ticksOf r.task m.events + ticksInRound r.task s.world.log := by
    rw [hlog]
    exact ticksInRound_append (shift_invoked hmoved.shift)
  have hcontext := (hc.running r hr).2
  have hf' : m.round.pc.failed = false := by
    apply serverTaskExecutor_smooth hm hi _ hf
    rw [← hcontext] at hargv
    exact hargv
  have hfollows : Follows (view s.sched.toCore s.world r) r m.round.slice
      (ticksInRound r.task s.world.log) r.pc m.round.pc m.action m.events := by
    apply shift_follows hmoved.shift hpos (serverTaskExecutor_slice hm) hf' hty
    · rw [view,hc.named _ hlt]
      exact Option.some_ne_none _
    · rw [hc.view_cancel hr]
      exact hcancel
    · exact htrack
  have htrack' : OnTrack m.round.slice m.round.quantum (s'.sched.tasks r.task).remainingBurst
      (ticksInRound r.task s'.world.log) m.round.pc := by
    rw [hmoved.quantum,hb,hin,Nat.add_comm]
    exact hfollows.onTrack
  refine ⟨htrack'.nonneg,?_,?_,?_⟩
  · rw [hd]
    exact h.dispatches
  · intro hwait
    refine (hc'.not_waiting hround ?_).elim
    rw [hmoved.task]
    exact hwait
  · intro r' hr' _
    obtain rfl := Option.some.inj (hround.symm.trans hr')
    refine ⟨?_,?_,htrack',hf',?_,?_⟩
    · rw [hrc,hd]
      exact hrounds
    · rw [hmoved.quantum,hd]
      exact hquantum
    · rw [hd,hin,hall]
      omega
    · intro hsaw
      obtain ⟨hsaw₀,hpay⟩ := hfollows.balance hsaw
      have hold := hbalance hsaw₀
      have hpay' : burstAfter (s.sched.tasks r.task).remainingBurst m.action +
          ticksOf r.task m.events - tickInProgress m.round.pc =
            (s.sched.tasks r.task).remainingBurst - tickInProgress r.pc := hpay
      rw [hb,hall]
      push_cast
      omega

/-- The end of the task's own round. -/
theorem Books.finished (h : Books config burst t s) (hc : Consistent s) {r : Round} {exit : Exit}
    (hr : s.world.round = some r) (ht : r.task = t) (hp : r.pc = .returned exit)
    (hs : Scheduler.step s.sched .finish = some s'.sched)
    (hse : s'.sched = schedulerMainFinish s.sched r.task r.quantum (exitResult exit))
    (hr' : s'.world.round = none) {new : List ServerEvent}
    (hlog : s'.world.log = new ++ s.world.log)
    (hnew : ∀ e ∈ new, e.byClient = true) : Books config burst t s' := by
  obtain ⟨hrounds,_,htrack,_,hpaid,hbalance⟩ := h.round r hr ht
  have hlt : t < s.sched.allocated := ht ▸ hc.task_lt hr
  have hb : (s'.sched.tasks t).remainingBurst = (s.sched.tasks t).remainingBurst := by
    rcases step_remainingBurst hs hlt with hb | ⟨b,_,hx,_⟩
    · exact hb
    · cases hx
  have hd : dispatchesOf t s'.sched.events = dispatchesOf t s.sched.events :=
    step_dispatchesOf hs (by simp)
  have hticks : ticksOf t s'.world.log = ticksOf t s.world.log := by
    rw [hlog,ticksOf_append,ticks_byClient hnew,Nat.zero_add]
  refine ⟨?_,?_,?_,?_⟩
  · rw [hb]
    exact h.nonneg
  · rw [hd]
    exact h.dispatches
  · intro hwait
    rw [ht] at hse
    rcases finish_cases s.sched t r.quantum (exitResult exit) with ⟨hmay,he⟩ | ⟨_,_,_,he,_⟩
    · rw [← hse] at he
      have hsaw : r.pc.sawExit = false := by
        rw [hp]
        cases exit with
        | reaped => cases hmay.1
        | _ => rfl
      have hbal := hbalance hsaw
      rw [hp] at htrack hbal
      have htick : tickInProgress (.returned exit) = 0 := rfl
      have hrc : (s'.sched.tasks t).roundsCompleted = (s.sched.tasks t).roundsCompleted + 1 := by
        rw [he]
        simp
      have hran := htrack.2.1
      rw [hb,hticks,hd,hrc]
      refine ⟨hmay.2.2,?_,?_,hrounds⟩
      · rw [hbal,htick,add_zero]
      · omega
    · rw [hse,he] at hwait
      exact (ht ▸ hc.not_waiting hr : t ∉ s.sched.queue.waiting) hwait |>.elim
  · intro r' hr''
    rw [hr'] at hr''
    cases hr''

theorem cancel_mono (h : RoundStep s s' a) (ht : t < s.sched.allocated)
    (hcancel : (s'.sched.tasks t).cancelRequested = false) :
    (s.sched.tasks t).cancelRequested = false := by
  rcases h.sched with hs | ⟨y,hs,_⟩
  · rw [hs] at hcancel
    exact hcancel
  · by_contra hc
    have hc' := (step_continues hs ht).cancelRequested (by simpa using hc)
    rw [hcancel] at hc'
    cases hc'

theorem step_books (h : KeepsBooks config burst t s) (hok : smooth t s.sched.toCore s.world a)
    (hq : 0 < config.firstRoundQuantum) (hq' : 0 < config.laterRoundQuantum)
    (he : serverStep s a = some s') (hcancel : (s.sched.tasks t).cancelRequested = false) :
    Books config burst t s' := by
  have hc := h.coherent.1
  have hlt := h.lt
  have hbooks := h.books hcancel
  have hmain : ∀ r, s.world.round = some r → r.task ≠ t → s.sched.main.task ≠ some t := by
    intro r hr hrt
    rw [(hc.running r hr).1,mainOf_task]
    exact fun hcur => hrt (Option.some.inj hcur)
  cases serverStep_shape hc he with
  | outside ha hw hs =>
    obtain ⟨new,hlog,hnew⟩ := hw.log
    apply hbooks.other new hlt _ _ hlog (ticks_byClient hnew) (invoked_byClient hnew)
    · rcases hs with hs | ⟨y,hy,_,hs⟩
      · exact Or.inl hs
      · refine Or.inr ⟨y,hs,?_,fun _ => hy⟩
        rintro rfl
        cases hy
    · intro r hr _
      rw [← hw.round]
      exact hr
  | @exec i r m hr hm hw hs =>
    by_cases hrt : r.task = t
    · subst hrt
      obtain ⟨r₀,m₀,hr₀,hm₀,hw₀,hs₀⟩ := serverStep_executor he
      obtain rfl := Option.some.inj (hr.symm.trans hr₀)
      obtain ⟨place,hp⟩ := hc.sched.placed
      have hargv := h.argv fun hz => hp.finalised_not_current hz (hc.current hr)
      exact hbooks.moved hc (step_consistent hc he) hq hq' hr rfl hm₀ (hok r hr rfl) hargv h.type
        hcancel hw₀ hs₀
    · apply hbooks.other m.events hlt _ _ _ (shift_ticks hm.shift hrt) (shift_invoked hm.shift)
      · rcases hs with ⟨_,hs⟩ | ⟨y,hy,hs⟩
        · exact Or.inl hs
        · refine Or.inr ⟨y,hs,?_,fun hcur => (hmain r hr hrt hcur).elim⟩
          rintro rfl
          rcases shift_main hm.shift with ⟨_,_,hx | ⟨b,hx⟩⟩ | ⟨exit,_,_,hx⟩ <;> rw [hy] at hx <;>
            cases hx
      · intro r' hr' ht'
        rw [hw] at hr'
        obtain rfl := Option.some.inj hr'
        exact (hrt (hm.task ▸ ht')).elim
      · rw [hw]
        rfl
  | idle hr hs hmain' hw =>
    apply hbooks.other [] hlt _ _ (by rw [hw]; rfl) rfl (by simp)
    · refine Or.inr ⟨.enter,hs,?_,?_⟩
      · intro _
        rcases step_dispatches hs with ⟨_,_,new,hev,hnew⟩ | ⟨_,_,u,q,_,hse⟩
        · rw [hev]
          exact dispatchesOf_append new hnew
        · rw [hse] at hmain'
          cases hmain'
      · intro hcur
        rw [hc.idle hr] at hcur
        cases hcur
    · intro r hr' _
      rw [hw,hr] at hr'
      cases hr'
  | @dispatch u quantum hr hs hu hmain' hcur hw =>
    by_cases hut : u = t
    · subst hut
      exact hbooks.dispatched hc (step_consistent hc he) h.configured hq hq' hs hu hmain' hw
    · apply hbooks.other [.invoked u] hlt _ _ (by rw [hw]; rfl) (by simp [ticksOf])
        (by simpa using Ne.symm hut)
      · refine Or.inr ⟨.enter,hs,?_,?_⟩
        · intro _
          rw [(step_enter_executing hs hmain').2,dispatchesOf_dispatch,if_neg hut,add_zero]
        · intro hcur'
          rw [hc.idle hr] at hcur'
          cases hcur'
      · intro r hr' ht'
        rw [hw] at hr'
        obtain rfl := Option.some.inj hr'
        exact (hut ht').elim
  | @finish r exit hr hp hs hse hr' hw =>
    obtain ⟨new,hlog,hnew⟩ := hw.log
    by_cases hrt : r.task = t
    · exact hbooks.finished hc hr hrt hp hs hse hr' hlog hnew
    · apply hbooks.other new hlt _ _ hlog (ticks_byClient hnew) (invoked_byClient hnew)
      · refine Or.inr ⟨.finish,hs,?_,fun hcur => (hmain r hr hrt hcur).elim⟩
        intro hx
        cases hx
      · intro r' hr''
        rw [hr'] at hr''
        cases hr''

theorem KeepsBooks.step (h : KeepsBooks config burst t s)
    (hok : smooth t s.sched.toCore s.world a) (hq : 0 < config.firstRoundQuantum)
    (hq' : 0 < config.laterRoundQuantum) (he : serverStep s a = some s') :
    KeepsBooks config burst t s' := by
  have hc := h.coherent.1
  have hshape := serverStep_shape hc he
  have hcoherent := step_coherent h.coherent he
  have hlt := h.lt.trans_le hshape.allocated
  refine ⟨hcoherent,?_,hlt,?_,?_,?_⟩
  · rcases hshape.sched with hs | ⟨y,hs,_⟩
    · rw [hs]
      exact h.configured
    · rw [step_config hs]
      exact h.configured
  · rcases hshape.sched with hs | ⟨y,hs,_⟩
    · rw [hs]
      exact h.type
    · rw [(step_continues hs h.lt).type]
      exact h.type
  · intro hz
    have hargv : (s.world.contexts t).argv ≠ none := by
      apply h.argv
      intro hz₀
      rcases hshape.sched with hs | ⟨y,hs,_⟩
      · rw [hs] at hz
        exact hz hz₀
      · exact hz ((step_cleanup_iff hs).mpr (Or.inr hz₀))
    rcases serverStep_keeps hc he h.lt (hcoherent.refcount hlt hz) with hkeeps | ⟨i,r,rfl,hr,hrt⟩
    · rw [hkeeps]
      exact hargv
    · obtain ⟨r₀,m,hr₀,hm,hw,_⟩ := serverStep_executor he
      obtain rfl := Option.some.inj (hr.symm.trans hr₀)
      subst hrt
      rw [hw,(serverTaskExecutor_moved hm).contexts,Function.update_self,
        serverTaskExecutor_argv hm]
      exact hargv
  · intro hcancel
    exact step_books h hok hq hq' he (cancel_mono hshape h.lt hcancel)

/-- Nothing was dispatched or ran under the names that are still free. -/
def Unheard (s : State TaskLists) : Prop :=
  ∀ u, s.sched.allocated ≤ u → dispatchesOf u s.sched.events = 0 ∧ ticksOf u s.world.log = 0

theorem step_unheard (h : Unheard s) (hc : Consistent s) (he : serverStep s a = some s') :
    Unheard s' := by
  have hshape := serverStep_shape hc he
  intro u hu
  have hu₀ := hshape.allocated.trans hu
  obtain ⟨hd,ht⟩ := h u hu₀
  constructor
  · rcases hshape.sched with hs | ⟨y,hs,_⟩
    · rw [hs]
      exact hd
    · by_cases hy : y = .enter
      · subst hy
        rcases step_dispatches hs with ⟨_,_,new,hev,hnew⟩ | ⟨_,_,k,q,hq,hse⟩
        · rw [hev,dispatchesOf_append new hnew]
          exact hd
        · obtain ⟨place,hp⟩ := hc.sched.placed
          have hk := hp.waiting_lt (nextTask_mem (dequeue_some hq).1)
          rw [hse]
          simp only [dispatchTask_frame]
          rw [dispatchesOf_dispatch,if_neg (hk.trans_le hu₀).ne,add_zero]
          exact hd
      · rw [step_dispatchesOf hs hy]
        exact hd
  · obtain ⟨new,hlog,hnew⟩ := hshape.newEvents
    rw [hlog,ticksOf_append,ht,add_zero]
    cases hnew with
    | client hclient => exact ticks_byClient hclient
    | invoked => simp [ticksOf]
    | moved hr hm => exact shift_ticks hm.shift ((hc.task_lt hr).trans_le hu₀).ne

/-- The books are opened when a request for a program is accepted. -/
theorem accepted_books {c : ThreadId} {command : Text} {argv : List Text} (h : Coherent s)
    (hun : Unheard s) (hconfig : s.sched.config = initConfig (some config)) (hburst : 1 ≤ burst)
    (he : serverStep s (.request c (.program command argv burst)) = some s') :
    KeepsBooks config burst s.sched.allocated s' := by
  obtain ⟨hs,hw⟩ := serverStep_program he
  obtain ⟨hallocated,hty,hb,hr⟩ := submit_program rfl hburst hs
  obtain ⟨hd,ht⟩ := hun s.sched.allocated le_rfl
  have hd' : dispatchesOf s.sched.allocated s'.sched.events = 0 := by
    rw [step_dispatchesOf hs (by simp)]
    exact hd
  have hlog : s'.world.log = s.world.log := by rw [hw]; rfl
  have hround : s'.world.round = s.world.round := by rw [hw]; rfl
  have hb' : (s'.sched.tasks s.sched.allocated).remainingBurst = burst := hb
  refine ⟨step_coherent h he,?_,?_,hty,?_,?_⟩
  · rw [step_config hs]
    exact hconfig
  · rw [hallocated]
    exact Nat.lt_succ_self _
  · intro _
    rw [hw]
    simp [submitTask,setPc,setContext,createProgramTask]
  · intro _
    refine ⟨?_,?_,?_,?_⟩
    · rw [hb']
      omega
    · rw [hd']
      push_cast
      omega
    · intro _
      rw [hb',hr,hd',hlog,ht]
      exact ⟨hburst,by simp,le_rfl,rfl⟩
    · intro r hr hrt
      rw [hround] at hr
      exact absurd (hrt ▸ h.1.task_lt hr) (lt_irrefl _)

end Account

section Linked
variable {config : SchedulerConfig} {burst : ℤ} {t : TaskRef} {c : ThreadId} {command : Text}
  {argv : List Text} {u v s : State TaskLinks}

/-- The burst of a task, its ticks and its dispatches at any point of a run. -/
structure BurstAccount (config : SchedulerConfig) (burst : ℤ) (t : TaskRef)
    (s : State TaskLinks) : Prop where
  quantum : ∀ r, s.world.round = some r → r.task = t → r.quantum =
    if dispatchesOf t s.sched.events = 1 then config.firstRoundQuantum
    else config.laterRoundQuantum
  /-- The ticks of a round, and of a round that is over. -/
  ticks : ∀ r, s.world.round = some r → r.task = t → ticksInRound t s.world.log ≤ r.quantum ∧
    ∀ exit, r.pc = .returned exit → 1 ≤ ticksInRound t s.world.log
  /-- Between the rounds, and in a round until the exit of the child is seen. -/
  waiting : t ∈ waitingRecords s.sched.allocated s.sched.queue →
    burst = (s.sched.tasks t).remainingBurst + ticksOf t s.world.log
  running : ∀ r, s.world.round = some r → r.task = t → r.pc.sawExit = false →
    burst = (s.sched.tasks t).remainingBurst + ticksOf t s.world.log - tickInProgress r.pc
  nonneg : 0 ≤ (s.sched.tasks t).remainingBurst
  dispatches : dispatchesOf t s.sched.events ≤ burst

theorem KeepsBooks.burstAccount {l : State TaskLists} (h : KeepsBooks config burst t l)
    (hq : 0 < config.firstRoundQuantum) (hq' : 0 < config.laterRoundQuantum)
    (hr : ServerRefines s l) (hcancel : (s.sched.tasks t).cancelRequested = false) :
    BurstAccount config burst t s := by
  have hcore := hr.sched.core
  have hwaiting := hr.sched.waitingRecords
  rw [hcore] at hcancel
  obtain ⟨hnonneg,hdispatches,hwait,hround⟩ := h.books hcancel
  refine ⟨?_,?_,?_,?_,?_,?_⟩
  · intro r hr₀ ht
    rw [hr.world] at hr₀
    rw [hcore]
    exact (hround r hr₀ ht).quantum
  · intro r hr₀ ht
    rw [hr.world] at hr₀ ⊢
    have hbooks := hround r hr₀ ht
    have hpos : 0 < r.quantum := by
      rw [hbooks.quantum]
      split
      · exact hq
      · exact hq'
    refine ⟨hbooks.onTrack.ticks_le hpos,?_⟩
    intro exit hp
    have htrack := hbooks.onTrack
    rw [hp] at htrack
    exact htrack.2.1
  · intro ht
    rw [hwaiting] at ht
    rw [hcore,hr.world]
    exact (hwait ht).2.1.symm
  · intro r hr₀ ht hsaw
    rw [hr.world] at hr₀ ⊢
    rw [hcore]
    have hbalance := (hround r hr₀ ht).balance hsaw
    omega
  · rw [hcore]
    exact hnonneg
  · rw [hcore]
    exact hdispatches

/-- A program that was accepted with a burst keeps its books, whatever the preemptions and
the exit of its child. -/
theorem burst_accounted (hq : 0 < config.firstRoundQuantum) (hq' : 0 < config.laterRoundQuantum)
    (hu : Reaches (Fires serverStep) (serverInitWith TaskLinks config) u) (hburst : 1 ≤ burst)
    (he : serverStep u (.request c (.program command argv burst)) = some v)
    (hs : Reaches (FiresIf (fun s => smooth u.sched.allocated s.sched.toCore s.world) serverStep)
      v s)
    (hcancel : (s.sched.tasks u.sched.allocated).cancelRequested = false) :
    BurstAccount config burst u.sched.allocated s := by
  obtain ⟨as,hrun⟩ := hu
  obtain ⟨l,hl,hr⟩ := serverRuns_refines (serverRefines_initWith config) hrun
  obtain ⟨l',he',hr'⟩ := serverStep_refines hr he
  obtain ⟨l'',hs',hr''⟩ := serverReaches_refines hr' hs
  have hstart : Coherent l ∧ Unheard l ∧ l.sched.config = initConfig (some config) := by
    apply hl.invariant
      (P := fun l => Coherent l ∧ Unheard l ∧ l.sched.config = initConfig (some config))
    · rintro s a s' ⟨hc,hun,hconfig⟩ he
      refine ⟨step_coherent hc he,step_unheard hun hc.1 he,?_⟩
      rcases (serverStep_shape hc.1 he).sched with hs | ⟨y,hs,_⟩
      · rw [hs]
        exact hconfig
      · rw [step_config hs]
        exact hconfig
    · exact ⟨coherent_init config,fun _ _ => ⟨rfl,rfl⟩,rfl⟩
  obtain ⟨hc,hun,hconfig⟩ := hstart
  have hbooks := accepted_books hc hun hconfig hburst he'
  rw [hr.sched.core] at hs' hcancel ⊢
  have hend := hs'.invariant (P := KeepsBooks config burst l.sched.allocated)
    (fun s a s' hk hstep => hk.step hstep.1 hq hq' hstep.2) hbooks
  exact hend.burstAccount hq hq' hr'' hcancel

def shortQuanta : SchedulerConfig := ⟨2,3,5⟩

/-- A demo of four seconds loses the processor to a shell command after its first. -/
def interruptedDemo : List ServerAction :=
  [.enter,.exec .go,.exec (.started true),.accept 5,.request 1 (.shell "ls".toList),.exec .go,
   .exec .go,.exec .readAgain,.exec .go,.exec .go,.exec .go,.exec .readAgain,.exec .go,.exec .go,
   .exec .go,.finish]

theorem burst_accounted_interruptedDemo :
    ∃ u v s : State TaskLinks,
      exec serverStep (serverInitWith TaskLinks shortQuanta) [.accept 4] = some u ∧
      serverStep u (.request 0 (.program "./demo 4".toList ["./demo".toList,"4".toList] 4)) =
        some v ∧
      exec (guarded (fun s : State TaskLinks => smooth 0 s.sched.toCore s.world) serverStep) v
        interruptedDemo = some s ∧
      (s.sched.tasks 0).remainingBurst = 3 ∧ BurstAccount shortQuanta 4 0 s := by
  obtain ⟨u,hu⟩ := Option.isSome_iff_exists.mp
    (show (exec serverStep (serverInitWith TaskLinks shortQuanta) [.accept 4]).isSome = true
      from rfl)
  obtain ⟨v,hv⟩ := Option.isSome_iff_exists.mp
    (show (serverStep u (.request 0 (.program "./demo 4".toList ["./demo".toList,"4".toList]
      4))).isSome = true from by cases hu; rfl)
  obtain ⟨s,hs⟩ := Option.isSome_iff_exists.mp
    (show (exec (guarded (fun s : State TaskLinks => smooth 0 s.sched.toCore s.world) serverStep) v
      interruptedDemo).isSome = true from by cases hu; cases hv; rfl)
  have hn : u.sched.allocated = 0 := by
    cases hu
    rfl
  have hreach := reaches_of_guarded hs
  rw [← hn] at hreach
  refine ⟨u,v,s,hu,hv,hs,?_,?_⟩
  · cases hu
    cases hv
    cases hs
    decide
  · rw [← hn]
    apply burst_accounted (by decide) (by decide) (reaches_of_exec hu) (by decide) hv hreach
    rw [hn]
    cases hu
    cases hv
    cases hs
    rfl

end Linked

end UnixShell.Server
