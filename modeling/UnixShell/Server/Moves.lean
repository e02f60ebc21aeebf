import UnixShell.Server.Executor

/-! # What one step of the executor can do

The moves of control with the conditions under which they are taken, the scheduler
action and the events that go with them. A move touches its own context only, and
there neither the socket nor the burst; only `set_done` marks it done.
-/
namespace UnixShell.Server
open Scheduler

def ServerEvent.isDone : ServerEvent → Bool
  | .setDone _ => true
  | _ => false

/-- The operation may mark the context done. -/
def ExitOp.marks : ExitOp → Bool
  | .fail _ => true
  | .setDone _ _ => true
  | .finishDone => true
  | _ => false

/-- An exit taken inside the loop or after it, once the drain at the site is over. -/
inductive AfterDrain : Site → ExecutorPc → Prop
  | tick : AfterDrain .tick .decrement
  | reaped : AfterDrain .reaped (.exiting .reaped (exitOps .reaped))
  | preempted : AfterDrain .preempted (.exiting .preempted (exitOps .preempted))
  | quantumEnd : AfterDrain .quantumEnd (.exiting .quantumEnd (exitOps .quantumEnd))
  | final : AfterDrain .final (.exiting .final (exitOps .final))
  | failed (site : Site) :
      AfterDrain site (.exiting (.drainFailed site) (exitOps (.drainFailed site)))

/-- The exits of the code before the loop, and of shell tasks. -/
def Exit.early : Exit → Bool
  | .noContext => true
  | .noArgv => true
  | .startFailed => true
  | .resumeFailed => true
  | .shellNoLine => true
  | .shellDone _ _ => true
  | .shellNoOutput => true
  | _ => false

/-- One move of control, with its action and its events. -/
inductive Shift (v : View) (r : Round) :
    ExecutorPc → Input → ExecutorPc → Option Action → List ServerEvent → Prop
  | noContext : v.task.userData = none →
      Shift v r .start .go (.exiting .noContext []) none []
  | shell : v.task.type = .shell → Shift v r .start .go .shell none []
  | program : v.task.type = .program → Shift v r .start .go .program none []
  | shellNoLine (e : Bool) (captured : Option Text) (textOk : Bool) :
      Shift v r .shell (.shellRun false e captured textOk)
        (.exiting .shellNoLine (exitOps .shellNoLine)) none []
  | shellDone {i : Input} (e : Bool) (output : Text) :
      Shift v r .shell i (.exiting (.shellDone e output) (exitOps (.shellDone e output))) none []
  | shellNoOutput (e : Bool) :
      Shift v r .shell (.shellRun true e none false) (.exiting .shellNoOutput []) none []
  | early {i : Input} {exit : Exit} :
      exit = .noArgv ∨ exit = .startFailed ∨ exit = .resumeFailed →
      Shift v r .program i (.exiting exit (exitOps exit)) none []
  | running {i : Input} : Shift v r .program i .loopTest none []
  | cancelled : r.slice < r.quantum → 0 < v.task.remainingBurst →
      (v.shouldCancel || v.task.cancelRequested) = true →
      Shift v r .loopTest .go (.exiting .cancelled (exitOps .cancelled)) none []
  | tick : r.slice < r.quantum → 0 < v.task.remainingBurst →
      (v.shouldCancel || v.task.cancelRequested) = false →
      Shift v r .loopTest .go .sleeping none [.tick r.task]
  | loopEnd : ¬ (r.slice < r.quantum ∧ 0 < v.task.remainingBurst) →
      Shift v r .loopTest .go .afterLoop none []
  | slept : Shift v r .sleeping .go (.draining .tick) none []
  | drained {i : Input} {site : Site} {pc : ExecutorPc} :
      AfterDrain site pc → Shift v r (.draining site) i pc none []
  | chunk {i : Input} {site : Site} (bytes : Text) :
      streams v.context = true → bytes ≠ [] →
      Shift v r (.draining site) i (.sending site bytes (packetPieces .serverProgress bytes)) none []
  | appended {i : Input} {site : Site} : streams v.context = false →
      Shift v r (.draining site) i (.draining site) none []
  | piece {site : Site} {bytes : Text} {piece : Piece} {rest : List Piece}
      (connection : ThreadId) : v.connection = some connection →
      Shift v r (.sending site bytes (piece :: rest)) (.sent true)
        (if rest = [] then .draining site else .sending site bytes rest) none
        [.progress connection r.context piece]
  | sendFailed {site : Site} {bytes : Text} {pieces : List Piece} :
      Shift v r (.sending site bytes pieces) (.sent false)
        (.exiting (.drainFailed site) (exitOps (.drainFailed site))) none [.sendFailed r.context]
  | decrement : 0 < v.task.remainingBurst →
      Shift v r .decrement .go .reap (some (.setBurst (v.task.remainingBurst - 1))) []
  | noDecrement : ¬ 0 < v.task.remainingBurst → Shift v r .decrement .go .reap none []
  | reaped : Shift v r .reap .go (.draining .reaped) (some (.setBurst 0)) []
  | alive : Shift v r .reap .go .pollPreempt none []
  | preempted : v.shouldPreempt = true →
      Shift v r .pollPreempt .go (.draining .preempted) none [.polled r.task]
  | again : v.shouldPreempt = false →
      Shift v r .pollPreempt .go .loopTest none [.polled r.task]
  | quantumEnd : 0 < v.task.remainingBurst →
      Shift v r .afterLoop .go (.draining .quantumEnd) none []
  | wait : ¬ 0 < v.task.remainingBurst → Shift v r .afterLoop .go .waitChild none []
  | noWait : ¬ 0 < v.task.remainingBurst → Shift v r .afterLoop .go (.draining .final) none []
  | waited : Shift v r .waitChild .go (.draining .final) none []
  | op {exit : Exit} {op : ExitOp} {rest : List ExitOp} {i : Input} :
      op.marks = false →
      Shift v r (.exiting exit (op :: rest)) i (.exiting exit rest) none []
  | opFailed {exit : Exit} {message : String} {rest : List ExitOp} :
      Shift v r (.exiting exit (.fail message :: rest)) (.allocated false)
        (.exiting exit rest) none []
  | mark {exit : Exit} {op : ExitOp} {rest : List ExitOp} {i : Input} :
      op.marks = true → (∀ message, op = .fail message → i = .allocated true) →
      Shift v r (.exiting exit (op :: rest)) i (.exiting exit rest) none [.setDone r.context]
  | done {exit : Exit} :
      Shift v r (.exiting exit []) .go (.returned exit) (some (.result (exitResult exit)))
        [.roundEnded r.task]

/-- The move of control together with what no move changes. -/
structure Moved (v : View) (r : Round) (i : Input) (m : Move) : Prop where
  shift : Shift v r r.pc i m.round.pc m.action m.events
  task : m.round.task = r.task
  context : m.round.context = r.context
  quantum : m.round.quantum = r.quantum
  slice : r.pc = .pollPreempt ∨ m.round.slice = r.slice
  done : m.context.done = (v.context.done || m.events.any ServerEvent.isDone)
  socketFd : m.context.socketFd = v.context.socketFd
  initialBurst : m.context.initialBurst = v.context.initialBurst
  status : v.context.responseStatus ≠ .serverProgress →
    m.context.responseStatus ≠ .serverProgress

variable {v : View} {r : Round} {i : Input} {m : Move}

/-- A move of control that changes nothing else. -/
theorem moved_goto {pc : ExecutorPc} (h : Shift v r r.pc i pc none []) :
    Moved v r i (goto v r pc) :=
  ⟨h,rfl,rfl,rfl,Or.inr rfl,by simp [goto],rfl,rfl,id⟩

theorem drained_true (site : Site) : AfterDrain site (drained true site) := by
  cases site <;> constructor

theorem drained_false (site : Site) :
    drained false site = .exiting (.drainFailed site) (exitOps (.drainFailed site)) := by
  cases site <;> rfl

theorem executeShellTask_moved (hp : r.pc = .shell) (h : executeShellTask v r i = some m) :
    Moved v r i m := by
  unfold executeShellTask at h
  split at h
  · rename_i lineOk e captured textOk
    cases lineOk with
    | false => cases h; exact moved_goto (hp ▸ .shellNoLine e captured textOk)
    | true =>
      cases captured with
      | some output => cases h; exact moved_goto (hp ▸ .shellDone e output)
      | none =>
        cases textOk with
        | true => cases h; exact moved_goto (hp ▸ .shellDone e _)
        | false => cases h; exact moved_goto (hp ▸ .shellNoOutput e)
  · cases h

theorem executeProgramTask_moved (hp : r.pc = .program) (h : executeProgramTask v r i = some m) :
    Moved v r i m := by
  have hleave : ∀ exit, exit = .noArgv ∨ exit = .startFailed ∨ exit = .resumeFailed →
      Moved v r i (leave v r exit) := fun exit he => moved_goto (hp ▸ .early he)
  unfold executeProgramTask at h
  split at h
  · cases h; exact hleave _ (Or.inl rfl)
  · split at h
    · cases h
      exact ⟨hp ▸ .running,rfl,rfl,rfl,Or.inr rfl,by simp [goto,taskContextStartChild],rfl,rfl,id⟩
    · cases h; exact hleave _ (Or.inr (Or.inl rfl))
    · rename_i pid ok hpid
      split at h
      · cases h; exact moved_goto (hp ▸ .running)
      · rename_i hrun
        split at h
        · cases h
          refine ⟨hp ▸ .running,rfl,rfl,rfl,Or.inr rfl,?_,?_,?_,?_⟩
          all_goals simp [goto,taskContextResumeChild,hpid,hrun]
        · cases h; exact hleave _ (Or.inr (Or.inr rfl))
    · cases h

theorem loopTest_moved (hp : r.pc = .loopTest) : Moved v r .go (loopTest v r) := by
  unfold loopTest
  split
  · rename_i hc
    split
    · rename_i hcancel
      exact moved_goto (hp ▸ .cancelled hc.1 hc.2 hcancel)
    · rename_i hcancel
      exact ⟨hp ▸ .tick hc.1 hc.2 (by simpa using hcancel),rfl,rfl,rfl,Or.inr rfl,
        by simp [goto,ServerEvent.isDone],rfl,rfl,id⟩
  · rename_i hc
    exact moved_goto (hp ▸ .loopEnd hc)

theorem taskContextDrainPipe_moved {site : Site} (hp : r.pc = .draining site)
    (h : taskContextDrainPipe v r site i = some m) : Moved v r i m := by
  have hdone : ∀ ok, Moved v r i (goto v r (drained ok site)) := by
    intro ok
    refine moved_goto (hp ▸ .drained ?_)
    cases ok with
    | true => exact drained_true site
    | false => rw [drained_false]; exact .failed site
  unfold taskContextDrainPipe at h
  split at h
  · cases h; exact hdone true
  · rename_i pid size allocOk hpid
    dsimp only at h
    split at h
    · rename_i hc
      split at h
      · rename_i hs
        cases h
        refine ⟨?_,rfl,rfl,rfl,Or.inr rfl,by simp [goto],rfl,rfl,id⟩
        rw [hp]
        exact .chunk _ hs (List.ne_nil_of_length_pos hc.1)
      · rename_i hs
        split at h
        · cases h
          refine ⟨?_,rfl,rfl,rfl,Or.inr rfl,by simp [goto,taskContextAppend],rfl,rfl,id⟩
          rw [hp]
          exact .appended (by simpa using hs)
        · cases h
          refine ⟨?_,rfl,rfl,rfl,Or.inr rfl,by simp [goto],rfl,rfl,id⟩
          rw [hp,drained_false]
          exact .drained (.failed site)
    · cases h
  · split at h
    · cases h
      exact ⟨hp ▸ .drained (drained_true site),rfl,rfl,rfl,Or.inr rfl,by simp [goto],rfl,rfl,id⟩
    · cases h
  · cases h; exact hdone true
  · cases h; exact hdone false
  · cases h

theorem sendProgress_moved {site : Site} {chunk : Text} {pieces : List Piece}
    (hp : r.pc = .sending site chunk pieces)
    (h : sendProgress v r site chunk pieces i = some m) : Moved v r i m := by
  unfold sendProgress at h
  split at h
  · rename_i piece rest connection hconn
    have hshift : Shift v r (.sending site chunk (piece :: rest)) (.sent true)
        (if rest = [] then .draining site else .sending site chunk rest) none
        [.progress connection r.context piece] := .piece connection hconn
    dsimp only at h
    split at h
    · rename_i hr
      cases h
      rw [if_pos hr] at hshift
      exact ⟨hp ▸ hshift,rfl,rfl,rfl,Or.inr rfl,by simp [ServerEvent.isDone],rfl,rfl,id⟩
    · rename_i hr
      cases h
      rw [if_neg hr] at hshift
      exact ⟨hp ▸ hshift,rfl,rfl,rfl,Or.inr rfl,by simp [goto,ServerEvent.isDone],rfl,rfl,id⟩
  · cases h
    rw [drained_false]
    exact ⟨hp ▸ .sendFailed,rfl,rfl,rfl,Or.inr rfl,by simp [goto,ServerEvent.isDone],rfl,rfl,id⟩
  · cases h

theorem stopChild_done (context : TaskContext) (procs : Processes) :
    (taskContextStopChild context procs).1.done = context.done ∧
    (taskContextStopChild context procs).1.socketFd = context.socketFd ∧
    (taskContextStopChild context procs).1.initialBurst = context.initialBurst ∧
    (taskContextStopChild context procs).1.responseStatus = context.responseStatus := by
  unfold taskContextStopChild
  split
  · split <;> exact ⟨rfl,rfl,rfl,rfl⟩
  · exact ⟨rfl,rfl,rfl,rfl⟩

theorem reap_moved (hp : r.pc = .reap) : Moved v r .go (reap v r) := by
  unfold reap
  split
  · split
    · exact ⟨hp ▸ .reaped,rfl,rfl,rfl,Or.inr rfl,by simp [goto,childReaped],rfl,rfl,id⟩
    · exact moved_goto (hp ▸ .alive)
  · exact moved_goto (hp ▸ .alive)

theorem pollPreempt_moved (hp : r.pc = .pollPreempt) : Moved v r .go (pollPreempt v r) := by
  unfold pollPreempt
  obtain ⟨hd,hs,hb,hr⟩ := stopChild_done v.context v.procs
  cases hpre : v.shouldPreempt with
  | true =>
    refine ⟨hp ▸ .preempted hpre,rfl,rfl,rfl,Or.inr rfl,?_,hs,hb,hr ▸ id⟩
    simpa [stopAndDrain,ServerEvent.isDone] using hd
  | false =>
    exact ⟨hp ▸ .again hpre,rfl,rfl,rfl,Or.inl hp,by simp [goto,ServerEvent.isDone],rfl,rfl,id⟩

theorem afterLoop_moved (hp : r.pc = .afterLoop) : Moved v r .go (afterLoop v r) := by
  unfold afterLoop
  obtain ⟨hd,hs,hb,hr⟩ := stopChild_done v.context v.procs
  split
  · rename_i hpos
    refine ⟨hp ▸ .quantumEnd hpos,rfl,rfl,rfl,Or.inr rfl,?_,hs,hb,hr ▸ id⟩
    simpa [stopAndDrain,goto] using hd
  · rename_i hpos
    split
    · exact moved_goto (hp ▸ .wait hpos)
    · exact moved_goto (hp ▸ .noWait hpos)

theorem waitChild_moved (hp : r.pc = .waitChild) (h : waitChild v r = some m) :
    Moved v r .go m := by
  unfold waitChild at h
  split at h
  · split at h
    · cases h
      exact ⟨hp ▸ .waited,rfl,rfl,rfl,Or.inr rfl,by simp [goto,childReaped],rfl,rfl,id⟩
    · cases h
  · cases h

theorem exitStep_moved {exit : Exit} {op : ExitOp} {rest : List ExitOp}
    (hp : r.pc = .exiting exit (op :: rest)) (h : exitStep v r exit op rest i = some m) :
    Moved v r i m := by
  have hmark : ∀ status output, op.marks = true → status ≠ .serverProgress →
      (∀ message, op = .fail message → i = .allocated true) →
      Moved v r i (doneWith v r (goto v r (.exiting exit rest)) status output) := by
    intro status output hm hs hf
    exact ⟨hp ▸ .mark hm hf,rfl,rfl,rfl,Or.inr rfl,
      by simp [doneWith,taskContextSetDone,ServerEvent.isDone],rfl,rfl,fun _ => hs⟩
  unfold exitStep at h
  dsimp only at h
  split at h
  · cases h
    exact ⟨hp ▸ .op rfl,rfl,rfl,rfl,Or.inr rfl,by simp [goto,taskContextTerminateChild],rfl,rfl,id⟩
  · rename_i message ok
    cases ok with
    | true =>
      cases h
      exact hmark _ _ rfl (by simp) (fun _ _ => rfl)
    | false =>
      cases h
      exact moved_goto (hp ▸ .opFailed)
  · cases h
    refine hmark _ _ rfl ?_ (fun _ he => by cases he)
    split <;> simp
  · cases h; exact hmark _ _ rfl (by simp) (fun _ he => by cases he)
  · cases h
    exact ⟨hp ▸ .op rfl,rfl,rfl,rfl,Or.inr rfl,by simp [goto],rfl,rfl,id⟩
  · split at h
    · cases h
      exact ⟨hp ▸ .op rfl,rfl,rfl,rfl,Or.inr rfl,by simp [goto],rfl,rfl,id⟩
    · cases h
      exact moved_goto (hp ▸ .op rfl)
  · cases h

/-- Every step of the executor is one of the moves. -/
theorem serverTaskExecutor_moved (h : serverTaskExecutor v r i = some m) : Moved v r i m := by
  unfold serverTaskExecutor at h
  split at h
  · rename_i hp
    split at h
    · rename_i hn
      cases h
      exact moved_goto (hp ▸ .noContext hn)
    · split at h
      · rename_i hty
        cases h
        exact moved_goto (hp ▸ .shell hty)
      · rename_i hty
        cases h
        exact moved_goto (hp ▸ .program hty)
  · rename_i hp
    exact executeShellTask_moved hp h
  · rename_i hp
    exact executeProgramTask_moved hp h
  · rename_i hp
    cases h
    exact loopTest_moved hp
  · rename_i hp
    cases h
    exact ⟨hp ▸ .slept,rfl,rfl,rfl,Or.inr rfl,by simp [goto],rfl,rfl,id⟩
  · rename_i hp
    exact taskContextDrainPipe_moved hp h
  · rename_i hp
    exact sendProgress_moved hp h
  · rename_i hp
    cases h
    refine ⟨?_,rfl,rfl,rfl,Or.inr rfl,by simp [goto],rfl,rfl,id⟩
    rw [hp]
    by_cases hpos : 0 < v.task.remainingBurst
    · simp only [if_pos hpos]; exact .decrement hpos
    · simp only [if_neg hpos]; exact .noDecrement hpos
  · rename_i hp
    cases h
    exact reap_moved hp
  · rename_i hp
    cases h
    exact pollPreempt_moved hp
  · rename_i hp
    cases h
    exact afterLoop_moved hp
  · rename_i hp
    exact waitChild_moved hp h
  · rename_i hp
    exact exitStep_moved hp h
  · rename_i hp
    cases h
    exact ⟨hp ▸ .done,rfl,rfl,rfl,Or.inr rfl,by simp [goto,ServerEvent.isDone],rfl,rfl,id⟩
  · cases h

end UnixShell.Server
