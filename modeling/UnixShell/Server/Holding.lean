import UnixShell.Server.Clients
import UnixShell.Scheduler.Lifetimes

/-! # What one step does to contexts and children

A context is made by a submission, held by its client thread and by its task, and given up
by each of them once. In between only the executor touches the child: it starts, stops,
resumes or ends it, or leaves it as it is.
-/
namespace UnixShell.Server
open Foundation Scheduler

/-- No child is revived: what was reaped stays so, and what did not run does not run. -/
def Unrevived (procs procs' : Processes) : Prop :=
  ∀ p, ((procs p).state = .reaped → (procs' p).state = .reaped) ∧
    ((procs' p).state = .running → (procs p).state = .running)

theorem Unrevived.refl (procs : Processes) : Unrevived procs procs := fun _ => ⟨id,id⟩

theorem unrevived_update {procs : Processes} {p : Pid} {process : Process}
    (h : (procs p).state = .reaped → process.state = .reaped)
    (h' : process.state = .running → (procs p).state = .running) :
    Unrevived procs (Function.update procs p process) := by
  intro q
  by_cases hqp : q = p
  · subst hqp
    rw [Function.update_self]
    exact ⟨h,h'⟩
  · rw [Function.update_of_ne hqp]
    exact ⟨id,id⟩

theorem unrevived_killAndReap (procs : Processes) (pid : Option Pid) :
    Unrevived procs (killAndReap procs pid) := by
  cases pid with
  | none => exact Unrevived.refl procs
  | some pid => exact unrevived_update (fun _ => rfl) (fun h => by cases h)

section Executor

/-- The points of the executor at which the child of its task may be running. -/
def ExecutorPc.mayRun : ExecutorPc → Bool
  | .loopTest => true
  | .sleeping => true
  | .draining .tick => true
  | .sending .tick _ _ => true
  | .decrement => true
  | .reap => true
  | .pollPreempt => true
  | .afterLoop => true
  | .waitChild => true
  | .exiting _ (.terminateChild :: _) => true
  | _ => false

/-- What a move of the executor does to the child of its task. -/
inductive Handling (v : View) (pc : ExecutorPc) (m : Move) : Prop
  | kept : m.context.childPid = v.context.childPid →
      m.context.childRunning = v.context.childRunning → Unrevived v.procs m.procs →
      m.nextPid = v.nextPid →
      (pc.mayRun = true → m.round.pc.mayRun = true ∨ v.context.childPid = none) → Handling v pc m
  | started : v.context.childPid = none → m.context.childPid = some v.nextPid →
      m.context.childRunning = true →
      m.procs = Function.update v.procs v.nextPid { state := .running, pipe := [] } →
      m.nextPid = v.nextPid + 1 → m.round.pc.mayRun = true → Handling v pc m
  | resumed {pid : Pid} : v.context.childPid = some pid → m.context.childPid = some pid →
      m.context.childRunning = true →
      (∀ p, (v.procs p).state = .reaped → (m.procs p).state = .reaped) →
      (∀ p, p ≠ pid → m.procs p = v.procs p) → m.nextPid = v.nextPid →
      m.round.pc.mayRun = true → Handling v pc m
  | stopped : m.context.childPid = v.context.childPid →
      (v.context.childPid.isSome = true → m.context.childRunning = false) →
      (m.context.childRunning = true → v.context.childRunning = true) →
      Unrevived v.procs m.procs →
      (∀ pid, v.context.childPid = some pid → v.context.childRunning = true →
        (m.procs pid).state ≠ .running) → m.nextPid = v.nextPid → Handling v pc m
  | ended : m.context.childPid = none → m.context.childRunning = false →
      m.procs = killAndReap v.procs v.context.childPid → m.nextPid = v.nextPid → Handling v pc m

/-- A move and what no move changes in the context. -/
structure Handled (v : View) (pc : ExecutorPc) (m : Move) : Prop where
  refcount : m.context.refcount = v.context.refcount
  child : Handling v pc m

variable {v : View} {r : Round} {i : Input} {m : Move}

theorem handled_goto {pc pc' : ExecutorPc} (r : Round)
    (h : pc.mayRun = true → pc'.mayRun = true ∨ v.context.childPid = none) :
    Handled v pc (goto v r pc') := ⟨rfl,.kept rfl rfl (Unrevived.refl _) rfl h⟩

theorem drained_mayRun (ok : Bool) (site : Site) (h : ExecutorPc.mayRun (.draining site) = true) :
    (drained ok site).mayRun = true := by
  cases site <;> cases ok <;> first | rfl | cases h

theorem executeShellTask_handled (h : executeShellTask v r i = some m) : Handled v .shell m := by
  have hleave : ∀ exit, Handled v .shell (leave v r exit) := fun exit =>
    handled_goto r (fun hp => by cases hp)
  unfold executeShellTask at h
  split at h
  · split at h
    · split at h
      · cases h; exact hleave _
      · split at h <;> cases h <;> exact hleave _
    · cases h; exact hleave _
  · cases h

theorem executeProgramTask_handled (h : executeProgramTask v r i = some m) :
    Handled v .program m := by
  have hgo : ∀ pc, Handled v .program (goto v r pc) := fun pc =>
    handled_goto r (fun hp => by cases hp)
  unfold executeProgramTask at h
  split at h
  · cases h; exact hgo _
  · split at h
    · rename_i hpid
      cases h
      exact ⟨rfl,.started hpid rfl rfl rfl rfl rfl⟩
    · cases h; exact hgo _
    · rename_i pid ok hpid
      split at h
      · cases h; exact hgo _
      · rename_i hrun
        split at h
        · cases h
          refine ⟨by simp [taskContextResumeChild,hpid,hrun],.resumed hpid ?_ ?_ ?_ ?_ rfl rfl⟩
          · simp [taskContextResumeChild,hpid,hrun]
          · simp [taskContextResumeChild,hpid,hrun]
          · intro p hp
            simp only [taskContextResumeChild,hpid,hrun,Bool.false_eq_true,if_false]
            split
            · rename_i hs
              by_cases hpp : p = pid
              · rw [hpp,hs] at hp
                cases hp
              · rwa [setState,Function.update_of_ne hpp]
            · exact hp
          · intro p hp
            simp only [taskContextResumeChild,hpid,hrun,Bool.false_eq_true,if_false]
            split
            · exact Function.update_of_ne hp _ _
            · rfl
        · cases h; exact hgo _
    · cases h

theorem loopTest_handled : Handled v .loopTest (loopTest v r) := by
  unfold loopTest
  split
  · split
    · exact handled_goto r fun _ => Or.inl rfl
    · exact ⟨rfl,.kept rfl rfl (Unrevived.refl _) rfl fun _ => Or.inl rfl⟩
  · exact handled_goto r fun _ => Or.inl rfl

theorem taskContextDrainPipe_handled {site : Site} (h : taskContextDrainPipe v r site i = some m) :
    Handled v (.draining site) m := by
  have hgo : ∀ ok, Handled v (.draining site) (goto v r (drained ok site)) := fun ok =>
    handled_goto r fun hp => Or.inl (drained_mayRun ok site hp)
  have hread : ∀ (pid : Pid) (bytes : Text),
      Unrevived v.procs (Function.update v.procs pid { v.procs pid with pipe := bytes }) :=
    fun pid bytes => unrevived_update id id
  unfold taskContextDrainPipe at h
  split at h
  · cases h; exact hgo true
  · dsimp only at h
    split at h
    · split at h
      · cases h
        refine ⟨rfl,.kept rfl rfl (hread _ _) rfl fun hp => Or.inl ?_⟩
        cases site <;> first | rfl | cases hp
      · split at h
        · cases h
          exact ⟨rfl,.kept rfl rfl (hread _ _) rfl fun hp => Or.inl hp⟩
        · cases h
          exact ⟨rfl,.kept rfl rfl (hread _ _) rfl fun hp => Or.inl (drained_mayRun false site hp)⟩
    · cases h
  · split at h
    · cases h
      exact ⟨rfl,.kept rfl rfl (Unrevived.refl _) rfl
        fun hp => Or.inl (drained_mayRun true site hp)⟩
    · cases h
  · cases h; exact hgo true
  · cases h; exact hgo false
  · cases h

theorem sendProgress_handled {site : Site} {chunk : Text} {pieces : List Piece}
    (h : sendProgress v r site chunk pieces i = some m) :
    Handled v (.sending site chunk pieces) m := by
  have htick : ExecutorPc.mayRun (.sending site chunk pieces) = true → site = .tick := by
    cases site <;> simp [ExecutorPc.mayRun]
  unfold sendProgress at h
  split at h
  · dsimp only at h
    split at h <;> cases h <;>
      refine ⟨rfl,.kept rfl rfl (Unrevived.refl _) rfl fun hp => Or.inl ?_⟩ <;>
      rw [htick hp] <;> rfl
  · cases h
    refine ⟨rfl,.kept rfl rfl (Unrevived.refl _) rfl fun hp => Or.inl ?_⟩
    rw [htick hp]
    rfl
  · cases h

/-- Either the running child stops, or there is nothing to stop. -/
theorem stopChild_cases (context : TaskContext) (procs : Processes) :
    (∃ pid procs', context.childPid = some pid ∧ context.childRunning = true ∧
      taskContextStopChild context procs = ({ context with childRunning := false },procs') ∧
      Unrevived procs procs' ∧ (procs' pid).state ≠ .running) ∨
    (context.childPid = none ∨ context.childRunning = false) ∧
      taskContextStopChild context procs = (context,procs) := by
  unfold taskContextStopChild
  cases hpid : context.childPid with
  | none => exact Or.inr ⟨Or.inl rfl,rfl⟩
  | some pid =>
    cases hrun : context.childRunning with
    | false => exact Or.inr ⟨Or.inr rfl,by simp⟩
    | true =>
      refine Or.inl ⟨pid,_,rfl,rfl,rfl,?_,?_⟩ <;> split
      · rename_i hs
        exact unrevived_update (fun hr => by rw [hs] at hr; cases hr) (fun hr => by cases hr)
      · exact Unrevived.refl _
      · simp [setState]
      · rename_i hs
        exact hs

theorem stopChild_handled {pc : ExecutorPc}
    (hm : (m.context,m.procs) = taskContextStopChild v.context v.procs)
    (hn : m.nextPid = v.nextPid) : Handled v pc m := by
  rcases stopChild_cases v.context v.procs with ⟨pid,procs',hpid,hrun,he,hu,hs⟩ | ⟨hc,he⟩
  · obtain ⟨hctx,hprocs⟩ := Prod.mk.inj (hm.trans he)
    refine ⟨by rw [hctx],.stopped (by rw [hctx]) (fun _ => by rw [hctx]) (fun _ => hrun) ?_ ?_ hn⟩
    · rw [hprocs]
      exact hu
    · intro pid' hpid' _
      obtain rfl : pid = pid' := Option.some.inj (hpid.symm.trans hpid')
      rw [hprocs]
      exact hs
  · obtain ⟨hctx,hprocs⟩ := Prod.mk.inj (hm.trans he)
    refine ⟨by rw [hctx],.stopped (by rw [hctx]) (fun hs => ?_) (fun hr => by rwa [hctx] at hr)
      ?_ ?_ hn⟩
    · rw [hctx]
      refine hc.resolve_left (fun hn => ?_)
      rw [hn] at hs
      cases hs
    · rw [hprocs]
      exact Unrevived.refl _
    · intro pid hpid hrun
      rcases hc with hc | hc
      · rw [hc] at hpid
        cases hpid
      · rw [hc] at hrun
        cases hrun

theorem stopAndDrain_handled {pc : ExecutorPc} (site : Site) :
    Handled v pc (stopAndDrain v r site) := stopChild_handled rfl rfl

theorem reap_handled : Handled v .reap (reap v r) := by
  unfold reap
  split
  · rename_i pid hpid
    split
    · refine ⟨rfl,.ended rfl rfl ?_ rfl⟩
      rw [hpid]
      rfl
    · exact handled_goto r fun _ => Or.inl rfl
  · exact handled_goto r fun _ => Or.inl rfl

theorem pollPreempt_handled : Handled v .pollPreempt (pollPreempt v r) := by
  unfold pollPreempt
  split
  · exact stopChild_handled rfl rfl
  · exact ⟨rfl,.kept rfl rfl (Unrevived.refl _) rfl fun _ => Or.inl rfl⟩

theorem afterLoop_handled : Handled v .afterLoop (afterLoop v r) := by
  unfold afterLoop
  split
  · exact stopAndDrain_handled .quantumEnd
  · split
    · exact handled_goto r fun _ => Or.inl rfl
    · rename_i hpid
      exact handled_goto r fun _ => Or.inr hpid

theorem waitChild_handled (h : waitChild v r = some m) : Handled v .waitChild m := by
  unfold waitChild at h
  split at h
  · rename_i pid hpid
    split at h
    · cases h
      refine ⟨rfl,.ended rfl rfl ?_ rfl⟩
      rw [hpid]
      rfl
    · cases h
  · cases h

theorem exitStep_handled {exit : Exit} {op : ExitOp} {rest : List ExitOp}
    (h : exitStep v r exit op rest i = some m) : Handled v (.exiting exit (op :: rest)) m := by
  unfold exitStep at h
  dsimp only at h
  split at h
  · cases h
    exact ⟨rfl,.ended rfl rfl rfl rfl⟩
  · split at h <;> cases h <;>
      exact ⟨rfl,.kept rfl rfl (Unrevived.refl _) rfl fun hp => by cases hp⟩
  · cases h
    exact ⟨rfl,.kept rfl rfl (Unrevived.refl _) rfl fun hp => by cases hp⟩
  · cases h
    exact ⟨rfl,.kept rfl rfl (Unrevived.refl _) rfl fun hp => by cases hp⟩
  · cases h
    exact ⟨rfl,.kept rfl rfl (Unrevived.refl _) rfl fun hp => by cases hp⟩
  · split at h <;> cases h <;>
      exact ⟨rfl,.kept rfl rfl (Unrevived.refl _) rfl fun hp => by cases hp⟩
  · cases h

theorem serverTaskExecutor_handled (h : serverTaskExecutor v r i = some m) :
    Handled v r.pc m := by
  unfold serverTaskExecutor at h
  split at h
  · rename_i hp
    rw [hp]
    split at h
    · cases h; exact handled_goto r fun hx => by cases hx
    · split at h <;> cases h <;> exact handled_goto r fun hx => by cases hx
  · rename_i hp
    rw [hp]
    exact executeShellTask_handled h
  · rename_i hp
    rw [hp]
    exact executeProgramTask_handled h
  · rename_i hp
    rw [hp]
    cases h
    exact loopTest_handled
  · rename_i hp
    rw [hp]
    cases h
    exact ⟨rfl,.kept rfl rfl (Unrevived.refl _) rfl fun _ => Or.inl rfl⟩
  · rename_i hp
    rw [hp]
    exact taskContextDrainPipe_handled h
  · rename_i hp
    rw [hp]
    exact sendProgress_handled h
  · rename_i hp
    rw [hp]
    cases h
    exact ⟨rfl,.kept rfl rfl (Unrevived.refl _) rfl fun _ => Or.inl rfl⟩
  · rename_i hp
    rw [hp]
    cases h
    exact reap_handled
  · rename_i hp
    rw [hp]
    cases h
    exact pollPreempt_handled
  · rename_i hp
    rw [hp]
    cases h
    exact afterLoop_handled
  · rename_i hp
    rw [hp]
    exact waitChild_handled h
  · rename_i hp
    rw [hp]
    exact exitStep_handled h
  · rename_i hp
    rw [hp]
    cases h
    exact ⟨rfl,.kept rfl rfl (Unrevived.refl _) rfl fun hx => by cases hx⟩
  · cases h

end Executor

section Clients

/-- The context that a client thread has not let go of. -/
def ClientPc.context : ClientPc → Option ContextRef
  | .waiting k => some k
  | .peeking k => some k
  | .answering k => some k
  | .cancelling k => k
  | .freeing k => k
  | .responding k _ => some k
  | .idleCheck k => some k
  | .printing k => some k
  | .releasing k _ => some k
  | _ => none

/-- The contexts that the client threads hold, with one thread's changed. -/
def Holds (w w' : World) (c : ThreadId) (held : Option ContextRef) : Prop :=
  ∀ d, (w'.clients d).pc.context = if d = c then held else (w.clients d).pc.context

/-- What a step does to contexts and their holders, callbacks and executor apart. The numbers
are those of the records. -/
inductive Holding (a : ServerAction) (n n' : ℕ) (w w' : World) : Prop
  | kept : n' = n → w'.contexts = w.contexts → w'.owner = w.owner →
      (∀ d, (w'.clients d).pc.context = (w.clients d).pc.context) →
      Unrevived w.procs w'.procs → w'.nextPid = w.nextPid → Holding a n n' w w'
  | taken {c : ThreadId} {context : TaskContext} : n' = n + 1 →
      (w.clients c).pc.context = none → context.refcount = 2 → context.childPid = none →
      context.childRunning = false → w'.contexts = Function.update w.contexts n context →
      w'.owner = Function.update w.owner n c → Holds w w' c (some n) →
      w'.procs = w.procs → w'.nextPid = w.nextPid → Holding a n n' w w'
  | released {c : ThreadId} {k : ContextRef} : n' = n → a = .release c →
      (w.clients c).pc.context = some k →
      w'.contexts = (releaseContext w k).contexts → w'.owner = w.owner → Holds w w' c none →
      w'.procs = (releaseContext w k).procs → w'.nextPid = w.nextPid → Holding a n n' w w'

variable {a : ServerAction} {w w' : World} {c : ThreadId} {n : ℕ}

theorem holds_setPc (w : World) (c : ThreadId) (pc : ClientPc) :
    Holds w (setPc w c pc) c pc.context := by
  intro d
  by_cases hd : d = c
  · subst hd
    simp [setPc]
  · simp [setPc,hd]

/-- A thread that goes on with what it holds, whatever it logs, prints or closes. -/
theorem holding_move {pc : ClientPc} (log : List ServerEvent) (clock : Clock)
    (sockets : Fd → Option ThreadId) (hp : pc.context = (w.clients c).pc.context) :
    Holding a n n w (setPc { w with log := log, clock := clock, sockets := sockets } c pc) := by
  refine .kept rfl rfl rfl (fun d => ?_) (Unrevived.refl _) rfl
  rw [holds_setPc _ c pc d,hp]
  split
  · rename_i hd
    rw [hd]
  · rfl

theorem holding_setPc {pc : ClientPc} (hp : pc.context = (w.clients c).pc.context) :
    Holding a n n w (setPc w c pc) := holding_move w.log w.clock w.sockets hp

theorem holding_submit {created : TaskRequest × TaskContext} (hp : (w.clients c).pc = .receiving)
    (hcount : created.2.refcount = 2) (hpid : created.2.childPid = none)
    (hrun : created.2.childRunning = false) : Holding a n (n + 1) w (submitTask w c n created).2 :=
  .taken rfl (by rw [hp]; rfl) hcount hpid hrun rfl rfl (holds_setPc _ c (.waiting n)) rfl rfl

theorem holding_request (request : Request) (hp : (w.clients c).pc = .receiving) :
    Holding a n (n + allocates (handleRequest w c n request).1) w
      (handleRequest w c n request).2 := by
  cases request with
  | exit => exact holding_setPc (by rw [hp]; rfl)
  | program command argv iterations => exact holding_submit hp rfl rfl rfl
  | shell command => exact holding_submit hp rfl rfl rfl
  | unavailable => exact holding_setPc (by rw [hp]; rfl)

/-- Of the sends only a failed one ends what a thread holds, and that in a later step. -/
theorem holding_send {ok : Bool} (h : clientSend w c ok = some w') : Holding a n n w w' := by
  unfold clientSend at h
  dsimp only at h
  split at h
  · rename_i hp _
    split at h <;> cases h
    · exact holding_move (_ :: _ :: w.log) w.clock w.sockets (by rw [hp]; rfl)
    · exact holding_move (_ :: w.log) w.clock w.sockets (by rw [hp]; rfl)
  · rename_i hp
    cases h
    exact holding_setPc (by rw [hp]; rfl)
  · rename_i hp _
    cases h
    refine holding_move _ w.clock w.sockets ?_
    rw [hp]
    split <;> rfl
  · rename_i hp
    cases h
    exact holding_setPc (by rw [hp]; rfl)
  · cases h

theorem holding_release {k : ContextRef} {again : Bool}
    (hp : (w.clients c).pc = .releasing k again) : Holding (.release c) n n w
      (setPc (releaseContext w k) c (if again then .receiving else .closing)) := by
  refine .released rfl rfl (by rw [hp]; rfl) rfl rfl (fun d => ?_) rfl rfl
  rw [holds_setPc _ c _ d]
  cases again <;> rfl

theorem holding_print {k : ContextRef} (hp : (w.clients c).pc = .printing k) :
    Holding a n n w (setPc (printSummaryIfNeeded w) c (.releasing k true)) := by
  unfold printSummaryIfNeeded
  split
  · exact holding_move _ _ w.sockets (by rw [hp]; rfl)
  · exact holding_setPc (by rw [hp]; rfl)

theorem holding_accept (hfresh : (w.clients w.nextThread).pc.context = none) (fd : Fd) :
    Holding a n n w { w with
      clients := Function.update w.clients w.nextThread
        { socketFd := fd, clientNumber := w.nextThread + 1, pc := .receiving }
      nextThread := w.nextThread + 1
      sockets := Function.update w.sockets fd (some w.nextThread) } := by
  refine .kept rfl rfl rfl (fun d => ?_) (Unrevived.refl _) rfl
  by_cases hd : d = w.nextThread
  · subst hd
    rw [hfresh]
    simp [ClientPc.context]
  · simp [Function.update_of_ne hd]

theorem respond_holding {core : Core} {toFree : ThreadId → Option TaskRef} {x : Option Action}
    (hfresh : (w.clients w.nextThread).pc.context = none)
    (ha : a.outside = true) (h : respond core toFree w a = some (x,w')) :
    Holding a core.allocated (core.allocated + allocates x) w w' := by
  cases a with
  | accept fd =>
    simp only [respond] at h
    split at h
    · cases h; exact holding_accept hfresh fd
    · cases h
  | request c request =>
    simp only [respond] at h
    split at h
    · rename_i hp
      have hr := @holding_request (.request c request) w c core.allocated request hp
      rwa [Option.some.inj h] at hr
    · cases h
  | poll c | peek c closed | checkIdle c =>
    simp only [respond] at h
    split at h
    · rename_i hp
      cases h
      apply holding_setPc
      rw [hp]
      split <;> rfl
    · cases h
  | hangup c | fetch c | cancel c =>
    simp only [respond] at h
    split at h
    · rename_i hp; cases h; exact holding_setPc (by rw [hp]; rfl)
    · cases h
  | cancelled c =>
    simp only [respond] at h
    split at h
    · rename_i hp _; cases h; exact holding_setPc (by rw [hp]; rfl)
    · rename_i hp _; cases h; exact holding_setPc (by rw [hp]; rfl)
    · cases h
  | send c ok =>
    obtain ⟨u,hu,he⟩ := Option.map_eq_some_iff.mp h
    cases he
    exact holding_send hu
  | print c =>
    simp only [respond] at h
    split at h
    · rename_i hp; cases h; exact holding_print hp
    · cases h
  | release c =>
    simp only [respond] at h
    split at h
    · rename_i hp; cases h; exact holding_release hp
    · cases h
  | close c =>
    simp only [respond] at h
    split at h
    · rename_i hp
      cases h
      exact holding_move w.log w.clock _ (by rw [hp]; rfl)
    · cases h
  | cleanupNext _ | requestStop =>
    cases h
    exact .kept rfl rfl rfl (fun _ => rfl) (Unrevived.refl _) rfl
  | childWrite pid bytes =>
    simp only [respond] at h
    split at h
    · cases h
      exact .kept rfl rfl rfl (fun _ => rfl) (unrevived_update id id) rfl
    · cases h
  | childExit pid =>
    simp only [respond] at h
    split at h
    · rename_i hs
      cases h
      refine .kept rfl rfl rfl (fun _ => rfl) (unrevived_update (fun hr => ?_) (fun hr => ?_)) rfl
      · rw [hs] at hr
        cases hr
      · cases hr
    · cases h
  | enter => cases ha
  | exec i => cases ha
  | finish => cases ha

end Clients

section Steps
variable {s s' : State TaskLists} {a : ServerAction}

/-- No step but the executor's moves a round that has not returned. -/
def RoundKept (w w' : World) : Prop :=
  w'.round = w.round ∨ ∀ r, w.round = some r → ∃ exit, r.pc = .returned exit

/-- The steps of the server, as contexts and their holders see them. -/
inductive HoldStep (s s' : State TaskLists) (a : ServerAction) : Prop
  | handled {r : Round} {m : Move} : s.world.round = some r →
      Handled (view s.sched.toCore s.world r) r.pc m → m.round.context = r.context →
      s'.world = applyMove s.world m → s'.sched.allocated = s.sched.allocated →
      (∀ k, Event.cleanup k ∈ s'.sched.events ↔ Event.cleanup k ∈ s.sched.events) → HoldStep s s' a
  | shared : Holding a s.sched.allocated s'.sched.allocated s.world s'.world →
      RoundKept s.world s'.world →
      (∀ k, Event.cleanup k ∈ s'.sched.events ↔ Event.cleanup k ∈ s.sched.events) → HoldStep s s' a
  | cleaned {k : ContextRef} {w : World} : (a = .finish ∨ ∃ c, a = .cleanupNext c) →
      k < s.sched.allocated →
      Event.cleanup k ∉ s.sched.events →
      (∀ j, Event.cleanup j ∈ s'.sched.events ↔ j = k ∨ Event.cleanup j ∈ s.sched.events) →
      w = { s.world with round := w.round } → s'.world = releaseContext w k →
      RoundKept s.world w → s'.sched.allocated = s.sched.allocated → HoldStep s s' a

/-- A step of the scheduler that is no cleanup. -/
theorem cleanup_kept {s s' : System TaskLists} {y : Action} (hs : Scheduler.step s y = some s')
    (hy : handedOver s y = none) (k : TaskRef) :
    Event.cleanup k ∈ s'.events ↔ Event.cleanup k ∈ s.events := by
  rw [step_cleanup_iff hs,hy]
  simp

/-- A record that is cleaned up gives up the scheduler's side of its own context. -/
theorem holdStep_cleanup (hc : Consistent s) {y : Action} {k : TaskRef} {w : World}
    (ha : a = .finish ∨ ∃ c, a = .cleanupNext c)
    (hs : Scheduler.step s.sched y = some s'.sched) (hy : handedOver s.sched y = some k)
    (hk : k < s.sched.allocated) (hfresh : Event.cleanup k ∉ s.sched.events)
    (hw : w = { s.world with round := w.round })
    (hw' : s'.world = serverTaskCleanup w (s'.sched.tasks k)) (hround : RoundKept s.world w)
    (hn : ∀ request, y ≠ .submit request) : HoldStep s s' a := by
  refine .cleaned ha hk hfresh (fun j => ?_) hw ?_ hround (allocated_eq hs hn)
  · rw [step_cleanup_iff hs,hy,Option.some.injEq,eq_comm]
  · rw [hw']
    simp only [serverTaskCleanup,(step_continues hs hk).userData,hc.named k hk]

theorem holdStep_free (hc : Consistent s) {thread : ThreadId}
    (hs : Scheduler.step s.sched (.free thread) = some s'.sched)
    (hw : s'.world = callbacks (.free thread) s'.sched.toCore s.world) :
    HoldStep s s' (.cleanupNext thread) := by
  obtain ⟨k,hk,_,hev,_⟩ := freeNext_eq (show freeNext s.sched thread = some s'.sched from hs)
  obtain ⟨place,hp⟩ := hc.sched.placed
  have hmem : k ∈ s.sched.queue.toFree thread := List.mem_of_head? hk
  refine holdStep_cleanup hc (Or.inr ⟨thread,rfl⟩) hs hk (hp.freeing_lt hmem)
    (fun hz => hp.finalised_not_freeing hz thread hmem) rfl ?_ (Or.inl rfl) (fun _ h => by cases h)
  rw [hw]
  simp only [callbacks,hev,List.head?_cons]

theorem holdStep_finish (hc : Consistent s) {r : Round} {exit : Exit}
    (hr : s.world.round = some r) (hp : r.pc = .returned exit)
    (hs : Scheduler.step s.sched .finish = some s'.sched)
    (hse : s'.sched = schedulerMainFinish s.sched r.task r.quantum (exitResult exit))
    (hw : s'.world = callbacks .finish s'.sched.toCore s.world) :
    HoldStep s s' .finish := by
  have hmain : s.sched.main = .returned r.task r.quantum (exitResult exit) := by
    rw [(hc.running r hr).1]
    simp only [mainOf,hp]
  have hround : RoundKept s.world { s.world with round := none } :=
    Or.inr fun r' hr' => ⟨exit,by rw [← Option.some.inj (hr.symm.trans hr'),hp]⟩
  rcases finish_cases s.sched r.task r.quantum (exitResult exit) with
    ⟨hq,he⟩ | ⟨hq,state,event,he,_⟩ <;> rw [← hse] at he
  · have hworld : s'.world = { s.world with round := none } := by
      rw [hw,he]
      rfl
    refine .shared ?_ (by rw [hworld]; exact hround)
      (cleanup_kept hs (by simp [handedOver,hmain,hq]))
    rw [hworld]
    exact .kept (allocated_eq hs (fun _ h => by cases h)) rfl rfl (fun _ => rfl)
      (Unrevived.refl _) rfl
  · obtain ⟨place,hplace⟩ := hc.sched.placed
    refine holdStep_cleanup (w := { s.world with round := none }) hc (Or.inl rfl) hs
      (by simp [handedOver,hmain,hq]) (hc.task_lt hr)
      (fun hz => hplace.finalised_not_current hz (hc.current hr)) rfl ?_ hround
      (fun _ h => by cases h)
    rw [hw]
    simp only [callbacks,he,finalizeTask_frame,List.head?_cons]

theorem respond_free {core : Core} {toFree : ThreadId → Option TaskRef} {w w' : World}
    {thread : ThreadId} (ha : a.outside = true)
    (h : respond core toFree w a = some (some (.free thread),w')) :
    a = .cleanupNext thread ∧ w' = w := by
  cases a with
  | cleanupNext c => cases h; exact ⟨rfl,rfl⟩
  | request c request =>
    simp only [respond] at h
    split at h
    · cases request <;> cases h
    · cases h
  | send c ok =>
    obtain ⟨u,_,he⟩ := Option.map_eq_some_iff.mp h
    cases he
  | requestStop => cases h
  | enter => cases ha
  | exec i => cases ha
  | finish => cases ha
  | _ =>
    simp only [respond] at h
    split at h <;> cases h

/-- The executor allocates nothing and hands nothing over. -/
theorem moved_cleanup {r : Round} {i : Input} {m : Move}
    (hm : Moved (view s.sched.toCore s.world r) r i m)
    (hs : m.action = none ∧ s'.sched = s.sched ∨
      ∃ y, m.action = some y ∧ Scheduler.step s.sched y = some s'.sched) :
    s'.sched.allocated = s.sched.allocated ∧
      ∀ k, Event.cleanup k ∈ s'.sched.events ↔ Event.cleanup k ∈ s.sched.events := by
  rcases hs with ⟨_,hs⟩ | ⟨y,hy,hs⟩
  · rw [hs]
    exact ⟨rfl,fun _ => Iff.rfl⟩
  · rcases shift_main hm.shift with ⟨_,_,hx | ⟨b,hx⟩⟩ | ⟨exit,_,_,hx⟩ <;> rw [hy] at hx <;> cases hx
    · exact ⟨allocated_eq hs (fun _ h => by cases h),cleanup_kept hs rfl⟩
    · exact ⟨allocated_eq hs (fun _ h => by cases h),cleanup_kept hs rfl⟩

/-- Every step of the server is one of them. -/
theorem serverStep_holding (hc : Consistent s)
    (hlive : ∀ c, (s.world.clients c).pc ≠ .gone → c < s.world.nextThread)
    (he : serverStep s a = some s') : HoldStep s s' a := by
  have hfresh : (s.world.clients s.world.nextThread).pc.context = none := by
    by_cases hg : (s.world.clients s.world.nextThread).pc = .gone
    · rw [hg]
      rfl
    · exact absurd (hlive _ hg) (lt_irrefl _)
  by_cases ha : a.outside = true
  · rcases serverStep_cases he with ⟨w,hr,rfl⟩ | ⟨y,w,sched,hr,hs,rfl⟩
    · exact .shared (respond_holding hfresh ha hr)
        (Or.inl (respond_responded ha hr).outside.round) (fun _ => Iff.rfl)
    · have hh := respond_holding hfresh ha hr
      have hround := (respond_responded ha hr).outside.round
      rw [← step_allocates hs] at hh
      obtain ⟨hy,_⟩ := (respond_responded ha hr).action
      cases y with
      | submit request => exact .shared hh (Or.inl hround) (cleanup_kept hs rfl)
      | cancel thread client =>
        exact .shared hh (Or.inl hround) (cleanup_kept hs rfl)
      | requestStop => exact .shared hh (Or.inl hround) (cleanup_kept hs rfl)
      | free thread =>
        obtain ⟨rfl,rfl⟩ := respond_free ha hr
        exact holdStep_free hc hs rfl
      | _ => cases hy
  cases a with
  | exec i =>
    obtain ⟨r,m,hr,hm,hw,hs⟩ := serverStep_executor he
    have hmoved := serverTaskExecutor_moved hm
    obtain ⟨hn,hz⟩ := moved_cleanup hmoved hs
    exact .handled hr (serverTaskExecutor_handled hm) hmoved.context hw hn hz
  | enter =>
    obtain ⟨hs,hw⟩ := serverStep_enter he
    have hn : s.world.round = none := hc.round_none (step_enter hs).1
    have hkept : RoundKept s.world s'.world := Or.inr fun r hr => by
      rw [hn] at hr
      cases hr
    refine .shared ?_ hkept (cleanup_kept hs rfl)
    have halloc := allocated_eq hs (fun _ h => by cases h)
    rw [hw]
    unfold callbacks
    dsimp only
    split <;> exact .kept halloc rfl rfl (fun _ => rfl) (Unrevived.refl _) rfl
  | finish =>
    obtain ⟨hs,hw⟩ := serverStep_finish he
    cases serverStep_shape hc he with
    | finish hr hp _ hse _ _ => exact holdStep_finish hc hr hp hs hse hw
    | outside hout _ _ => cases hout
  | _ => exact (ha rfl).elim

end Steps

end UnixShell.Server
