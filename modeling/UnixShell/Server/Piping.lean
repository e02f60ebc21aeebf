import UnixShell.Server.Contexts

/-! # Whose pipe it is

A context holds the child that was started for it and the reading end of its pipe. No two
contexts hold the same child, so what the executor does for one task leaves the pipes of
all the others alone.
-/
namespace UnixShell.Server
open Foundation Scheduler

/-- The context holds the child or the pipe that the child writes to. -/
def TaskContext.Holds (context : TaskContext) (p : Pid) : Prop :=
  context.pipeFd = some p ∨ context.childPid = some p

/-- The child may end or be reaped; its pipe is neither read nor written to. -/
structure Ages (a b : Process) : Prop where
  pipe : b.pipe = a.pipe
  dead : a.alive = false → b.alive = false
  reaped : a.state = .reaped → b.state = .reaped

theorem Ages.refl (a : Process) : Ages a a := ⟨rfl,id,id⟩

theorem Ages.trans {a b c : Process} (h : Ages a b) (h' : Ages b c) : Ages a c :=
  ⟨h'.pipe.trans h.pipe,fun ha => h'.dead (h.dead ha),fun ha => h'.reaped (h.reaped ha)⟩

theorem setState_ne {procs : Processes} {p pid : Pid} {state : ProcessState} (h : p ≠ pid) :
    setState procs pid state p = procs p := Function.update_of_ne h _ _

theorem ages_setState {procs : Processes} {pid : Pid} {state : ProcessState}
    (hd : (procs pid).alive = false → state ≠ .running ∧ state ≠ .stopped)
    (hr : (procs pid).state = .reaped → state = .reaped) (p : Pid) :
    Ages (procs p) (setState procs pid state p) := by
  by_cases hp : p = pid
  · subst hp
    simp only [setState,Function.update_self]
    refine ⟨rfl,?_,hr⟩
    intro ha
    obtain ⟨hrun,hstop⟩ := hd ha
    simp [Process.alive,hrun,hstop]
  · simp only [setState,Function.update_of_ne hp]
    exact Ages.refl _

theorem ages_killAndReap (procs : Processes) (pid : Option Pid) (p : Pid) :
    Ages (procs p) (killAndReap procs pid p) := by
  cases pid with
  | none => exact Ages.refl _
  | some pid =>
    apply ages_setState
    · intro _
      constructor <;> simp
    · intro _
      rfl

/-- The child is stopped at most. -/
theorem stopChild_ages (context : TaskContext) (procs : Processes) :
    (∃ running, (taskContextStopChild context procs).1 = { context with childRunning := running }) ∧
      ∀ p, Ages (procs p) ((taskContextStopChild context procs).2 p) := by
  unfold taskContextStopChild
  split
  · split
    · refine ⟨⟨false,rfl⟩,?_⟩
      intro p
      dsimp only
      split
      · rename_i hrun
        apply ages_setState
        · intro hd
          rw [Process.alive,hrun] at hd
          cases hd
        · intro hr
          rw [hrun] at hr
          cases hr
      · exact Ages.refl _
    · exact ⟨⟨_,rfl⟩,fun _ => Ages.refl _⟩
  · exact ⟨⟨_,rfl⟩,fun _ => Ages.refl _⟩

/-- The child goes on at most. -/
theorem resumeChild_ages (context : TaskContext) (procs : Processes) :
    (∃ running, (taskContextResumeChild context procs).1 =
      { context with childRunning := running }) ∧
      ∀ p, Ages (procs p) ((taskContextResumeChild context procs).2 p) := by
  unfold taskContextResumeChild
  split
  · split
    · exact ⟨⟨_,rfl⟩,fun _ => Ages.refl _⟩
    · refine ⟨⟨true,rfl⟩,?_⟩
      intro p
      dsimp only
      split
      · rename_i hstopped
        apply ages_setState
        · intro hd
          rw [Process.alive,hstopped] at hd
          cases hd
        · intro hr
          rw [hstopped] at hr
          cases hr
      · exact Ages.refl _
  · exact ⟨⟨_,rfl⟩,fun _ => Ages.refl _⟩

section Others
variable {core : Core} {toFree : ThreadId → Option TaskRef} {w w' : World} {a : ServerAction}
  {x : Option Action} {n : ℕ}

theorem releaseContext_ages (k : ContextRef) (p : Pid) :
    Ages (w.procs p) ((releaseContext w k).procs p) := by
  simp only [releaseContext,taskContextRelease]
  split
  · exact ages_killAndReap _ _ _
  · exact Ages.refl _

theorem releaseContext_holds {j k : ContextRef} {p : Pid}
    (h : ((releaseContext w k).contexts j).Holds p) : (w.contexts j).Holds p := by
  by_cases hjk : j = k
  · subst hjk
    simp only [releaseContext,setContext,Function.update_self,taskContextRelease] at h
    split at h
    · rcases h with h | h
      · cases h
      · exact Or.inr h
    · exact h
  · simpa only [releaseContext,setContext,Function.update_of_ne hjk] using h

theorem cleanup_ages (task : Task) (p : Pid) :
    Ages (w.procs p) ((serverTaskCleanup w task).procs p) := by
  unfold serverTaskCleanup
  split
  · exact Ages.refl _
  · exact releaseContext_ages _ _

theorem cleanup_holds {task : Task} {j : ContextRef} {p : Pid}
    (h : ((serverTaskCleanup w task).contexts j).Holds p) : (w.contexts j).Holds p := by
  unfold serverTaskCleanup at h
  split at h
  · exact h
  · exact releaseContext_holds h

theorem callbacks_ages (y : Action) (p : Pid) :
    Ages (w.procs p) ((callbacks y core w).procs p) := by
  unfold callbacks
  split
  · split <;> exact Ages.refl _
  · exact cleanup_ages (w := { w with round := none }) _ _
  · exact Ages.refl _
  · exact cleanup_ages _ _
  · exact Ages.refl _

theorem callbacks_holds {y : Action} {j : ContextRef} {p : Pid}
    (h : ((callbacks y core w).contexts j).Holds p) : (w.contexts j).Holds p := by
  unfold callbacks at h
  split at h
  · split at h <;> exact h
  · exact cleanup_holds (w := { w with round := none }) h
  · exact h
  · exact cleanup_holds h
  · exact h

theorem callbacks_nextPid (y : Action) : (callbacks y core w).nextPid = w.nextPid := by
  have hclean : ∀ (w : World) task, (serverTaskCleanup w task).nextPid = w.nextPid := by
    intro w task
    unfold serverTaskCleanup
    split <;> rfl
  unfold callbacks
  split
  · split <;> rfl
  · exact hclean _ _
  · rfl
  · exact hclean _ _
  · rfl

/-- Another thread gives children up at most; a new context has none. -/
theorem Responded.holds (h : Responded n w a x w') {k : ContextRef} {p : Pid}
    (hk : (w'.contexts k).Holds p) : (w.contexts k).Holds p := by
  have hfresh : ∀ (c : ThreadId) (created : TaskRequest × TaskContext),
      created.2.pipeFd = none → created.2.childPid = none →
      ((submitTask w c n created).2.contexts k).Holds p → (w.contexts k).Holds p := by
    intro c created hpipe hchild hk
    simp only [submitTask,setPc,setContext] at hk
    by_cases hkn : k = n
    · subst hkn
      rw [Function.update_self] at hk
      rcases hk with hk | hk
      · rw [hpipe] at hk
        cases hk
      · rw [hchild] at hk
        cases hk
    · rwa [Function.update_of_ne hkn] at hk
  cases h with
  | shell => exact hfresh _ _ rfl rfl hk
  | program => exact hfresh _ _ rfl rfl hk
  | print =>
    unfold printSummaryIfNeeded at hk
    split at hk <;> exact hk
  | release => exact releaseContext_holds hk
  | _ => exact hk

theorem Responded.nextPid (h : Responded n w a x w') : w'.nextPid = w.nextPid := by
  cases h with
  | print =>
    unfold printSummaryIfNeeded
    split <;> rfl
  | _ => rfl

theorem clientSend_procs {c : ThreadId} {ok : Bool} (h : clientSend w c ok = some w') :
    w'.procs = w.procs := by
  unfold clientSend at h
  dsimp only at h
  split at h
  · split at h <;> cases h <;> rfl
  · cases h
    rfl
  · cases h
    rfl
  · cases h
    rfl
  · cases h

/-- Only a child writes to its pipe. -/
theorem respond_ages (ha : a.outside = true) (hw : ∀ pid bytes, a ≠ .childWrite pid bytes)
    (h : respond core toFree w a = some (x,w')) (p : Pid) : Ages (w.procs p) (w'.procs p) := by
  cases a with
  | request c request =>
    simp only [respond] at h
    split at h
    · cases request <;> cases h <;> exact Ages.refl _
    · cases h
  | send c ok =>
    obtain ⟨u,hu,he⟩ := Option.map_eq_some_iff.mp h
    cases he
    rw [clientSend_procs hu]
    exact Ages.refl _
  | print c =>
    simp only [respond] at h
    split at h
    · cases h
      simp only [setPc]
      unfold printSummaryIfNeeded
      split <;> exact Ages.refl _
    · cases h
  | release c =>
    simp only [respond] at h
    split at h
    · cases h
      exact releaseContext_ages _ _
    · cases h
  | childWrite pid bytes => exact (hw pid bytes rfl).elim
  | childExit pid =>
    simp only [respond] at h
    split at h
    · rename_i hrun
      cases h
      apply ages_setState
      · intro _
        constructor <;> simp
      · intro hr
        rw [hrun] at hr
        cases hr
    · cases h
  | cancelled c =>
    simp only [respond] at h
    split at h <;> cases h <;> exact Ages.refl _
  | cleanupNext c =>
    cases h
    exact Ages.refl _
  | requestStop =>
    cases h
    exact Ages.refl _
  | enter => cases ha
  | exec i => cases ha
  | finish => cases ha
  | _ =>
    simp only [respond] at h
    split at h
    · cases h
      exact Ages.refl _
    · cases h

/-- No child is reaped that a living context holds alone. -/
theorem releaseContext_spares {j k : ContextRef} {p : Pid}
    (hone : ∀ j, (w.contexts j).Holds p → j = k)
    (hcount : ((releaseContext w j).contexts k).refcount ≠ 0)
    (h : ((releaseContext w j).procs p).state = .reaped) : (w.procs p).state = .reaped := by
  by_cases hjk : j = k
  · subst hjk
    simp only [releaseContext,setContext,Function.update_self,taskContextRelease] at h hcount
    split at h
    · rename_i hz
      rw [if_pos hz] at hcount
      exact (hcount hz).elim
    · exact h
  · simp only [releaseContext,taskContextRelease] at h
    split at h
    · cases hc : (w.contexts j).childPid with
      | none =>
        rw [hc] at h
        exact h
      | some pid =>
        have hne : p ≠ pid := by
          rintro rfl
          exact hjk (hone j (Or.inr hc))
        rw [hc] at h
        simpa only [killAndReap,setState_ne hne] using h
    · exact h

theorem cleanup_spares {task : Task} {k : ContextRef} {p : Pid}
    (hone : ∀ j, (w.contexts j).Holds p → j = k)
    (hcount : ((serverTaskCleanup w task).contexts k).refcount ≠ 0)
    (h : ((serverTaskCleanup w task).procs p).state = .reaped) : (w.procs p).state = .reaped := by
  unfold serverTaskCleanup at h hcount
  split at h
  · exact h
  · rename_i j hj
    rw [hj] at hcount
    exact releaseContext_spares hone hcount h

theorem callbacks_spares {y : Action} {k : ContextRef} {p : Pid}
    (hone : ∀ j, (w.contexts j).Holds p → j = k) :
    ((callbacks y core w).contexts k).refcount ≠ 0 →
      ((callbacks y core w).procs p).state = .reaped → (w.procs p).state = .reaped := by
  unfold callbacks
  split
  · split <;> exact fun _ => id
  · exact cleanup_spares (w := { w with round := none }) hone
  · exact fun _ => id
  · exact cleanup_spares hone
  · exact fun _ => id

theorem respond_spares {k : ContextRef} {p : Pid} (ha : a.outside = true)
    (hone : ∀ j, (w.contexts j).Holds p → j = k) (h : respond core toFree w a = some (x,w'))
    (hcount : (w'.contexts k).refcount ≠ 0) (hr : (w'.procs p).state = .reaped) :
    (w.procs p).state = .reaped := by
  cases a with
  | request c request =>
    simp only [respond] at h
    split at h
    · cases request <;> cases h <;> exact hr
    · cases h
  | send c ok =>
    obtain ⟨u,hu,he⟩ := Option.map_eq_some_iff.mp h
    cases he
    rw [clientSend_procs hu] at hr
    exact hr
  | print c =>
    simp only [respond] at h
    split at h
    · cases h
      simp only [setPc] at hr
      unfold printSummaryIfNeeded at hr
      split at hr <;> exact hr
    · cases h
  | release c =>
    simp only [respond] at h
    split at h
    · cases h
      exact releaseContext_spares hone hcount hr
    · cases h
  | childWrite pid bytes =>
    simp only [respond] at h
    split at h
    · cases h
      by_cases hp : p = pid
      · subst hp
        simpa using hr
      · simpa [Function.update_of_ne hp] using hr
    · cases h
  | childExit pid =>
    simp only [respond] at h
    split at h
    · cases h
      by_cases hp : p = pid
      · subst hp
        simp [setState] at hr
      · simpa [setState_ne hp] using hr
    · cases h
  | cancelled c =>
    simp only [respond] at h
    split at h <;> cases h <;> exact hr
  | cleanupNext c =>
    cases h
    exact hr
  | requestStop =>
    cases h
    exact hr
  | enter => cases ha
  | exec i => cases ha
  | finish => cases ha
  | _ =>
    simp only [respond] at h
    split at h
    · cases h
      exact hr
    · cases h

end Others

section Moves
variable {v : View} {r : Round} {i : Input} {m : Move}

/-- A move touches the child and the pipe of its own context, or a new child. -/
structure Plumbed (v : View) (m : Move) : Prop where
  procs : ∀ p, p ≠ v.nextPid → ¬ v.context.Holds p → m.procs p = v.procs p
  holds : ∀ p, m.context.Holds p →
    v.context.Holds p ∨ p = v.nextPid ∧ m.nextPid = v.nextPid + 1
  nextPid : v.nextPid ≤ m.nextPid
  /-- A child that is reaped is given up. -/
  live : ∀ p, m.context.childPid = some p → (m.procs p).state = .reaped →
    v.context.childPid = some p ∧ (v.procs p).state = .reaped

/-- A move that leaves the processes and what the context holds alone. -/
theorem plumbed_kept (hprocs : m.procs = v.procs) (hpipe : m.context.pipeFd = v.context.pipeFd)
    (hchild : m.context.childPid = v.context.childPid) (hpid : m.nextPid = v.nextPid) :
    Plumbed v m := by
  refine ⟨?_,?_,hpid.ge,?_⟩
  · intro p _ _
    rw [hprocs]
  · intro p hp
    rw [TaskContext.Holds,hpipe,hchild] at hp
    exact Or.inl hp
  · intro p hp hr
    rw [hchild] at hp
    rw [hprocs] at hr
    exact ⟨hp,hr⟩

/-- A move that changes one process that the context holds, and takes nothing up. -/
theorem plumbed_update {pid : Pid} (hpid : v.context.Holds pid)
    (hprocs : ∀ p, p ≠ pid → m.procs p = v.procs p)
    (hholds : ∀ p, m.context.Holds p → v.context.Holds p) (hnext : m.nextPid = v.nextPid)
    (hlive : m.context.childPid = none ∨ m.context.childPid = v.context.childPid ∧
      ((m.procs pid).state = .reaped → (v.procs pid).state = .reaped)) : Plumbed v m := by
  refine ⟨?_,fun p hp => Or.inl (hholds p hp),hnext.ge,?_⟩
  · intro p _ hp
    apply hprocs
    rintro rfl
    exact hp hpid
  · intro p hp hr
    rcases hlive with hnone | ⟨hchild,hreap⟩
    · rw [hnone] at hp
      cases hp
    · refine ⟨hchild ▸ hp,?_⟩
      by_cases hpp : p = pid
      · subst hpp
        exact hreap hr
      · rw [hprocs p hpp] at hr
        exact hr

theorem stopChild_plumbed (h : (m.context,m.procs) = taskContextStopChild v.context v.procs)
    (hpid : m.nextPid = v.nextPid) : Plumbed v m := by
  unfold taskContextStopChild at h
  split at h
  · rename_i pid hc
    split at h
    · obtain ⟨hctx,hprocs⟩ := Prod.mk.inj h
      apply plumbed_update (Or.inr hc) _ _ hpid
      · refine Or.inr ⟨by rw [hctx],?_⟩
        rw [hprocs]
        split
        · intro hr
          simp [setState] at hr
        · exact id
      · intro p hp
        rw [hprocs]
        split
        · exact setState_ne hp
        · rfl
      · intro p hp
        rw [hctx] at hp
        exact hp
    · obtain ⟨hctx,hprocs⟩ := Prod.mk.inj h
      exact plumbed_kept hprocs (by rw [hctx]) (by rw [hctx]) hpid
  · obtain ⟨hctx,hprocs⟩ := Prod.mk.inj h
    exact plumbed_kept hprocs (by rw [hctx]) (by rw [hctx]) hpid

theorem resumeChild_plumbed (h : (m.context,m.procs) = taskContextResumeChild v.context v.procs)
    (hpid : m.nextPid = v.nextPid) : Plumbed v m := by
  unfold taskContextResumeChild at h
  split at h
  · rename_i pid hc
    split at h
    · obtain ⟨hctx,hprocs⟩ := Prod.mk.inj h
      exact plumbed_kept hprocs (by rw [hctx]) (by rw [hctx]) hpid
    · obtain ⟨hctx,hprocs⟩ := Prod.mk.inj h
      apply plumbed_update (Or.inr hc) _ _ hpid
      · refine Or.inr ⟨by rw [hctx],?_⟩
        rw [hprocs]
        split
        · intro hr
          simp [setState] at hr
        · exact id
      · intro p hp
        rw [hprocs]
        split
        · exact setState_ne hp
        · rfl
      · intro p hp
        rw [hctx] at hp
        exact hp
  · obtain ⟨hctx,hprocs⟩ := Prod.mk.inj h
    exact plumbed_kept hprocs (by rw [hctx]) (by rw [hctx]) hpid

theorem childReaped_plumbed {pid : Pid} (hc : v.context.childPid = some pid)
    (h : (m.context,m.procs) = childReaped v.context v.procs pid) (hpid : m.nextPid = v.nextPid) :
    Plumbed v m := by
  obtain ⟨hctx,hprocs⟩ := Prod.mk.inj h
  apply plumbed_update (Or.inr hc) _ _ hpid (Or.inl (by rw [hctx]))
  · intro p hp
    rw [hprocs]
    exact setState_ne hp
  · intro p hp
    rw [hctx] at hp
    rcases hp with hp | hp
    · exact Or.inl hp
    · cases hp

theorem plumbed_goto (pc : ExecutorPc) : Plumbed v (goto v r pc) := plumbed_kept rfl rfl rfl rfl

theorem executeShellTask_plumbed (h : executeShellTask v r i = some m) : Plumbed v m := by
  unfold executeShellTask at h
  split at h
  · split at h
    · split at h
      · cases h
        exact plumbed_goto _
      · split at h <;> cases h <;> exact plumbed_goto _
    · cases h
      exact plumbed_goto _
  · cases h

theorem executeProgramTask_plumbed (h : executeProgramTask v r i = some m) : Plumbed v m := by
  unfold executeProgramTask at h
  split at h
  · cases h
    exact plumbed_goto _
  · split at h
    · cases h
      refine ⟨?_,?_,Nat.le_succ _,?_⟩
      · intro p hp _
        exact Function.update_of_ne hp _ _
      · intro p hp
        rcases hp with hp | hp
        · exact Or.inr ⟨(Option.some.inj hp).symm,rfl⟩
        · exact Or.inr ⟨(Option.some.inj hp).symm,rfl⟩
      · intro p hp hr
        obtain rfl : v.nextPid = p := Option.some.inj hp
        simp [taskContextStartChild] at hr
    · cases h
      exact plumbed_goto _
    · split at h
      · cases h
        exact plumbed_goto _
      · split at h <;> cases h
        · exact resumeChild_plumbed rfl rfl
        · exact plumbed_goto _
    · cases h

theorem taskContextDrainPipe_plumbed {site : Site} (h : taskContextDrainPipe v r site i = some m) :
    Plumbed v m := by
  unfold taskContextDrainPipe at h
  split at h
  case h_2 pid size allocOk hc =>
    have hread : ∀ (m : Move) (bytes : Text), m.procs = Function.update v.procs pid
        { v.procs pid with pipe := bytes } → m.context.pipeFd = v.context.pipeFd →
        m.context.childPid = v.context.childPid → m.nextPid = v.nextPid → Plumbed v m := by
      intro m bytes hprocs hpipe hchild hpid
      apply plumbed_update (Or.inl hc) _ _ hpid
      · refine Or.inr ⟨hchild,?_⟩
        rw [hprocs,Function.update_self]
        exact id
      · intro p hp
        rw [hprocs]
        exact Function.update_of_ne hp _ _
      · intro p hp
        rw [TaskContext.Holds,hpipe,hchild] at hp
        exact hp
    dsimp only at h
    split at h
    · split at h
      · cases h
        exact hread _ _ rfl rfl rfl rfl
      · split at h <;> cases h <;> exact hread _ _ rfl rfl rfl rfl
    · cases h
  case h_3 =>
    split at h
    · cases h
      refine ⟨fun _ _ _ => rfl,?_,le_rfl,fun _ hp hr => ⟨hp,hr⟩⟩
      intro p hp
      rcases hp with hp | hp
      · cases hp
      · exact Or.inl (Or.inr hp)
    · cases h
  all_goals cases h <;> exact plumbed_goto _

theorem sendProgress_plumbed {site : Site} {chunk : Text} {pieces : List Piece}
    (h : sendProgress v r site chunk pieces i = some m) : Plumbed v m := by
  unfold sendProgress at h
  split at h
  · dsimp only at h
    split at h <;> cases h <;> exact plumbed_kept rfl rfl rfl rfl
  · cases h
    exact plumbed_kept rfl rfl rfl rfl
  · cases h

theorem waitChild_plumbed (h : waitChild v r = some m) : Plumbed v m := by
  unfold waitChild at h
  split at h
  · rename_i hc
    split at h <;> cases h
    exact childReaped_plumbed hc rfl rfl
  · cases h

theorem exitStep_plumbed {exit : Exit} {op : ExitOp} {rest : List ExitOp}
    (h : exitStep v r exit op rest i = some m) : Plumbed v m := by
  unfold exitStep at h
  dsimp only at h
  split at h
  case h_1 =>
    cases h
    refine ⟨?_,?_,le_rfl,fun _ hp => (by cases hp)⟩
    · intro p _ hp
      cases hc : v.context.childPid with
      | none => simp [taskContextTerminateChild,killAndReap,hc]
      | some pid =>
        have hne : p ≠ pid := by
          rintro rfl
          exact hp (Or.inr hc)
        simp [taskContextTerminateChild,killAndReap,hc,setState_ne hne]
    · intro p hp
      rcases hp with hp | hp <;> cases hp
  case h_2 => split at h <;> cases h <;> exact plumbed_kept rfl rfl rfl rfl
  case h_6 => split at h <;> cases h <;> exact plumbed_kept rfl rfl rfl rfl
  all_goals cases h <;> exact plumbed_kept rfl rfl rfl rfl

theorem serverTaskExecutor_plumbed (h : serverTaskExecutor v r i = some m) : Plumbed v m := by
  unfold serverTaskExecutor at h
  split at h
  · split at h
    · cases h
      exact plumbed_goto _
    · split at h <;> cases h <;> exact plumbed_goto _
  · exact executeShellTask_plumbed h
  · exact executeProgramTask_plumbed h
  · cases h
    unfold loopTest
    split
    · split <;> exact plumbed_kept rfl rfl rfl rfl
    · exact plumbed_goto _
  · cases h
    exact plumbed_goto _
  · exact taskContextDrainPipe_plumbed h
  · exact sendProgress_plumbed h
  · cases h
    exact plumbed_kept rfl rfl rfl rfl
  · cases h
    unfold reap
    split
    · rename_i hc
      split
      · exact childReaped_plumbed hc rfl rfl
      · exact plumbed_goto _
    · exact plumbed_goto _
  · cases h
    unfold pollPreempt
    split
    · exact stopChild_plumbed rfl rfl
    · exact plumbed_kept rfl rfl rfl rfl
  · cases h
    unfold afterLoop
    split
    · exact stopChild_plumbed rfl rfl
    · split <;> exact plumbed_goto _
  · exact waitChild_plumbed h
  · exact exitStep_plumbed h
  · cases h
    exact plumbed_kept rfl rfl rfl rfl
  · cases h

end Moves

/-- Every child and every pipe has one context, and none has the next name. -/
structure Piped (w : World) : Prop where
  old : ∀ k p, (w.contexts k).Holds p → p < w.nextPid
  one : ∀ j k p, (w.contexts j).Holds p → (w.contexts k).Holds p → j = k

theorem piped_init (config : SchedulerConfig) : Piped (serverInitWith TaskLists config).world := by
  constructor
  · intro k p hp
    rcases hp with hp | hp <;> cases hp
  · intro j k p hp
    rcases hp with hp | hp <;> cases hp

section Server
variable {s s' : State TaskLists} {a : ServerAction}

/-- Where every context holds at most what it held before. -/
theorem Piped.congr {w w' : World} (h : Piped w) (hpid : w'.nextPid = w.nextPid)
    (hholds : ∀ k p, (w'.contexts k).Holds p → (w.contexts k).Holds p) : Piped w' := by
  constructor
  · intro k p hp
    rw [hpid]
    exact h.old k p (hholds k p hp)
  · intro j k p hj hk
    exact h.one j k p (hholds j p hj) (hholds k p hk)

/-- A step that is no move of the executor. -/
theorem serverStep_holds (hx : ∀ i, a ≠ .exec i) (he : serverStep s a = some s') :
    s'.world.nextPid = s.world.nextPid ∧
      ∀ k p, (s'.world.contexts k).Holds p → (s.world.contexts k).Holds p := by
  by_cases ha : a.outside = true
  · rcases serverStep_cases he with ⟨w,hr,rfl⟩ | ⟨y,w,sched,hr,hs,rfl⟩
    · have hresp := respond_responded ha hr
      exact ⟨hresp.nextPid,fun k p => hresp.holds⟩
    · have hresp := respond_responded ha hr
      constructor
      · rw [callbacks_nextPid]
        exact hresp.nextPid
      · intro k p hp
        exact hresp.holds (callbacks_holds hp)
  · cases a with
    | enter =>
      obtain ⟨_,hw⟩ := serverStep_enter he
      rw [hw]
      exact ⟨callbacks_nextPid _,fun k p => callbacks_holds⟩
    | finish =>
      obtain ⟨_,hw⟩ := serverStep_finish he
      rw [hw]
      exact ⟨callbacks_nextPid _,fun k p => callbacks_holds⟩
    | exec i => exact (hx i rfl).elim
    | _ => exact (ha rfl).elim

theorem step_piped (h : Piped s.world) (he : serverStep s a = some s') : Piped s'.world := by
  by_cases hx : ∃ i, a = .exec i
  · obtain ⟨i,rfl⟩ := hx
    obtain ⟨r,m,_,hm,hw,_⟩ := serverStep_executor he
    have hplumbed := serverTaskExecutor_plumbed hm
    have hctx := (serverTaskExecutor_moved hm).context
    have hself : s'.world.contexts r.context = m.context := by
      rw [hw,applyMove_contexts hctx,Function.update_self]
    have hother : ∀ k, k ≠ r.context → s'.world.contexts k = s.world.contexts k := by
      intro k hk
      rw [hw,applyMove_contexts hctx,Function.update_of_ne hk]
    have hpid : s'.world.nextPid = m.nextPid := by
      rw [hw]
      rfl
    -- what a context holds after the move it held before, or the round's task has a new child
    have hcases : ∀ k p, (s'.world.contexts k).Holds p → (s.world.contexts k).Holds p ∨
        k = r.context ∧ p = s.world.nextPid ∧ m.nextPid = s.world.nextPid + 1 := by
      intro k p hp
      by_cases hk : k = r.context
      · subst hk
        rw [hself] at hp
        rcases hplumbed.holds p hp with hold | hnew
        · exact Or.inl hold
        · exact Or.inr ⟨rfl,hnew⟩
      · rw [hother k hk] at hp
        exact Or.inl hp
    constructor
    · intro k p hp
      rw [hpid]
      rcases hcases k p hp with hold | ⟨_,rfl,hnext⟩
      · exact (h.old k p hold).trans_le hplumbed.nextPid
      · rw [hnext]
        exact Nat.lt_succ_self _
    · intro j k p hj hk
      rcases hcases j p hj with hj | ⟨rfl,rfl,_⟩
      · rcases hcases k p hk with hk | ⟨rfl,rfl,_⟩
        · exact h.one j k p hj hk
        · exact absurd (h.old j _ hj) (lt_irrefl _)
      · rcases hcases k _ hk with hk | ⟨rfl,_,_⟩
        · exact absurd (h.old k _ hk) (lt_irrefl _)
        · rfl
  · obtain ⟨hpid,hholds⟩ := serverStep_holds (not_exists.mp hx) he
    exact h.congr hpid hholds

theorem serverStep_childWrite {pid : Pid} {bytes : Text}
    (he : serverStep s (.childWrite pid bytes) = some s') :
    (s.world.procs pid).state = .running ∧ s'.world = { s.world with
      procs := Function.update s.world.procs pid
        { s.world.procs pid with pipe := (s.world.procs pid).pipe ++ bytes } } := by
  rcases serverStep_cases he with ⟨w,hr,rfl⟩ | ⟨y,w,sched,hr,hs,rfl⟩
  · simp only [respond] at hr
    split at hr
    · rename_i hrun
      cases hr
      exact ⟨hrun,rfl⟩
    · cases hr
  · simp only [respond] at hr
    split at hr <;> cases hr

/-- What a context holds is left alone by the other rounds and by what others write. -/
theorem serverStep_ages (h : Piped s.world) (he : serverStep s a = some s') {k : ContextRef}
    {p : Pid} (hp : (s.world.contexts k).Holds p)
    (hround : ∀ i r, a = .exec i → s.world.round = some r → r.context ≠ k)
    (hw : ∀ bytes, a ≠ .childWrite p bytes) : Ages (s.world.procs p) (s'.world.procs p) := by
  by_cases ha : a.outside = true
  · by_cases hwrite : ∃ pid bytes, a = .childWrite pid bytes
    · obtain ⟨pid,bytes,rfl⟩ := hwrite
      have hne : p ≠ pid := by
        rintro rfl
        exact hw bytes rfl
      simp only [serverStep,respond] at he
      split at he
      · cases he
      · rename_i w hr
        split at hr <;> cases hr
        cases he
        simp only [Function.update_of_ne hne]
        exact Ages.refl _
      · rename_i y w hr
        split at hr <;> cases hr
    · have hwrite' : ∀ pid bytes, a ≠ .childWrite pid bytes :=
        fun pid bytes he => hwrite ⟨pid,bytes,he⟩
      rcases serverStep_cases he with ⟨w,hr,rfl⟩ | ⟨y,w,sched,hr,hs,rfl⟩
      · exact respond_ages ha hwrite' hr p
      · exact (respond_ages ha hwrite' hr p).trans (callbacks_ages y p)
  · cases a with
    | enter =>
      obtain ⟨_,hw⟩ := serverStep_enter he
      rw [hw]
      exact callbacks_ages _ _
    | finish =>
      obtain ⟨_,hw⟩ := serverStep_finish he
      rw [hw]
      exact callbacks_ages _ _
    | exec i =>
      obtain ⟨r,m,hr,hm,hw,_⟩ := serverStep_executor he
      have hne := hround i r rfl hr
      have hsame : m.procs p = s.world.procs p := by
        apply (serverTaskExecutor_plumbed hm).procs p
        · exact (h.old k p hp).ne
        · intro hp'
          exact hne (h.one _ _ _ hp' hp)
      have hprocs : s'.world.procs p = m.procs p := by
        rw [hw]
        rfl
      rw [hprocs,hsame]
      exact Ages.refl _
    | _ => exact (ha rfl).elim

/-- The child of a living context is not reaped behind the back of its executor. -/
theorem serverStep_spares (h : Piped s.world) (he : serverStep s a = some s') {k : ContextRef}
    {p : Pid} (hp : (s.world.contexts k).Holds p)
    (hround : ∀ i r, a = .exec i → s.world.round = some r → r.context ≠ k)
    (hcount : (s'.world.contexts k).refcount ≠ 0) (hr : (s'.world.procs p).state = .reaped) :
    (s.world.procs p).state = .reaped := by
  have hone : ∀ j, (s.world.contexts j).Holds p → j = k := fun j hj => h.one j k p hj hp
  by_cases ha : a.outside = true
  · rcases serverStep_cases he with ⟨w,hresp,rfl⟩ | ⟨y,w,sched,hresp,hs,rfl⟩
    · exact respond_spares ha hone hresp hcount hr
    · have hresponded := respond_responded ha hresp
      have hone' : ∀ j, (w.contexts j).Holds p → j = k := fun j hj => hone j (hresponded.holds hj)
      obtain ⟨hy,_⟩ := hresponded.action
      cases y with
      | free thread =>
        obtain ⟨rfl,rfl⟩ := respond_free ha hresp
        exact callbacks_spares hone' hcount hr
      | enter => cases hy
      | finish => cases hy
      | _ => exact respond_spares ha hone hresp hcount hr
  · cases a with
    | enter =>
      obtain ⟨_,hw⟩ := serverStep_enter he
      rw [hw] at hcount hr
      exact callbacks_spares hone hcount hr
    | finish =>
      obtain ⟨_,hw⟩ := serverStep_finish he
      rw [hw] at hcount hr
      exact callbacks_spares hone hcount hr
    | exec i =>
      obtain ⟨r,m,hr₀,hm,hw,_⟩ := serverStep_executor he
      have hne := hround i r rfl hr₀
      have hsame : m.procs p = s.world.procs p := by
        apply (serverTaskExecutor_plumbed hm).procs p
        · exact (h.old k p hp).ne
        · intro hp'
          exact hne (hone _ hp')
      rw [hw] at hr
      rw [← hsame]
      exact hr
    | _ => exact (ha rfl).elim

end Server

end UnixShell.Server
