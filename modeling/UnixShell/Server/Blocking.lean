import UnixShell.Server.Piping
import UnixShell.Server.Polling

/-! # Where the executor waits

A round waits in two places: for a second in its loop, and for the child after it. Nothing
else can keep the executor from its next move. The second wait is for as long as the child
likes, so that no round blocks exactly where each child ends before its burst does.
-/
namespace UnixShell.Server
open Foundation Scheduler

/-- The executor is not kept waiting by a child. -/
structure Unblocked {Q : Type} [TaskQueue Q] (s : State Q) : Prop where
  /-- `waitpid` without `WNOHANG` finds a child that has exited. -/
  exited : ∀ r p, s.world.round = some r → r.pc = .waitChild →
    (s.world.contexts r.context).childPid = some p → (s.world.procs p).state = .zombie
  goesOn : ∀ r, s.world.round = some r → (∀ exit, r.pc ≠ .returned exit) →
    ∃ i, (serverStep s (.exec i)).isSome = true
  /-- After a tick the pipe is drained. -/
  drains : ∀ r i s', s.world.round = some r → r.pc = .sleeping →
    serverStep s (.exec i) = some s' →
    s'.world.round.map (fun r => r.pc) = some (.draining .tick)

/-- A loop that has used the burst up is left with a child that has exited. -/
def exitsInBurst (core : Core) (w : World) : ServerAction → Prop
  | .exec _ => ∀ r ∈ w.round, r.pc = .afterLoop → (core.tasks r.task).remainingBurst ≤ 0 →
    ∀ p ∈ (w.contexts r.context).childPid, (w.procs p).state = .zombie
  | _ => True

section Moves
variable {v : View} {r : Round} {i : Input} {m : Move}

/-- Wherever a round stands, some answer takes it further, but for a child that lives on. -/
theorem serverTaskExecutor_enabled (hret : ∀ exit, r.pc ≠ .returned exit)
    (hsend : ∀ site chunk, r.pc ≠ .sending site chunk [])
    (hwait : r.pc = .waitChild → ∃ p, v.context.childPid = some p ∧ (v.procs p).state = .zombie) :
    ∃ i m, serverTaskExecutor v r i = some m := by
  cases hp : r.pc with
  | start =>
    refine ⟨.go,?_⟩
    simp only [serverTaskExecutor,hp]
    split
    · exact ⟨_,rfl⟩
    · split <;> exact ⟨_,rfl⟩
  | shell =>
    refine ⟨.shellRun false false none false,?_⟩
    simp only [serverTaskExecutor,hp]
    exact ⟨_,rfl⟩
  | program =>
    cases hargv : v.context.argv with
    | none =>
      refine ⟨.go,?_⟩
      simp only [serverTaskExecutor,hp,executeProgramTask,hargv]
      exact ⟨_,rfl⟩
    | some argv =>
      cases hchild : v.context.childPid with
      | none =>
        refine ⟨.started false,?_⟩
        simp only [serverTaskExecutor,hp,executeProgramTask,hargv,hchild]
        exact ⟨_,rfl⟩
      | some pid =>
        refine ⟨.resumed false,?_⟩
        simp only [serverTaskExecutor,hp,executeProgramTask,hargv,hchild]
        split <;> exact ⟨_,rfl⟩
  | draining site =>
    cases hpipe : v.context.pipeFd with
    | none =>
      refine ⟨.go,?_⟩
      simp only [serverTaskExecutor,hp,taskContextDrainPipe,hpipe]
      exact ⟨_,rfl⟩
    | some pid =>
      refine ⟨.readAgain,?_⟩
      simp only [serverTaskExecutor,hp,taskContextDrainPipe,hpipe]
      exact ⟨_,rfl⟩
  | sending site chunk pieces =>
    cases pieces with
    | nil => exact (hsend site chunk hp).elim
    | cons piece rest =>
      refine ⟨.sent false,?_⟩
      simp only [serverTaskExecutor,hp,sendProgress]
      exact ⟨_,rfl⟩
  | waitChild =>
    obtain ⟨pid,hchild,hz⟩ := hwait hp
    refine ⟨.go,?_⟩
    simp only [serverTaskExecutor,hp,waitChild,hchild,if_pos hz]
    exact ⟨_,rfl⟩
  | exiting exit ops =>
    cases ops with
    | nil =>
      refine ⟨.go,?_⟩
      simp only [serverTaskExecutor,hp]
      exact ⟨_,rfl⟩
    | cons op rest =>
      cases op with
      | fail message =>
        refine ⟨.allocated false,?_⟩
        simp only [serverTaskExecutor,hp,exitStep]
        exact ⟨_,rfl⟩
      | appendSlice =>
        refine ⟨.go,?_⟩
        simp only [serverTaskExecutor,hp,exitStep]
        split <;> exact ⟨_,rfl⟩
      | _ =>
        refine ⟨.go,?_⟩
        simp only [serverTaskExecutor,hp,exitStep]
        exact ⟨_,rfl⟩
  | returned exit => exact (hret exit hp).elim
  | _ =>
    refine ⟨.go,?_⟩
    simp only [serverTaskExecutor,hp]
    exact ⟨_,rfl⟩

/-- A packet that is begun has a piece left. -/
theorem shift_sending {pc pc' : ExecutorPc} {x : Option Action} {events : List ServerEvent}
    (h : Shift v r pc i pc' x events) (hpc : ∀ site chunk, pc ≠ .sending site chunk []) :
    ∀ site chunk, pc' ≠ .sending site chunk [] := by
  intro site chunk
  cases h with
  | chunk bytes _ _ => simp [packetPieces]
  | piece connection _ =>
    split
    · simp
    · rename_i hrest
      rintro ⟨⟩
      exact hrest rfl
  | drained hd => cases hd <;> simp
  | _ => simp

theorem shift_waitChild {pc pc' : ExecutorPc} {x : Option Action} {events : List ServerEvent}
    (h : Shift v r pc i pc' x events) (hp : pc' = .waitChild) : pc = .afterLoop := by
  cases h with
  | wait => rfl
  | drained hd => cases hd <;> cases hp
  | piece connection _ => split at hp <;> cases hp
  | _ => cases hp

/-- Control comes to the wait from the end of the loop, with a child and no burst. -/
theorem serverTaskExecutor_waitChild (h : serverTaskExecutor v r i = some m)
    (hp : m.round.pc = .waitChild) : r.pc = .afterLoop ∧ v.task.remainingBurst ≤ 0 ∧
      (∃ p, v.context.childPid = some p) ∧ m.context = v.context ∧ m.procs = v.procs := by
  have hpc := shift_waitChild (serverTaskExecutor_moved h).shift hp
  refine ⟨hpc,?_⟩
  have hm : m = afterLoop v r := by
    unfold serverTaskExecutor at h
    rw [hpc] at h
    cases i <;> simp_all
  rw [hm] at hp ⊢
  unfold afterLoop at hp ⊢
  split at hp
  · cases hp
  · rename_i hburst
    rw [if_neg hburst]
    split at hp
    · rename_i pid hchild
      simp only [hchild]
      exact ⟨by omega,⟨pid,rfl⟩,rfl,rfl⟩
    · cases hp

end Moves

section Lists
variable {s s' : State TaskLists} {a : ServerAction} {t : TaskRef}

/-- What is known of rounds and children in every state. -/
structure Ready (s : State TaskLists) : Prop where
  coherent : Coherent s
  piped : Piped s.world
  unheld : ∀ k p, s.sched.allocated ≤ k → ¬ (s.world.contexts k).Holds p
  sending : ∀ r, s.world.round = some r → ∀ site chunk, r.pc ≠ .sending site chunk []
  unreaped : ∀ t p, t < s.sched.allocated → Event.cleanup t ∉ s.sched.events →
    (s.world.contexts t).childPid = some p → (s.world.procs p).state ≠ .reaped

/-- A child that the executor waits for has exited. -/
def Awaits (s : State TaskLists) : Prop :=
  ∀ r, s.world.round = some r → r.pc = .waitChild →
    ∃ p, (s.world.contexts r.context).childPid = some p ∧ (s.world.procs p).state = .zombie

theorem ready_init (config : SchedulerConfig) : Ready (serverInitWith TaskLists config) := by
  refine ⟨coherent_init config,piped_init config,?_,?_,?_⟩
  · intro k p _ hp
    rcases hp with hp | hp <;> cases hp
  · intro r hr
    cases hr
  · intro t p ht
    exact absurd ht (Nat.not_lt_zero t)

theorem Process.zombie_of_dead {p : Process} (h : p.alive = false) (hr : p.state ≠ .reaped) :
    p.state = .zombie := by
  cases hs : p.state with
  | zombie => rfl
  | reaped => exact (hr hs).elim
  | running =>
    rw [Process.alive,hs] at h
    cases h
  | stopped =>
    rw [Process.alive,hs] at h
    cases h

/-- A context that no step of its own round changes keeps its child. -/
theorem Ready.keeps (h : Ready s) (he : serverStep s a = some s') (ht : t < s.sched.allocated)
    (hz : Event.cleanup t ∉ s'.sched.events)
    (hround : ∀ i r, a = .exec i → s.world.round = some r → r.context ≠ t) :
    Keeps (s.world.contexts t) (s'.world.contexts t) ∧ (s'.world.contexts t).refcount ≠ 0 := by
  have hcoherent := step_coherent h.coherent he
  have hlt := ht.trans_le (serverStep_shape h.coherent.1 he).allocated
  have hcount := hcoherent.refcount hlt hz
  refine ⟨?_,hcount⟩
  rcases serverStep_keeps h.coherent.1 he ht hcount with hk | ⟨i,r,ha,hr,hrt⟩
  · exact hk
  · exact (hround i r ha hr hrt).elim

theorem step_unheld (h : Ready s) (he : serverStep s a = some s') :
    ∀ k p, s'.sched.allocated ≤ k → ¬ (s'.world.contexts k).Holds p := by
  intro k p hk hp
  have hk₀ := (serverStep_shape h.coherent.1 he).allocated.trans hk
  by_cases hx : ∃ i, a = .exec i
  · obtain ⟨i,rfl⟩ := hx
    obtain ⟨r,m,hr,hm,hw,_⟩ := serverStep_executor he
    have hne : k ≠ r.context := by
      rw [(h.coherent.1.running r hr).2]
      exact ((h.coherent.1.task_lt hr).trans_le hk₀).ne'
    rw [hw,applyMove_contexts (serverTaskExecutor_moved hm).context,
      Function.update_of_ne hne] at hp
    exact h.unheld k p hk₀ hp
  · exact h.unheld k p hk₀ ((serverStep_holds (not_exists.mp hx) he).2 k p hp)

theorem step_sending (h : Ready s) (he : serverStep s a = some s') :
    ∀ r, s'.world.round = some r → ∀ site chunk, r.pc ≠ .sending site chunk [] := by
  intro r' hr'
  cases serverStep_shape h.coherent.1 he with
  | outside _ hw _ =>
    rw [hw.round] at hr'
    exact h.sending r' hr'
  | @exec i r m hr hm hw _ =>
    rw [hw] at hr'
    obtain rfl := Option.some.inj hr'
    exact shift_sending hm.shift (h.sending r hr)
  | idle _ _ _ hw =>
    rw [hw] at hr'
    exact h.sending r' hr'
  | dispatch _ _ _ _ _ hw =>
    rw [hw] at hr'
    obtain rfl := Option.some.inj hr'
    simp [newRound]
  | finish _ _ _ _ hnone _ =>
    rw [hnone] at hr'
    cases hr'

theorem step_unreaped (h : Ready s) (he : serverStep s a = some s') :
    ∀ t p, t < s'.sched.allocated → Event.cleanup t ∉ s'.sched.events →
      (s'.world.contexts t).childPid = some p → (s'.world.procs p).state ≠ .reaped := by
  intro t p ht hz hp hr
  by_cases hlt : t < s.sched.allocated
  · have hz₀ : Event.cleanup t ∉ s.sched.events := by
      intro hm
      rcases (serverStep_shape h.coherent.1 he).sched with hs | ⟨y,hs,_⟩
      · exact hz (hs ▸ hm)
      · exact hz ((step_cleanup_iff hs).mpr (Or.inr hm))
    by_cases hround : ∃ i r, a = .exec i ∧ s.world.round = some r ∧ r.context = t
    · obtain ⟨i,r,rfl,hround,rfl⟩ := hround
      obtain ⟨r₀,m,hr₀,hm,hw,_⟩ := serverStep_executor he
      obtain rfl := Option.some.inj (hround.symm.trans hr₀)
      have hctx := (serverTaskExecutor_moved hm).context
      rw [hw,applyMove_contexts hctx,Function.update_self] at hp
      rw [hw] at hr
      obtain ⟨hp₀,hr₀⟩ := (serverTaskExecutor_plumbed hm).live p hp hr
      exact h.unreaped _ p hlt hz₀ hp₀ hr₀
    · have hround' : ∀ i r, a = .exec i → s.world.round = some r → r.context ≠ t :=
        fun i r ha hr hrt => hround ⟨i,r,ha,hr,hrt⟩
      obtain ⟨hkeeps,hcount⟩ := h.keeps he hlt hz hround'
      have hp₀ : (s.world.contexts t).childPid = some p := by
        rw [hkeeps] at hp
        exact hp
      exact h.unreaped t p hlt hz₀ hp₀
        (serverStep_spares h.piped he (Or.inr hp₀) hround' hcount hr)
  · -- a new context has no child yet
    have hx : ∀ i, a ≠ .exec i := by
      rintro i rfl
      obtain ⟨r,m,_,hm,_,hs⟩ := serverStep_executor he
      have hn := (moved_cleanup (serverTaskExecutor_moved hm) hs).1
      exact hlt (hn ▸ ht)
    exact h.unheld t p (Nat.le_of_not_lt hlt) ((serverStep_holds hx he).2 t p (Or.inr hp))

theorem Ready.step (h : Ready s) (he : serverStep s a = some s') : Ready s' :=
  ⟨step_coherent h.coherent he,step_piped h.piped he,step_unheld h he,step_sending h he,
    step_unreaped h he⟩

/-- A child that has exited waits to be reaped by its own executor. -/
theorem Ready.zombie (h : Ready s) (he : serverStep s a = some s') {r : Round} {p : Pid}
    (hr : s.world.round = some r) (hr' : s'.world.round = some r) (ha : ∀ i, a ≠ .exec i)
    (hp : (s.world.contexts r.context).childPid = some p)
    (hs : (s.world.procs p).state = .zombie) :
    (s'.world.contexts r.context).childPid = some p ∧ (s'.world.procs p).state = .zombie := by
  have hready := h.step he
  have hctx := (h.coherent.1.running r hr).2
  have hlt := h.coherent.1.task_lt hr
  have hz : Event.cleanup r.task ∉ s'.sched.events := by
    obtain ⟨place,hplace⟩ := hready.coherent.1.sched.placed
    exact fun hz => hplace.finalised_not_current hz (hready.coherent.1.current hr')
  have hround : ∀ i r', a = .exec i → s.world.round = some r' → r'.context ≠ r.task :=
    fun i _ hai => (ha i hai).elim
  rw [hctx] at hp ⊢
  obtain ⟨hkeeps,_⟩ := h.keeps he hlt hz hround
  have hp' : (s'.world.contexts r.task).childPid = some p := by
    rw [hkeeps]
    exact hp
  refine ⟨hp',Process.zombie_of_dead ?_ ?_⟩
  · apply (serverStep_ages h.piped he (Or.inr hp) hround ?_).dead
    · rw [Process.alive,hs]
      rfl
    · rintro bytes rfl
      rw [(serverStep_childWrite he).1] at hs
      cases hs
  · exact hready.unreaped _ p (hready.coherent.1.task_lt hr') hz hp'

theorem step_awaits (h : Ready s) (hw : Awaits s) (hok : exitsInBurst s.sched.toCore s.world a)
    (he : serverStep s a = some s') : Awaits s' := by
  intro r' hr' hp'
  have hother : (∀ i, a ≠ .exec i) → s.world.round = some r' →
      ∃ p, (s'.world.contexts r'.context).childPid = some p ∧
        (s'.world.procs p).state = .zombie := by
    intro ha hr
    obtain ⟨p,hp,hs⟩ := hw r' hr hp'
    exact ⟨p,h.zombie he hr hr' ha hp hs⟩
  cases serverStep_shape h.coherent.1 he with
  | outside ha hout _ =>
    apply hother
    · rintro i rfl
      cases ha
    · rw [← hout.round]
      exact hr'
  | exec =>
    obtain ⟨r,m,hr,hm,hworld,_⟩ := serverStep_executor he
    have hround : s'.world.round = some m.round := by
      rw [hworld]
      rfl
    obtain rfl := Option.some.inj (hround.symm.trans hr')
    obtain ⟨hpc,hburst,⟨p,hp⟩,hcontext,hprocs⟩ := serverTaskExecutor_waitChild hm hp'
    have hctx := (serverTaskExecutor_moved hm).context
    refine ⟨p,?_,?_⟩
    · rw [hworld,applyMove_contexts rfl,Function.update_self,hcontext]
      exact hp
    · rw [hworld]
      show (m.procs p).state = .zombie
      rw [hprocs]
      exact hok r hr hpc hburst p hp
  | idle hr _ _ hworld =>
    rw [hworld,hr] at hr'
    cases hr'
  | dispatch _ _ _ _ _ hworld =>
    rw [hworld] at hr'
    obtain rfl := Option.some.inj hr'
    cases hp'
  | finish _ _ _ _ hnone _ =>
    rw [hnone] at hr'
    cases hr'

end Lists

section Servers
variable {Q : Type} [TaskQueue Q] {s s' : State Q} {r : Round} {i : Input} {m : Move}

/-- The scheduler grants what the executor asks of it. -/
theorem serverStep_isSome (hr : s.world.round = some r) (hmain : s.sched.main = mainOf r)
    (hm : serverTaskExecutor (view s.sched.toCore s.world r) r i = some m) :
    (serverStep s (.exec i)).isSome = true := by
  have hresp : respond s.sched.toCore (TaskQueue.toFree s.sched.queue) s.world (.exec i) =
      some (m.action,applyMove s.world m) := by
    simp only [respond,hr,hm,Option.map_some]
  simp only [serverStep,hresp]
  rcases shift_main (serverTaskExecutor_moved hm).shift with
    ⟨hin,_,hx | ⟨b,hx⟩⟩ | ⟨exit,hp,_,hx⟩
  · rw [hx]
    rfl
  · rw [mainOf_executing hin] at hmain
    rw [hx]
    simp [Scheduler.step,hmain]
  · rw [mainOf_executing (by rw [hp]; rfl)] at hmain
    rw [hx]
    simp [Scheduler.step,hmain]

theorem sleeping_drains (hr : s.world.round = some r) (hp : r.pc = .sleeping)
    (he : serverStep s (.exec i) = some s') :
    s'.world.round.map (fun r => r.pc) = some (.draining .tick) := by
  obtain ⟨r₀,m,hr₀,hm,hw,_⟩ := serverStep_executor he
  obtain rfl := Option.some.inj (hr.symm.trans hr₀)
  have hm' : m.round.pc = .draining .tick := by
    have hshift := (serverTaskExecutor_moved hm).shift
    rw [hp] at hshift
    generalize m.round.pc = pc at hshift ⊢
    generalize m.events = events at hshift
    generalize m.action = x at hshift
    cases hshift
    rfl
  rw [hw]
  exact congrArg some hm'

theorem unblocked_of_ready (hmain : ∀ r, s.world.round = some r → s.sched.main = mainOf r)
    (hsend : ∀ r, s.world.round = some r → ∀ site chunk, r.pc ≠ .sending site chunk [])
    (hwait : ∀ r, s.world.round = some r → r.pc = .waitChild →
      ∃ p, (s.world.contexts r.context).childPid = some p ∧ (s.world.procs p).state = .zombie) :
    Unblocked s := by
  refine ⟨?_,?_,fun r i s' hr hp he => sleeping_drains hr hp he⟩
  · intro r p hr hp hchild
    obtain ⟨p',hchild',hz⟩ := hwait r hr hp
    obtain rfl := Option.some.inj (hchild.symm.trans hchild')
    exact hz
  · intro r hr hret
    obtain ⟨i,m,hm⟩ := serverTaskExecutor_enabled
      (v := view s.sched.toCore s.world r) hret (hsend r hr) (hwait r hr)
    exact ⟨i,serverStep_isSome hr (hmain r hr) hm⟩

/-- A loop left before the child has exited leads straight into the wait. -/
theorem blocks_of_outlived (hr : s.world.round = some r) (hp : r.pc = .afterLoop)
    (hburst : (s.sched.tasks r.task).remainingBurst ≤ 0) {p : Pid}
    (hchild : (s.world.contexts r.context).childPid = some p)
    (he : serverStep s (.exec i) = some s') (h : Unblocked s') :
    (s.world.procs p).state = .zombie := by
  obtain ⟨r₀,m,hr₀,hm,hw,_⟩ := serverStep_executor he
  obtain rfl := Option.some.inj (hr.symm.trans hr₀)
  have hm' : m = goto (view s.sched.toCore s.world r) r .waitChild := by
    unfold serverTaskExecutor at hm
    rw [hp] at hm
    have hview : (view s.sched.toCore s.world r).context.childPid = some p := hchild
    have hnot : ¬ 0 < (view s.sched.toCore s.world r).task.remainingBurst := not_lt.mpr hburst
    cases i with
    | go =>
      obtain rfl := Option.some.inj hm
      simp only [afterLoop,if_neg hnot,hview]
    | _ => cases hm
  subst hm'
  have hround : s'.world.round = some { r with pc := .waitChild } := by
    rw [hw]
    rfl
  have hz := h.exited _ p hround rfl
  rw [hw] at hz
  apply hz
  simp only [applyMove,setContext,goto,Function.update_self]
  exact hchild

end Servers

variable (config : SchedulerConfig) (actions : List ServerAction)

/-- The executor never blocks on a child in a run: it is at most a tick away from the next
poll of its flags. -/
structure NeverBlocks : Prop where
  unblocked : ∀ pre post s, actions = pre ++ post →
    exec serverStep (serverInitWith TaskLinks config) pre = some s → Unblocked s
  polled : ∀ pre mid post u v t, actions = pre ++ mid ++ post →
    exec serverStep (serverInitWith TaskLinks config) pre = some u →
    exec serverStep u mid = some v → pollsOf t v.world.log = pollsOf t u.world.log →
    ticksOf t v.world.log ≤ ticksOf t u.world.log + 1

/-- Each child has exited when the loop of its task is left with its burst used up. -/
def ExitInBurst : Prop :=
  ∀ pre a post s s', actions = pre ++ a :: post →
    exec serverStep (serverInitWith TaskLinks config) pre = some s → serverStep s a = some s' →
    exitsInBurst s.sched.toCore s.world a

/-- A demo of one second, which is alive for two, is waited for after its only tick. -/
def outlivedBurst : List ServerAction :=
  [.accept 4,.request 0 (.program "./demo 1".toList ["./demo".toList,"1".toList] 1),.enter,
   .exec .go,.exec (.started true),.exec .go,.exec .go,.exec .readAgain,.exec .go,.exec .go,
   .exec .go,.exec .go,.exec .go]

end UnixShell.Server
