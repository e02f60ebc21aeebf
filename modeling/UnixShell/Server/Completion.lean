import UnixShell.Server.Rounds

/-! # Finalised tasks and their contexts

A task that the scheduler finalises has its context marked done, unless its client
asked for its cancellation. The executor breaks this in one place: it obeys a request
to preempt on the tick that uses up the burst, and the scheduler, which sends no task
without a burst back, finalises the task. Without such a poll the rule holds.
-/
namespace UnixShell.Server
open Foundation Scheduler

/-- No allocation fails. -/
def Input.memoryOk : Input → Bool
  | .readSome _ allocOk => allocOk
  | .allocated ok => ok
  | .shellRun lineOk _ _ textOk => lineOk && textOk
  | _ => true

def ServerAction.memoryOk : ServerAction → Bool
  | .exec i => i.memoryOk
  | .request _ .unavailable => false
  | _ => true

/-- Where the executor polls a raised preemption flag there is burst left. -/
def preemptsInTime (core : Core) (w : World) : ServerAction → Bool
  | .exec _ => w.round.all (fun r => decide (r.pc ≠ .pollPreempt) ||
      !schedulerTaskShouldPreempt core r.task || decide (0 < (core.tasks r.task).remainingBurst))
  | _ => true

/-- The steps of a run in which every allocation succeeds and every preemption is in time. -/
def timely (core : Core) (w : World) (a : ServerAction) : Prop :=
  a.memoryOk = true ∧ preemptsInTime core w a = true

instance (core : Core) (w : World) : DecidablePred (timely core w) :=
  fun _ => inferInstanceAs (Decidable (_ ∧ _))

def Site.pauses : Site → Bool
  | .preempted => true
  | .quantumEnd => true
  | _ => false

/-- The exits that mark nothing, and why the task is not over then, or not waited for. -/
def Exit.settledBy (task : Task) : Exit → Prop
  | .cancelled => task.cancelRequested = true
  | .preempted => 0 < task.remainingBurst
  | .quantumEnd => 0 < task.remainingBurst
  | _ => False

/-- What the round owes its context, from every point of the executor. -/
def Owes (task : Task) (done : Bool) : ExecutorPc → Prop
  | .draining site => site.pauses = true → 0 < task.remainingBurst
  | .sending site _ _ => site.pauses = true → 0 < task.remainingBurst
  | .exiting exit ops => done = true ∨ (∃ op ∈ ops, op.marks = true) ∨ exit.settledBy task
  | .returned exit => done = true ∨ exit.settledBy task
  | _ => True

variable {v : View} {r : Round} {i : Input} {pc pc' : ExecutorPc} {x : Option Action}
  {events : List ServerEvent} {task task' : Task} {done : Bool}

/-- Every exit that is not settled by the task marks the context on its way. -/
theorem owes_exit {exit : Exit} (h : exit.settledBy task ∨ exit ≠ .noContext ∧
    exit ≠ .shellNoOutput ∧ exit ≠ .cancelled ∧ exit ≠ .preempted ∧ exit ≠ .quantumEnd) :
    Owes task done (.exiting exit (exitOps exit)) := by
  rcases h with h | ⟨h₁,h₂,h₃,h₄,h₅⟩
  · exact Or.inr (Or.inr h)
  · refine Or.inr (Or.inl ?_)
    cases exit with
    | noContext => exact (h₁ rfl).elim
    | shellNoOutput => exact (h₂ rfl).elim
    | cancelled => exact (h₃ rfl).elim
    | preempted => exact (h₄ rfl).elim
    | quantumEnd => exact (h₅ rfl).elim
    | drainFailed site => cases site <;> simp [exitOps,captureFailed,ExitOp.marks]
    | _ => simp [exitOps,ExitOp.marks]

theorem owes_afterDrain {site : Site} (hd : AfterDrain site pc')
    (h : site.pauses = true → 0 < task.remainingBurst) : Owes task done pc' := by
  cases hd with
  | tick => trivial
  | reaped => exact owes_exit (Or.inr (by simp))
  | preempted => exact owes_exit (Or.inl (h rfl))
  | quantumEnd => exact owes_exit (Or.inl (h rfl))
  | final => exact owes_exit (Or.inr (by simp))
  | failed site => exact owes_exit (Or.inr (by simp))

/-- More is done, cancelled or left of the burst: nothing new is owed. -/
theorem owes_mono {done' : Bool} (h : Owes task done pc) (hd : done = true → done' = true)
    (hb : task'.remainingBurst = task.remainingBurst)
    (hc : task.cancelRequested = true → task'.cancelRequested = true) : Owes task' done' pc := by
  have hsettled : ∀ exit : Exit, exit.settledBy task → exit.settledBy task' := by
    intro exit he
    cases exit with
    | cancelled => exact hc he
    | preempted => exact lt_of_lt_of_eq he hb.symm
    | quantumEnd => exact lt_of_lt_of_eq he hb.symm
    | _ => exact he
  cases pc with
  | draining site => exact fun hp => hb ▸ h hp
  | sending site chunk pieces => exact fun hp => hb ▸ h hp
  | exiting exit ops => exact h.imp hd (Or.imp_right (hsettled exit))
  | returned exit => exact h.imp hd (hsettled exit)
  | _ => trivial

/-- One move of the executor keeps its debt, or pays it. -/
theorem shift_owes (h : Shift v r pc i pc' x events) (ho : Owes v.task done pc)
    (hmem : i.memoryOk = true) (hdata : v.task.userData ≠ none)
    (hcancel : (v.shouldCancel || v.task.cancelRequested) = v.task.cancelRequested)
    (hpoll : pc = .pollPreempt → v.shouldPreempt = true → 0 < v.task.remainingBurst) :
    Owes v.task (done || events.any ServerEvent.isDone) pc' := by
  cases h with
  | noContext hn => exact (hdata hn).elim
  | shellNoLine e captured textOk => cases hmem
  | shellDone e output => exact owes_exit (Or.inr (by simp))
  | shellNoOutput e => cases hmem
  | early he => exact owes_exit (Or.inr (by rcases he with rfl | rfl | rfl <;> simp))
  | cancelled _ _ hc => exact owes_exit (Or.inl (hcancel.symm.trans hc))
  | slept => exact fun hp => by cases hp
  | drained hd => exact owes_afterDrain hd ho
  | chunk bytes _ _ => exact ho
  | appended _ => exact ho
  | piece connection _ => split <;> exact ho
  | sendFailed => exact owes_exit (Or.inr (by simp))
  | reaped => exact fun hp => by cases hp
  | preempted hpre => exact fun _ => hpoll rfl hpre
  | quantumEnd hpos => exact fun _ => hpos
  | noWait _ => exact fun hp => by cases hp
  | waited => exact fun hp => by cases hp
  | @op exit op rest i hm =>
    rcases ho with hd | ⟨op',hop,hm'⟩ | hs
    · exact Or.inl (by simp [hd])
    · rcases List.mem_cons.mp hop with rfl | hop
      · rw [hm] at hm'
        cases hm'
      · exact Or.inr (Or.inl ⟨op',hop,hm'⟩)
    · exact Or.inr (Or.inr hs)
  | opFailed => cases hmem
  | mark _ _ => exact Or.inl (by simp [ServerEvent.isDone])
  | done =>
    rcases ho with hd | ⟨op,hop,_⟩ | hs
    · exact Or.inl (by simp [hd])
    · cases hop
    · exact Or.inr hs
  | _ => trivial

/-- Where a burst is stored nothing is owed yet. -/
theorem shift_setBurst_owes {b : ℤ} (h : Shift v r pc i pc' (some (.setBurst b)) events) :
    Owes task done pc' := by
  cases h with
  | decrement _ => trivial
  | reaped => exact fun hp => by cases hp

/-- The rule for finalised tasks, with the debt of the round that carries it. -/
structure Honours (s : State TaskLists) : Prop where
  owes : ∀ r, s.world.round = some r →
    Owes (s.sched.tasks r.task) (s.world.contexts r.task).done r.pc
  cleaned : ∀ e ∈ s.sched.events, ∀ t, e.finalised = some t → Event.cleanup t ∈ s.sched.events
  paid : ∀ e ∈ s.sched.events, ∀ t, e.finalised = some t →
    (s.sched.tasks t).cancelRequested = false → (s.world.contexts t).done = true

theorem honours_init : Honours (serverInit TaskLists) :=
  ⟨fun r hr => (by cases hr),fun e he => (by cases he),fun e he => (by cases he)⟩

variable {s s' : State TaskLists} {a : ServerAction}

/-- A step that finalises nothing keeps the rule, if it takes no mark back. -/
theorem Honours.keep {y : Action} (h : Honours s) (hc : Consistent s)
    (hs : Scheduler.step s.sched y = some s'.sched) {new : List Event}
    (hev : s'.sched.events = new ++ s.sched.events)
    (hnew : ∀ e ∈ new, ∀ t, e.finalised = some t → Event.cleanup t ∈ s'.sched.events ∧
      ((s'.sched.tasks t).cancelRequested = false → (s'.world.contexts t).done = true))
    (hd : ∀ k, (s.world.contexts k).done = true → (s'.world.contexts k).done = true) :
    (∀ e ∈ s'.sched.events, ∀ t, e.finalised = some t → Event.cleanup t ∈ s'.sched.events) ∧
    ∀ e ∈ s'.sched.events, ∀ t, e.finalised = some t →
      (s'.sched.tasks t).cancelRequested = false → (s'.world.contexts t).done = true := by
  have hold : ∀ e ∈ s.sched.events, ∀ t, e.finalised = some t →
      Event.cleanup t ∈ s'.sched.events ∧
      ((s'.sched.tasks t).cancelRequested = false → (s'.world.contexts t).done = true) := by
    intro e he t ht
    have hz := h.cleaned e he t ht
    refine ⟨?_,fun hcan => ?_⟩
    · rw [hev]; exact List.mem_append_right _ hz
    · rw [step_finalised hc.sched hz hs] at hcan
      exact hd t (h.paid e he t ht hcan)
  have hall : ∀ e ∈ s'.sched.events, ∀ t, e.finalised = some t → _ := fun e he t ht =>
    (List.mem_append.mp (hev ▸ he)).elim (fun he => hnew e he t ht) (fun he => hold e he t ht)
  exact ⟨fun e he t ht => (hall e he t ht).1,fun e he t ht => (hall e he t ht).2⟩

/-- A round that is not sent back has marked its context, or its task was cancelled. -/
theorem owes_returned {exit : Exit} (h : Owes task done (.returned exit))
    (hr : ¬ mayRequeue task (exitResult exit)) : done = true ∨ task.cancelRequested = true := by
  rcases h with hd | hs
  · exact Or.inl hd
  · apply Or.inr
    by_contra hcan
    have hfalse : task.cancelRequested = false := by simpa using hcan
    cases exit with
    | cancelled => exact hcan hs
    | preempted => exact hr ⟨rfl,hfalse,hs⟩
    | quantumEnd => exact hr ⟨rfl,hfalse,hs⟩
    | _ => exact hs

/-- The end of a round finalises its task only if the round has paid, or was cancelled. -/
theorem finish_pays (h : Honours s) (hc : Consistent s) (hshape : RoundStep s s' .finish)
    (hd : ∀ k, (s.world.contexts k).done = true → (s'.world.contexts k).done = true)
    {t : TaskRef} {quantum : ℤ} {result : TaskRunResult}
    (hmain : s.sched.main = .returned t quantum result) (hr : ¬ mayRequeue (s.sched.tasks t) result)
    (hcan : (s'.sched.tasks t).cancelRequested = false) : (s'.world.contexts t).done = true := by
  cases hshape with
  | outside ha _ _ => cases ha
  | @finish r exit hround hp hs hse hr' hw =>
    obtain ⟨hm,hctx⟩ := hc.running r hround
    rw [hmain] at hm
    obtain ⟨exit',hp',rfl,rfl,rfl⟩ := mainOf_returned hm.symm
    have ho := h.owes r hround
    rw [hp'] at ho
    rcases owes_returned ho hr with hdone | hcancel
    · exact hd _ hdone
    · rw [(step_continues hs (hc.task_lt hround)).cancelRequested hcancel] at hcan
      cases hcan

theorem step_owes (h : Honours s) (hc : Consistent s)
    (hok : timely s.sched.toCore s.world a) (hshape : RoundStep s s' a)
    (hd : ∀ k, (s.world.contexts k).done = true → (s'.world.contexts k).done = true) :
    ∀ r, s'.world.round = some r →
      Owes (s'.sched.tasks r.task) (s'.world.contexts r.task).done r.pc := by
  cases hshape with
  | outside ha hw hs =>
    intro r hr
    rw [hw.round] at hr
    have hlt := hc.task_lt hr
    rcases hs with hs | ⟨y,hy,_,hs⟩
    · exact owes_mono (h.owes r hr) (hd _) (by rw [hs]) (by rw [hs]; exact id)
    · refine owes_mono (h.owes r hr) (hd _) ?_ (step_continues hs hlt).cancelRequested
      rcases step_remainingBurst hs hlt with hb | ⟨b,q,rfl,_⟩
      · exact hb
      · cases hy
  | @exec i r m hr hm hw hs =>
    intro r' hr'
    obtain rfl : m.round = r' := by
      rw [hw] at hr'
      exact Option.some.inj hr'
    obtain ⟨_,hctx⟩ := hc.running r hr
    obtain ⟨hmem,htime⟩ := hok
    simp only [preemptsInTime,hr,Option.all_some,Bool.or_eq_true,decide_eq_true_eq,
      Bool.not_eq_true'] at htime
    have hdone : (s'.world.contexts r.task).done =
        ((s.world.contexts r.task).done || m.events.any ServerEvent.isDone) := by
      rw [hw,hm.contexts,← hctx,Function.update_self]
      exact hm.done
    have hdata : (s.sched.tasks r.task).userData ≠ none := by
      rw [hc.named r.task (hc.task_lt hr)]
      exact Option.some_ne_none _
    rw [hm.task,hdone]
    by_cases hb : ∃ b, m.action = some (.setBurst b)
    · obtain ⟨b,hb⟩ := hb
      have hshift := hm.shift
      rw [hb] at hshift
      exact shift_setBurst_owes hshift
    rw [hm.tasks hs (fun b hx => hb ⟨b,hx⟩)]
    refine shift_owes hm.shift (h.owes r hr) hmem hdata (hc.view_cancel hr) (fun hp hpre => ?_)
    rcases htime with (hne | hflag) | hpos
    · exact (hne hp).elim
    · exact absurd (hpre.symm.trans hflag) (by decide)
    · exact hpos
  | idle hr hs hmain hw =>
    intro r hr'
    rw [hw,hr] at hr'
    cases hr'
  | dispatch hr hs ht hmain hcur hw =>
    intro r hr'
    rw [hw] at hr'
    obtain rfl := Option.some.inj hr'
    trivial
  | finish hr hp hs hse hr' hw =>
    intro r hr''
    rw [hr'] at hr''
    cases hr''

theorem step_honours (h : Honours s) (hc : Consistent s) (hm : Marked s)
    (hok : timely s.sched.toCore s.world a) (he : serverStep s a = some s') :
    Honours s' := by
  have hshape := serverStep_shape hc he
  have hd := hm.mono (step_marked hm hc he) hshape
  have howes := step_owes h hc hok hshape hd
  rcases hshape.sched with hs | ⟨y,hs,hfin,_⟩
  · refine ⟨howes,by rw [hs]; exact h.cleaned,fun e he t ht hcan => ?_⟩
    rw [hs] at he hcan
    exact hd t (h.paid e he t ht hcan)
  · rcases step_finalises hs with ⟨new,hev,hn⟩ | ⟨hx,t,quantum,result,event,hmain,hr,hev⟩
    · have hkeep := h.keep hc hs hev (fun e he t ht => by rw [hn e he] at ht; cases ht) hd
      exact ⟨howes,hkeep.1,hkeep.2⟩
    · obtain rfl := hfin hx
      have hkeep := h.keep hc hs hev (fun e he u hu => by
        have hut : u = t := by
          rcases List.mem_pair.mp he with rfl | rfl
          · cases hu
          · cases event <;> first | exact (Option.some.inj hu).symm | cases hu
        subst hut
        exact ⟨by simp [hev],finish_pays h hc hshape hd hmain hr⟩) hd
      exact ⟨howes,hkeep.1,hkeep.2⟩

theorem reachable_honours (h : ServerReachableIf timely s) : Honours s := by
  have hrun := h.invariant (P := fun s => Consistent s ∧ Marked s ∧ Honours s)
    (fun _ _ _ ⟨hc,hm,hh⟩ ⟨hok,he⟩ =>
      ⟨step_consistent hc he,step_marked hm hc he,step_honours hh hc hm hok he⟩)
    ⟨consistent_init,marked_init,honours_init⟩
  exact hrun.2.2

/-- `set_done` was called on the context of every task that the scheduler thread finalised
and whose client did not ask for its cancellation. -/
def FinalisedDone (s : State TaskLinks) : Prop :=
  ∀ e ∈ s.sched.events, ∀ t k, e.finalised = some t → (s.sched.tasks t).cancelRequested = false →
    (s.sched.tasks t).userData = some k →
    .setDone k ∈ s.world.log ∧ (s.world.contexts k).done = true

theorem finalisedDone {s : State TaskLinks} (h : ServerReachableIf timely s) : FinalisedDone s := by
  obtain ⟨l,hl,hr⟩ := serverReachableIf_refines h
  intro e he t k ht hcan hk
  rw [hr.sched.core] at he hcan hk
  rw [hr.world]
  have hc := serverReachable_consistent hl.reachable
  have hh := reachable_honours hl
  obtain ⟨place,hp⟩ := hc.sched.placed
  have hnamed := hc.named t (hp.finalised_lt (hh.cleaned e he t ht))
  obtain rfl : t = k := Option.some.inj (hnamed.symm.trans hk)
  have hdone := hh.paid e he t ht hcan
  exact ⟨((serverReachable_marked hl.reachable).done_iff t).mp hdone,hdone⟩

/-- A demo of three seconds, preempted by a shell task after its first. -/
def preemptedInTime : List ServerAction :=
  [.accept 4,.request 0 (.program "./demo 3".toList ["./demo".toList,"3".toList] 3),.enter,
   .exec .go,.exec (.started true),.accept 5,.request 1 (.shell "ls".toList),.exec .go,.exec .go,
   .exec .readAgain,.exec .go,.exec .go,.exec .go,.exec .readAgain,.exec .go,.exec .go,.exec .go,
   .finish,.enter,.exec .go,.exec (.shellRun true false (some "a\n".toList) true),.exec .go,
   .exec .go,.finish]

theorem finalisedDone_preemptedInTime :
    ∃ s : State TaskLinks, exec (guarded (fun s : State TaskLinks => timely s.sched.toCore s.world)
        serverStep) (serverInit TaskLinks) preemptedInTime = some s ∧
      Event.log .finish 1 0 ∈ s.sched.events ∧ FinalisedDone s := by
  obtain ⟨s,he⟩ := Option.isSome_iff_exists.mp
    (show (exec (guarded (fun s : State TaskLinks => timely s.sched.toCore s.world) serverStep)
      (serverInit TaskLinks) preemptedInTime).isSome = true from rfl)
  refine ⟨s,he,?_,finalisedDone (reaches_of_guarded he)⟩
  cases he
  decide

/-- A demo of one second whose child is still alive when its burst is used up, and a shell
task that arrives meanwhile. -/
def overrun : List ServerAction :=
  [.accept 4,.request 0 (.program "./demo 1".toList ["./demo".toList,"1".toList] 1),.enter,
   .exec .go,.exec (.started true),.exec .go,.accept 5,.request 1 (.shell "ls".toList),.exec .go,
   .exec .readAgain,.exec .go,.exec .go,.exec .go,.exec .readAgain,.exec .go,.exec .go,.exec .go,
   .finish]

/-- The demo is finished and cleaned up, nobody cancelled it, and its client waits on. -/
theorem finalised_unanswered :
    ∃ s : State TaskLinks, exec serverStep (serverInit TaskLinks) overrun = some s ∧
      ServerReachableIf (fun _ _ a => a.memoryOk = true) s ∧
      (s.world.clients 0).pc = .waiting 0 ∧ ¬ FinalisedDone s := by
  obtain ⟨s,he⟩ := Option.isSome_iff_exists.mp
    (show (exec (guarded (fun _ a => ServerAction.memoryOk a = true) serverStep)
      (serverInit TaskLinks) overrun).isSome = true from rfl)
  refine ⟨s,?_,reaches_of_guarded he,?_,fun hf => ?_⟩
  · cases he; rfl
  · cases he; rfl
  · have hd := (hf (.log .finish 0 0) (by cases he; decide) 0 0 rfl (by cases he; rfl)
      (by cases he; rfl)).2
    cases he
    cases hd

end UnixShell.Server
