import UnixShell.Server.Moves
import UnixShell.Server.Turns
import UnixShell.Scheduler.Effects
import UnixShell.Scheduler.Refinement

/-! # The threads of the server and the scheduler's view of them

A step of the server is at most one step of the scheduler, so the scheduler of a
reachable server is reachable, and the server over linked queues follows the server
over lists. Outside the executor no step touches the round or an answer.
-/
namespace UnixShell.Server
open Foundation Scheduler

section Shape
variable {Q : Type} [TaskQueue Q] {s s' : State Q} {a : ServerAction}

/-- A step changes the world alone, or takes one scheduler step with its callbacks. -/
theorem serverStep_cases (he : serverStep s a = some s') :
    (∃ w, respond s.sched.toCore (TaskQueue.toFree s.sched.queue) s.world a = some (none,w) ∧
      s' = { s with world := w }) ∨
    (∃ action w sched,
      respond s.sched.toCore (TaskQueue.toFree s.sched.queue) s.world a = some (some action,w) ∧
      Scheduler.step s.sched action = some sched ∧
      s' = { sched := sched, world := callbacks action sched.toCore w }) := by
  unfold serverStep at he
  split at he
  · cases he
  · rename_i w hr
    exact Or.inl ⟨w,hr,(Option.some.inj he).symm⟩
  · rename_i action w hr
    obtain ⟨sched,hs,hs'⟩ := Option.map_eq_some_iff.mp he
    exact Or.inr ⟨action,w,sched,hr,hs,hs'.symm⟩

theorem serverStep_reaches (he : serverStep s a = some s') :
    Reaches (Fires Scheduler.step) s.sched s'.sched := by
  rcases serverStep_cases he with ⟨w,_,rfl⟩ | ⟨action,w,sched,_,hs,rfl⟩
  · exact Reaches.refl _
  · exact (Reaches.refl s.sched).tail hs

/-- The scheduler inside a reachable server is a reachable scheduler. -/
theorem ServerReachable.sched (h : ServerReachable s) : Scheduler.Reachable s.sched :=
  ⟨some serverConfig,true,
    Reaches.project (f := State.sched) (fun _ _ _ he => serverStep_reaches he) h⟩

theorem ServerReachableIf.reachable {ok : Core → World → ServerAction → Prop}
    (h : ServerReachableIf ok s) : ServerReachable s :=
  h.mono (fun _ _ _ hr => hr.fires)

end Shape

section Refinement

/-- One world, and a linked scheduler that refines the list scheduler. -/
structure ServerRefines (c : State TaskLinks) (l : State TaskLists) : Prop where
  sched : Refines c.sched l.sched
  world : c.world = l.world

variable {c c' : State TaskLinks} {l : State TaskLists} {a : ServerAction}

theorem serverRefines_init : ServerRefines (serverInit TaskLinks) (serverInit TaskLists) :=
  ⟨refines_init _ _,rfl⟩

theorem serverStep_refines (h : ServerRefines c l) (he : serverStep c a = some c') :
    ∃ l', serverStep l a = some l' ∧ ServerRefines c' l' := by
  have hfree : TaskQueue.toFree c.sched.queue = TaskQueue.toFree l.sched.queue :=
    funext (fun thread => h.sched.queue.toFree_eq thread)
  rcases serverStep_cases he with ⟨w,hr,rfl⟩ | ⟨action,w,sched,hr,hs,rfl⟩
  · rw [h.sched.core,hfree,h.world] at hr
    exact ⟨{ l with world := w },by simp only [serverStep,hr],h.sched,rfl⟩
  · rw [h.sched.core,hfree,h.world] at hr
    obtain ⟨sched',hs',hr'⟩ := step_refines h.sched hs
    refine ⟨{ sched := sched', world := callbacks action sched'.toCore w },?_,hr',?_⟩
    · simp only [serverStep,hr,hs',Option.map_some]
    · simp only [hr'.core]

theorem serverRuns_refines {as : List ServerAction} (h : ServerRefines c l)
    (hrun : Runs (Fires serverStep) c as c') :
    ∃ l', Runs (Fires serverStep) l as l' ∧ ServerRefines c' l' := by
  have hS : ∀ (s : State TaskLinks) (x : ServerAction) (s' : State TaskLinks) (l : State TaskLists),
      ServerRefines s l → Fires serverStep s x s' →
        ∃ l', Fires serverStep l x l' ∧ ServerRefines s' l' :=
    fun _ _ _ _ hr he => serverStep_refines hr he
  exact hrun.simulate hS h

theorem serverReachable_refines (h : ServerReachable c) :
    ∃ l, ServerReachable l ∧ ServerRefines c l := by
  obtain ⟨as,hrun⟩ := h
  obtain ⟨l,hl,hr⟩ := serverRuns_refines serverRefines_init hrun
  exact ⟨l,⟨as,hl⟩,hr⟩

theorem serverReachableIf_refines {ok : Core → World → ServerAction → Prop}
    (h : ServerReachableIf ok c) : ∃ l, ServerReachableIf ok l ∧ ServerRefines c l := by
  obtain ⟨as,hrun⟩ := h
  have hS : ∀ (s : State TaskLinks) (x : ServerAction) (s' : State TaskLinks) (l : State TaskLists),
      ServerRefines s l → FiresIf (fun s => ok s.sched.toCore s.world) serverStep s x s' →
        ∃ l', FiresIf (fun s => ok s.sched.toCore s.world) serverStep l x l' ∧
          ServerRefines s' l' := by
    rintro s x s' l hr ⟨hok,he⟩
    obtain ⟨l',he',hr'⟩ := serverStep_refines hr he
    have hok' : ok l.sched.toCore l.world x := by rw [← hr.sched.core,← hr.world]; exact hok
    exact ⟨l',⟨hok',he'⟩,hr'⟩
  obtain ⟨l,hl,hr⟩ := hrun.simulate hS serverRefines_init
  exact ⟨l,⟨as,hl⟩,hr⟩

end Refinement

/-- Two versions of a context that differ in nothing an answer depends on. -/
structure SameAnswer (a b : TaskContext) : Prop where
  done : b.done = a.done
  status : b.responseStatus = a.responseStatus
  socketFd : b.socketFd = a.socketFd
  initialBurst : b.initialBurst = a.initialBurst

theorem SameAnswer.refl (a : TaskContext) : SameAnswer a a := ⟨rfl,rfl,rfl,rfl⟩

theorem sameAnswer_release (context : TaskContext) (procs : Processes) :
    SameAnswer context (taskContextRelease context procs).1 := by
  unfold taskContextRelease
  dsimp only
  split <;> exact ⟨rfl,rfl,rfl,rfl⟩

/-- What a step outside the scheduler thread leaves alone: the round, the answers of
old contexts and their owners, and the history of the executor. -/
structure Outside (n : ℕ) (w w' : World) : Prop where
  round : w'.round = w.round
  contexts : ∀ k, k ≠ n → SameAnswer (w.contexts k) (w'.contexts k)
  fresh : (w'.contexts n).done = true → (w.contexts n).done = true
  status : (w.contexts n).responseStatus ≠ .serverProgress →
    (w'.contexts n).responseStatus ≠ .serverProgress
  owner : ∀ k, k ≠ n → w'.owner k = w.owner k
  log : ∃ new, w'.log = new ++ w.log ∧ ∀ e ∈ new, e.byClient = true

namespace Outside
variable {n : ℕ} {w w' w'' : World}

theorem refl (w : World) : Outside n w w :=
  ⟨rfl,fun _ _ => SameAnswer.refl _,id,id,fun _ _ => rfl,[],rfl,by simp⟩

theorem setPc (h : Outside n w w') (c : ThreadId) (pc : ClientPc) :
    Outside n w (Server.setPc w' c pc) := ⟨h.round,h.contexts,h.fresh,h.status,h.owner,h.log⟩

theorem record (h : Outside n w w') {e : ServerEvent} (he : e.byClient = true) :
    Outside n w (Server.record w' e) := by
  obtain ⟨new,hlog,hnew⟩ := h.log
  exact ⟨h.round,h.contexts,h.fresh,h.status,h.owner,e :: new,congrArg (e :: ·) hlog,
    List.forall_mem_cons.mpr ⟨he,hnew⟩⟩

theorem release (h : Outside n w w') (k : ContextRef) : Outside n w (releaseContext w' k) := by
  have hr : ∀ j, SameAnswer (w'.contexts j) ((releaseContext w' k).contexts j) := by
    intro j
    by_cases hjk : j = k
    · subst hjk
      simpa only [releaseContext,setContext,Function.update_self] using
        sameAnswer_release (w'.contexts j) w'.procs
    · simpa only [releaseContext,setContext,Function.update_of_ne hjk] using SameAnswer.refl _
  refine ⟨h.round,fun j hj => ?_,fun hd => h.fresh ((hr n).done.symm.trans hd),
    fun hs => by rw [(hr n).status]; exact h.status hs,h.owner,h.log⟩
  have hc := h.contexts j hj
  exact ⟨(hr j).done.trans hc.done,(hr j).status.trans hc.status,
    (hr j).socketFd.trans hc.socketFd,(hr j).initialBurst.trans hc.initialBurst⟩

theorem cleanup (h : Outside n w w') (task : Task) : Outside n w (serverTaskCleanup w' task) := by
  unfold serverTaskCleanup
  split
  · exact h
  · exact h.release _

end Outside

section Steps
variable {Q : Type} [TaskQueue Q] {s s' : State Q} {core : Core}
  {toFree : ThreadId → Option TaskRef} {w w' : World} {a : ServerAction} {x : Option Action}

theorem outside_submit (n : ℕ) (c : ThreadId) {created : TaskRequest × TaskContext}
    (hd : created.2.done = false) (hs : created.2.responseStatus ≠ .serverProgress) :
    Outside n w (submitTask w c n created).2 := by
  refine ⟨rfl,fun k hk => ?_,fun h => ?_,fun _ => ?_,fun k hk => Function.update_of_ne hk _ _,[],
    rfl,by simp⟩
  · simp only [submitTask,Server.setPc,setContext,Function.update_of_ne hk]
    exact SameAnswer.refl _
  · simp only [submitTask,Server.setPc,setContext,Function.update_self,hd] at h
    cases h
  · simpa only [submitTask,Server.setPc,setContext,Function.update_self] using hs

theorem outside_print (n : ℕ) : Outside n w (printSummaryIfNeeded w) := by
  unfold printSummaryIfNeeded
  split
  · exact ⟨rfl,fun _ _ => SameAnswer.refl _,id,id,fun _ _ => rfl,[_],rfl,
      by simp [ServerEvent.byClient]⟩
  · exact Outside.refl w

/-- Before the callbacks, an action of another thread leaves the executor's world alone. -/
theorem Responded.outside {n : ℕ} (h : Responded n w a x w') : Outside n w w' := by
  have hw := Outside.refl (n := n) w
  cases h with
  | accept => exact ⟨rfl,hw.contexts,hw.fresh,hw.status,hw.owner,hw.log⟩
  | shell => exact outside_submit n _ rfl (by simp [createShellTask,taskContextCreate])
  | program => exact outside_submit n _ rfl (by simp [createProgramTask,taskContextCreate])
  | turn hs => exact ⟨rfl,hw.contexts,hw.fresh,hw.status,hw.owner,_,rfl,hs.byClient⟩
  | print => exact (outside_print _).setPc _ _
  | release => exact (hw.release _).setPc _ _
  | close => exact ⟨rfl,hw.contexts,hw.fresh,hw.status,hw.owner,hw.log⟩
  | cancel => exact hw.setPc _ _
  | free => exact hw
  | stop => exact hw
  | child => exact ⟨rfl,hw.contexts,hw.fresh,hw.status,hw.owner,hw.log⟩

/-- A submitted task gets the context of its own name. -/
theorem Responded.action {n : ℕ} {y : Action} (h : Responded n w a (some y) w') :
    y.outside = true ∧ ∀ request, y = .submit request → request.userData = some n := by
  generalize hx : some y = x at h
  cases h with
  | shell => cases hx; exact ⟨rfl,fun request hy => by cases hy; rfl⟩
  | program => cases hx; exact ⟨rfl,fun request hy => by cases hy; rfl⟩
  | cancel => cases hx; exact ⟨rfl,fun request hy => by cases hy⟩
  | free => cases hx; exact ⟨rfl,fun request hy => by cases hy⟩
  | stop => cases hx; exact ⟨rfl,fun request hy => by cases hy⟩
  | _ => cases hx

/-- A step of another thread. -/
theorem serverStep_outside (ha : a.outside = true) (he : serverStep s a = some s') :
    Outside s.sched.allocated s.world s'.world ∧
      (s'.sched = s.sched ∨ ∃ y, y.outside = true ∧
        (∀ request, y = .submit request → request.userData = some s.sched.allocated) ∧
        Scheduler.step s.sched y = some s'.sched) := by
  rcases serverStep_cases he with ⟨w,hr,rfl⟩ | ⟨y,w,sched,hr,hs,rfl⟩
  · exact ⟨(respond_responded ha hr).outside,Or.inl rfl⟩
  · have hw := (respond_responded ha hr).outside
    obtain ⟨hy,hsub⟩ := (respond_responded ha hr).action
    refine ⟨?_,Or.inr ⟨y,hy,hsub,hs⟩⟩
    unfold callbacks
    split
    · cases hy
    · cases hy
    · cases hy
    · exact hw.cleanup _
    · exact hw

/-- A move writes the context of its round and no other. -/
theorem applyMove_contexts {w : World} {m : Move} {k : ContextRef} (h : m.round.context = k) :
    (applyMove w m).contexts = Function.update w.contexts k m.context := by
  rw [← h]
  rfl

/-- A step of the executor: a move, and the scheduler step that it asks for. -/
theorem serverStep_executor {i : Input} (he : serverStep s (.exec i) = some s') :
    ∃ r m, s.world.round = some r ∧
      serverTaskExecutor (view s.sched.toCore s.world r) r i = some m ∧
      s'.world = applyMove s.world m ∧
      (m.action = none ∧ s'.sched = s.sched ∨
        ∃ y, m.action = some y ∧ Scheduler.step s.sched y = some s'.sched) := by
  have hresp : ∀ y w, respond s.sched.toCore (TaskQueue.toFree s.sched.queue) s.world (.exec i) =
      some (y,w) → ∃ r m, s.world.round = some r ∧
        serverTaskExecutor (view s.sched.toCore s.world r) r i = some m ∧
        w = applyMove s.world m ∧ y = m.action := by
    intro y w hr
    simp only [respond] at hr
    split at hr
    · rename_i r hround
      obtain ⟨m,hm,he⟩ := Option.map_eq_some_iff.mp hr
      cases he
      exact ⟨r,m,hround,hm,rfl,rfl⟩
    · cases hr
  rcases serverStep_cases he with ⟨w,hr,rfl⟩ | ⟨y,w,sched,hr,hs,rfl⟩
  · obtain ⟨r,m,hround,hm,rfl,hy⟩ := hresp _ _ hr
    exact ⟨r,m,hround,hm,rfl,Or.inl ⟨hy.symm,rfl⟩⟩
  · obtain ⟨r,m,hround,hm,rfl,hy⟩ := hresp _ _ hr
    refine ⟨r,m,hround,hm,?_,Or.inr ⟨y,hy.symm,hs⟩⟩
    have hshift := (serverTaskExecutor_moved hm).shift
    rw [← hy] at hshift
    -- the executor asks for nothing that has callbacks
    have hcall : callbacks y sched.toCore (applyMove s.world m) = applyMove s.world m := by
      generalize r.pc = pc₀ at hshift
      generalize m.round.pc = pc₁ at hshift
      generalize m.events = events at hshift
      cases hshift <;> rfl
    exact hcall

theorem serverStep_exec {i : Input} (he : serverStep s (.exec i) = some s') :
    ∃ r m, s.world.round = some r ∧ Moved (view s.sched.toCore s.world r) r i m ∧
      s'.world = applyMove s.world m ∧
      (m.action = none ∧ s'.sched = s.sched ∨
        ∃ y, m.action = some y ∧ Scheduler.step s.sched y = some s'.sched) := by
  obtain ⟨r,m,hr,hm,hw,hs⟩ := serverStep_executor he
  exact ⟨r,m,hr,serverTaskExecutor_moved hm,hw,hs⟩

theorem serverStep_enter (he : serverStep s .enter = some s') :
    Scheduler.step s.sched .enter = some s'.sched ∧
      s'.world = callbacks .enter s'.sched.toCore s.world := by
  rcases serverStep_cases he with ⟨w,hr,rfl⟩ | ⟨y,w,sched,hr,hs,rfl⟩
  · cases hr
  · cases hr
    exact ⟨hs,rfl⟩

theorem serverStep_finish (he : serverStep s .finish = some s') :
    Scheduler.step s.sched .finish = some s'.sched ∧
      s'.world = callbacks .finish s'.sched.toCore s.world := by
  rcases serverStep_cases he with ⟨w,hr,rfl⟩ | ⟨y,w,sched,hr,hs,rfl⟩
  · cases hr
  · cases hr
    exact ⟨hs,rfl⟩

/-- At the end of a round its world is given up, and the context is released where the
task is finalised. -/
theorem finish_outside (n : ℕ) (core : Core) (w : World) :
    (callbacks .finish core w).round = none ∧
      Outside n { w with round := none } (callbacks .finish core w) := by
  have hw := Outside.refl (n := n) { w with round := none }
  cases he : core.events.head? with
  | none => exact ⟨by simp only [callbacks,he],by simpa only [callbacks,he] using hw⟩
  | some e =>
    cases e with
    | cleanup t =>
      have hc := hw.cleanup (core.tasks t)
      simp only [callbacks,he]
      exact ⟨hc.round,hc⟩
    | _ => exact ⟨by simp only [callbacks,he],by simpa only [callbacks,he] using hw⟩

end Steps

end UnixShell.Server
