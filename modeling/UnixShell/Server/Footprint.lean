import UnixShell.Server.Holding

/-! # The contexts that a step uses

A step uses the context of its client thread or of the round, the one it creates, and
those of the tasks that it logs or cleans up. A context outside them has no influence on
the step and is not changed by it.
-/
namespace UnixShell.Server
open Foundation Scheduler

/-- The client thread that takes a step. -/
def ServerAction.client : ServerAction → Option ThreadId
  | .request c _ => some c
  | .hangup c => some c
  | .poll c => some c
  | .fetch c => some c
  | .peek c _ => some c
  | .cancel c => some c
  | .cleanupNext c => some c
  | .cancelled c => some c
  | .send c _ => some c
  | .checkIdle c => some c
  | .print c => some c
  | .release c => some c
  | .close c => some c
  | _ => none

/-- The record whose context `scheduler_logger` or `server_task_cleanup` uses. -/
def hooked : Event → Option TaskRef
  | .log .preemptRequest _ _ => none
  | .log .fail _ _ => none
  | .log _ t _ => some t
  | .unlinked _ => none
  | .cleanup t => some t

def newEvents (core core' : Core) : List Event :=
  core'.events.take (core'.events.length - core.events.length)

def touched (core : Core) (w : World) (a : ServerAction) (core' : Core) : List ContextRef :=
  (a.client.bind (fun c => (w.clients c).pc.context)).toList ++
  (match a with
    | .request _ _ => [core.allocated]
    | .exec _ => (w.round.map Round.context).toList
    | _ => []) ++
  ((newEvents core core').filterMap hooked).filterMap (fun t => (core'.tasks t).userData)

/-- The same state with other contents of one context. -/
def overwrite {Q : Type} (s : State Q) (k : ContextRef) (context : TaskContext) : State Q :=
  { s with world := setContext s.world k context }

theorem newEvents_eq {core core' : Core} {new : List Event}
    (h : core'.events = new ++ core.events) : newEvents core core' = new := by
  rw [newEvents,h,List.length_append,Nat.add_sub_cancel,List.take_left]

section World
variable {core : Core} {toFree : ThreadId → Option TaskRef} {w w' : World} {a : ServerAction}
  {y : Option Action} {c : ThreadId} {k j : ContextRef} {x : TaskContext}

@[simp] theorem setContext_clients : (setContext w k x).clients = w.clients := rfl
@[simp] theorem setContext_round : (setContext w k x).round = w.round := rfl
@[simp] theorem setContext_sockets : (setContext w k x).sockets = w.sockets := rfl
@[simp] theorem setContext_procs : (setContext w k x).procs = w.procs := rfl

@[simp] theorem setContext_contexts (h : j ≠ k) : (setContext w k x).contexts j = w.contexts j :=
  Function.update_of_ne h _ _

theorem setContext_setPc (pc : ClientPc) :
    setPc (setContext w k x) c pc = setContext (setPc w c pc) k x := rfl

theorem setContext_comm {z : TaskContext} (h : j ≠ k) :
    setContext (setContext w k x) j z = setContext (setContext w j z) k x := by
  simp only [setContext,Function.update_comm h]

theorem setContext_release (h : j ≠ k) :
    releaseContext (setContext w k x) j = setContext (releaseContext w j) k x := by
  simp only [releaseContext,setContext_contexts h,setContext_procs,setContext_comm h]
  rfl

theorem setContext_print :
    printSummaryIfNeeded (setContext w k x) = setContext (printSummaryIfNeeded w) k x := by
  by_cases h : w.clock.hadPreemption = true ∧ w.clock.timeline ≠ []
  · rw [show printSummaryIfNeeded (setContext w k x) = _ from if_pos h,
      show printSummaryIfNeeded w = _ from if_pos h]
    rfl
  · rw [show printSummaryIfNeeded (setContext w k x) = _ from if_neg h,
      show printSummaryIfNeeded w = _ from if_neg h]

theorem setContext_send {ok : Bool} (h : clientSend w c ok = some w') :
    clientSend (setContext w k x) c ok = some (setContext w' k x) := by
  have hfd : ∀ fd, connectionOf (setContext w k x) fd = connectionOf w fd := fun _ => rfl
  unfold clientSend at h ⊢
  simp only [setContext_clients,hfd]
  split at h
  · dsimp only at h
    split at h <;> cases h
    · rename_i hrest
      rw [if_pos hrest]
      rfl
    · rename_i hrest
      rw [if_neg hrest]
      rfl
  · cases h; rfl
  · cases h; rfl
  · cases h; rfl
  · cases h

theorem setContext_view {r : Round} (h : r.context ≠ k) :
    view core (setContext w k x) r = view core w r := by
  simp only [view,setContext_contexts h]
  rfl

theorem setContext_applyMove {m : Move} (h : m.round.context ≠ k) :
    applyMove (setContext w k x) m = setContext (applyMove w m) k x := by
  simp only [applyMove,setContext_comm h]
  rfl

/-- An answer to an action does not depend on a context that it does not use. -/
theorem respond_setContext (hc : ∀ c, a.client = some c → (w.clients c).pc.context ≠ some k)
    (hr : ∀ i r, a = .exec i → w.round = some r → r.context ≠ k)
    (hn : ∀ c request, a = .request c request → core.allocated ≠ k)
    (h : respond core toFree w a = some (y,w')) :
    respond core toFree (setContext w k x) a = some (y,setContext w' k x) := by
  have hown : ∀ c, a.client = some c → ∀ j, (w.clients c).pc.context = some j → j ≠ k := by
    rintro c ha j hj rfl
    exact hc c ha hj
  cases a with
  | accept fd =>
    simp only [respond] at h
    split at h
    · rename_i hfd
      cases h
      exact if_pos hfd
    · cases h
  | request c request =>
    simp only [respond,setContext_clients] at h ⊢
    split at h
    · rename_i hp
      have hk := hn c request rfl
      cases request <;> cases h <;> simp only [handleRequest,submitTask,setContext_clients,
        setContext_setPc,setContext_comm hk] <;> rfl
    · cases h
  | poll c | fetch c =>
    simp only [respond,setContext_clients] at h ⊢
    split at h
    · rename_i j hp
      cases h
      rw [setContext_contexts (hown c rfl j (by rw [hp]; rfl))]
      rfl
    · cases h
  | release c =>
    simp only [respond,setContext_clients] at h ⊢
    split at h
    · rename_i j again hp
      cases h
      rw [setContext_release (hown c rfl j (by rw [hp]; rfl))]
      rfl
    · cases h
  | exec i =>
    simp only [respond,setContext_round] at h ⊢
    split at h
    · rename_i r hround
      obtain ⟨m,hm,he⟩ := Option.map_eq_some_iff.mp h
      cases he
      have hk := hr i r rfl hround
      have hk' : m.round.context ≠ k := by rwa [(serverTaskExecutor_moved hm).context]
      simp only [setContext_view hk,hm,Option.map_some,setContext_applyMove hk']
    · cases h
  | send c ok =>
    obtain ⟨u,hu,he⟩ := Option.map_eq_some_iff.mp h
    cases he
    simp only [respond,setContext_send hu,Option.map_some]
  | print c =>
    simp only [respond,setContext_clients] at h ⊢
    split at h
    · cases h
      rw [setContext_print]
      rfl
    · cases h
  | childWrite pid bytes | childExit pid =>
    simp only [respond] at h
    split at h
    · rename_i hs
      cases h
      exact if_pos hs
    · cases h
  | cancelled c =>
    simp only [respond,setContext_clients] at h ⊢
    split at h <;> cases h <;> rfl
  | hangup c | peek c closed | cancel c | checkIdle c | close c =>
    simp only [respond,setContext_clients] at h ⊢
    split at h <;> cases h
    rfl
  | cleanupNext _ | requestStop | enter | finish =>
    cases h
    rfl

theorem setContext_cleanup {task : Task} (h : task.userData ≠ some k) :
    serverTaskCleanup (setContext w k x) task = setContext (serverTaskCleanup w task) k x := by
  unfold serverTaskCleanup
  split
  · rfl
  · rename_i j hj
    exact setContext_release (fun hjk => h (by rw [hj,hjk]))

theorem callbacks_setContext {action : Action}
    (h : ∀ t, action = .finish ∨ (∃ thread, action = .free thread) →
      core.events.head? = some (.cleanup t) → (core.tasks t).userData ≠ some k) :
    callbacks action core (setContext w k x) = setContext (callbacks action core w) k x := by
  unfold callbacks
  split
  · split <;> rfl
  · rename_i t he
    exact setContext_cleanup (w := { w with round := none }) (h t (Or.inl rfl) he)
  · rfl
  · rename_i thread t he
    exact setContext_cleanup (h t (Or.inr ⟨thread,rfl⟩) he)
  · rfl

end World

section Steps
variable {core core' : Core} {w : World} {a : ServerAction} {k : ContextRef}

theorem touched_client {c : ThreadId} (ha : a.client = some c)
    (hc : (w.clients c).pc.context = some k) : k ∈ touched core w a core' := by
  simp [touched,ha,hc]

theorem touched_request {c : ThreadId} {request : Request} :
    core.allocated ∈ touched core w (.request c request) core' := by
  simp [touched]

theorem touched_round {i : Input} {r : Round} (hr : w.round = some r) :
    r.context ∈ touched core w (.exec i) core' := by
  simp [touched,hr]

theorem touched_hook {e : Event} {t : TaskRef} (he : e ∈ newEvents core core')
    (ht : hooked e = some t) (hk : (core'.tasks t).userData = some k) :
    k ∈ touched core w a core' :=
  List.mem_append_right _ (List.mem_filterMap.mpr ⟨t,List.mem_filterMap.mpr ⟨e,he,ht⟩,hk⟩)

/-- The hooks are called for the last event of the step itself. -/
theorem head_newEvents {Q : Type} [TaskQueue Q] {s s' : System Q} {y : Action} {e : Event}
    (hs : Scheduler.step s y = some s') (hy : y = .finish ∨ ∃ thread, y = .free thread)
    (he : s'.events.head? = some e) : e ∈ newEvents s.toCore s'.toCore := by
  have hnew : ∀ new, new ≠ [] → s'.events = new ++ s.events →
      e ∈ newEvents s.toCore s'.toCore := by
    intro new hne hev
    rw [newEvents_eq hev]
    rw [hev,List.head?_append_of_ne_nil _ hne] at he
    exact List.mem_of_head? he
  rcases hy with rfl | ⟨thread,rfl⟩
  · obtain ⟨t,quantum,result,_,rfl⟩ := step_finish hs
    rcases finish_cases s t quantum result with ⟨_,hf⟩ | ⟨_,state,event,hf,_⟩
    · exact hnew [_] (List.cons_ne_nil _ _) (by rw [hf]; rfl)
    · exact hnew [_,_] (List.cons_ne_nil _ _) (by rw [hf]; rfl)
  · obtain ⟨c,_,_,hev,_⟩ := freeNext_eq (show freeNext s thread = some s' from hs)
    exact hnew [_] (List.cons_ne_nil _ _) hev

/-- A context outside the footprint has no influence on a step, and is left as it is. -/
theorem serverStep_overwrite {Q : Type} [TaskQueue Q] {s s' : State Q}
    (he : serverStep s a = some s')
    (hk : k ∉ touched s.sched.toCore s.world a s'.sched.toCore) (x : TaskContext) :
    serverStep (overwrite s k x) a = some (overwrite s' k x) := by
  have hclient : ∀ c, a.client = some c → (s.world.clients c).pc.context ≠ some k :=
    fun c ha hc => hk (touched_client ha hc)
  have hround : ∀ i r, a = .exec i → s.world.round = some r → r.context ≠ k := by
    rintro i r rfl hr rfl
    exact hk (touched_round hr)
  have hrequest : ∀ c request, a = .request c request → s.sched.allocated ≠ k := by
    rintro c request rfl rfl
    exact hk touched_request
  rcases serverStep_cases he with ⟨w,hr,rfl⟩ | ⟨y,w,sched,hr,hs,rfl⟩
  · have hr' := respond_setContext (x := x) hclient hround hrequest hr
    simp only [serverStep,overwrite,hr']
  · have hr' := respond_setContext (x := x) hclient hround hrequest hr
    have hcall : callbacks y sched.toCore (setContext w k x) =
        setContext (callbacks y sched.toCore w) k x := by
      apply callbacks_setContext
      intro t hy hhead hu
      exact hk (touched_hook (head_newEvents hs hy hhead) rfl hu)
    simp only [serverStep,overwrite,hr',hs,Option.map_some,hcall]

end Steps

end UnixShell.Server
