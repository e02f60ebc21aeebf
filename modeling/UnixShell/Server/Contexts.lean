import UnixShell.Server.References

/-! # What a context keeps

Between the moves of its own round nothing happens to the context of a live task but that
one of its two sides lets go of it. So what the submission stored is there when the
executor comes to it.
-/
namespace UnixShell.Server
open Foundation Scheduler

/-- `main` with any configuration of the scheduler. -/
def serverInitWith (Q : Type) [TaskQueue Q] (config : SchedulerConfig) : State Q where
  sched := schedulerInit Q (some config) true
  world := (serverInit Q).world

theorem serverInit_eq (Q : Type) [TaskQueue Q] : serverInit Q = serverInitWith Q serverConfig := rfl

/-- The rounds, the records and the holders of the contexts agree. -/
def Coherent (s : State TaskLists) : Prop := Consistent s ∧ ∃ destroyed, Referenced s destroyed

theorem coherent_init (config : SchedulerConfig) : Coherent (serverInitWith TaskLists config) := by
  refine ⟨⟨invariant_init _ _,?_,?_,fun _ => rfl⟩,[],⟨?_,?_,?_,?_⟩⟩
  · intro t ht
    exact absurd ht (Nat.not_lt_zero t)
  · intro r hr
    cases hr
  · intro c hc
    exact (hc rfl).elim
  · intro c k hk
    cases hk
  · intro k hk
    exact absurd hk (Nat.not_lt_zero k)
  · intro k hk
    cases hk

section Lists
variable {s s' : State TaskLists} {a : ServerAction} {t : TaskRef} {w : World}

theorem step_coherent (h : Coherent s) (he : serverStep s a = some s') : Coherent s' := by
  obtain ⟨hc,destroyed,hr⟩ := h
  exact ⟨step_consistent hc he,_,hr.step hc he⟩

/-- The context of a task that was not cleaned up is held by the scheduler. -/
theorem Coherent.refcount (h : Coherent s) (ht : t < s.sched.allocated)
    (hz : Event.cleanup t ∉ s.sched.events) : (s.world.contexts t).refcount ≠ 0 := by
  obtain ⟨_,destroyed,hr⟩ := h
  have hmem : Side.scheduler ∈ holding s t := ⟨ht,hz⟩
  exact ((hr.counted t ht).count_pos hmem).ne'

/-- Two versions of a context between which it lost at most holders. -/
def Keeps (a b : TaskContext) : Prop := b = { a with refcount := b.refcount }

theorem keeps_release {context : TaskContext} {procs : Processes}
    (h : (taskContextRelease context procs).1.refcount ≠ 0) :
    Keeps context (taskContextRelease context procs).1 := by
  unfold taskContextRelease at h ⊢
  dsimp only at h ⊢
  split at h
  · rename_i hz
    exact (h hz).elim
  · rename_i hz
    rw [if_neg hz]
    rfl

theorem releaseContext_keeps (k : ContextRef)
    (h : ((releaseContext w k).contexts t).refcount ≠ 0) :
    Keeps (w.contexts t) ((releaseContext w k).contexts t) := by
  by_cases htk : t = k
  · subst htk
    simp only [releaseContext,setContext,Function.update_self] at h ⊢
    exact keeps_release h
  · rw [release_contexts htk]
    rfl

theorem cleanup_keeps (task : Task) (h : ((serverTaskCleanup w task).contexts t).refcount ≠ 0) :
    Keeps (w.contexts t) ((serverTaskCleanup w task).contexts t) := by
  unfold serverTaskCleanup at h ⊢
  split
  · rfl
  · rename_i k hk
    rw [hk] at h
    exact releaseContext_keeps k h

/-- An action of another thread, before the callbacks. -/
theorem Responded.keeps {n : ℕ} {x : Option Action} {w' : World} (h : Responded n w a x w')
    (ht : t < n) (hcount : (w'.contexts t).refcount ≠ 0) :
    Keeps (w.contexts t) (w'.contexts t) := by
  cases h with
  | shell =>
    simp only [submitTask,setPc,setContext,Function.update_of_ne ht.ne]
    rfl
  | program =>
    simp only [submitTask,setPc,setContext,Function.update_of_ne ht.ne]
    rfl
  | print =>
    unfold printSummaryIfNeeded
    split <;> rfl
  | @release _ c k again => exact releaseContext_keeps k hcount
  | _ => rfl

theorem callbacks_keeps (y : Action) (core : Core) :
    ((callbacks y core w).contexts t).refcount ≠ 0 →
      Keeps (w.contexts t) ((callbacks y core w).contexts t) := by
  unfold callbacks
  split
  · split <;> exact fun _ => rfl
  · exact cleanup_keeps _
  · exact fun _ => rfl
  · exact cleanup_keeps _
  · exact fun _ => rfl

theorem serverStep_keeps (hc : Consistent s) (he : serverStep s a = some s')
    (ht : t < s.sched.allocated) (hcount : (s'.world.contexts t).refcount ≠ 0) :
    Keeps (s.world.contexts t) (s'.world.contexts t) ∨
      ∃ i r, a = .exec i ∧ s.world.round = some r ∧ r.context = t := by
  by_cases ha : a.outside = true
  · left
    rcases serverStep_cases he with ⟨w,hr,rfl⟩ | ⟨y,w,sched,hr,hs,rfl⟩
    · exact (respond_responded ha hr).keeps ht hcount
    · have hresp := respond_responded ha hr
      obtain ⟨hy,_⟩ := hresp.action
      cases y with
      | free thread =>
        obtain ⟨rfl,rfl⟩ := respond_free ha hr
        exact callbacks_keeps _ _ hcount
      | submit request => exact hresp.keeps ht hcount
      | cancel thread client => exact hresp.keeps ht hcount
      | requestStop => exact hresp.keeps ht hcount
      | _ => cases hy
  cases serverStep_shape hc he with
  | outside ha' => exact (ha ha').elim
  | @exec i r m hr hm hw hs =>
    by_cases htr : r.context = t
    · exact Or.inr ⟨i,r,rfl,hr,htr⟩
    · left
      rw [hw,hm.contexts,Function.update_of_ne (Ne.symm htr)]
      rfl
  | idle hr hs hm hw =>
    rw [hw]
    exact Or.inl rfl
  | dispatch hr hs ht' hm hcur hw =>
    rw [hw]
    exact Or.inl rfl
  | finish hr hp hs hse hr' hw =>
    left
    obtain ⟨_,hworld⟩ := serverStep_finish he
    rw [hworld] at hcount ⊢
    exact callbacks_keeps _ _ hcount

end Lists

section Moves
variable {v : View} {r : Round} {i : Input} {m : Move}

theorem stopChild_argv (context : TaskContext) (procs : Processes) :
    (taskContextStopChild context procs).1.argv = context.argv := by
  unfold taskContextStopChild
  split
  · split <;> rfl
  · rfl

theorem resumeChild_argv (context : TaskContext) (procs : Processes) :
    (taskContextResumeChild context procs).1.argv = context.argv := by
  unfold taskContextResumeChild
  split
  · split <;> rfl
  · rfl

theorem executeShellTask_argv (h : executeShellTask v r i = some m) :
    m.context.argv = v.context.argv := by
  unfold executeShellTask at h
  split at h
  · split at h
    · split at h
      · cases h
        rfl
      · split at h <;> cases h <;> rfl
    · cases h
      rfl
  · cases h

theorem executeProgramTask_argv (h : executeProgramTask v r i = some m) :
    m.context.argv = v.context.argv := by
  unfold executeProgramTask at h
  split at h
  · cases h
    rfl
  · split at h
    · cases h
      rfl
    · cases h
      rfl
    · split at h
      · cases h
        rfl
      · split at h <;> cases h
        · exact resumeChild_argv _ _
        · rfl
    · cases h

theorem taskContextDrainPipe_argv {site : Site} (h : taskContextDrainPipe v r site i = some m) :
    m.context.argv = v.context.argv := by
  unfold taskContextDrainPipe at h
  split at h
  case h_2 =>
    dsimp only at h
    split at h
    · split at h
      · cases h
        rfl
      · split at h <;> cases h <;> rfl
    · cases h
  case h_3 =>
    split at h <;> cases h
    rfl
  all_goals cases h <;> rfl

theorem sendProgress_argv {site : Site} {chunk : Text} {pieces : List Piece}
    (h : sendProgress v r site chunk pieces i = some m) : m.context.argv = v.context.argv := by
  unfold sendProgress at h
  split at h
  · dsimp only at h
    split at h <;> cases h <;> rfl
  · cases h
    rfl
  · cases h

theorem waitChild_argv (h : waitChild v r = some m) : m.context.argv = v.context.argv := by
  unfold waitChild at h
  split at h
  · split at h <;> cases h
    rfl
  · cases h

theorem exitStep_argv {exit : Exit} {op : ExitOp} {rest : List ExitOp}
    (h : exitStep v r exit op rest i = some m) : m.context.argv = v.context.argv := by
  unfold exitStep at h
  dsimp only at h
  split at h
  case h_2 => split at h <;> cases h <;> rfl
  case h_6 => split at h <;> cases h <;> rfl
  all_goals cases h <;> rfl

/-- The executor leaves the argument vector to the release of the context. -/
theorem serverTaskExecutor_argv (h : serverTaskExecutor v r i = some m) :
    m.context.argv = v.context.argv := by
  unfold serverTaskExecutor at h
  split at h
  · split at h
    · cases h
      rfl
    · split at h <;> cases h <;> rfl
  · exact executeShellTask_argv h
  · exact executeProgramTask_argv h
  · cases h
    unfold loopTest
    split
    · split <;> rfl
    · rfl
  · cases h
    rfl
  · exact taskContextDrainPipe_argv h
  · exact sendProgress_argv h
  · cases h
    rfl
  · cases h
    unfold reap
    split
    · split <;> rfl
    · rfl
  · cases h
    unfold pollPreempt
    split
    · exact stopChild_argv _ _
    · rfl
  · cases h
    unfold afterLoop
    split
    · exact stopChild_argv _ _
    · split <;> rfl
  · exact waitChild_argv h
  · exact exitStep_argv h
  · cases h
    rfl
  · cases h

end Moves

section Requests
variable {Q : Type} [TaskQueue Q] {s s' : State Q} {c : ThreadId} {command : Text}
  {argv : List Text} {burst : ℤ}

/-- The task and the context that the request for a program makes. -/
theorem serverStep_program
    (he : serverStep s (.request c (.program command argv burst)) = some s') :
    Scheduler.step s.sched (.submit (createProgramTask (s.world.clients c) command argv burst
      s.sched.allocated).1) = some s'.sched ∧
    s'.world = (submitTask s.world c s.sched.allocated
      (createProgramTask (s.world.clients c) command argv burst s.sched.allocated)).2 := by
  rcases serverStep_cases he with ⟨w,hr,rfl⟩ | ⟨y,w,sched,hr,hs,rfl⟩
  · simp only [respond] at hr
    split at hr
    · cases hr
    · cases hr
  · simp only [respond] at hr
    split at hr
    · cases hr
      exact ⟨hs,rfl⟩
    · cases hr

end Requests

section Refinement
variable {ok : Core → World → ServerAction → Prop} {c c' : State TaskLinks} {l : State TaskLists}

theorem serverRefines_initWith (config : SchedulerConfig) :
    ServerRefines (serverInitWith TaskLinks config) (serverInitWith TaskLists config) :=
  ⟨refines_init _ _,rfl⟩

/-- The side condition reads what both servers have in common. -/
theorem serverReaches_refines (h : ServerRefines c l)
    (hrun : Reaches (FiresIf (fun s => ok s.sched.toCore s.world) serverStep) c c') :
    ∃ l', Reaches (FiresIf (fun s => ok s.sched.toCore s.world) serverStep) l l' ∧
      ServerRefines c' l' := by
  obtain ⟨as,hrun⟩ := hrun
  have hS : ∀ (s : State TaskLinks) (x : ServerAction) (s' : State TaskLinks) (l : State TaskLists),
      ServerRefines s l → FiresIf (fun s => ok s.sched.toCore s.world) serverStep s x s' →
        ∃ l', FiresIf (fun s => ok s.sched.toCore s.world) serverStep l x l' ∧
          ServerRefines s' l' := by
    rintro s x s' l hr ⟨hok,he⟩
    obtain ⟨l',he',hr'⟩ := serverStep_refines hr he
    have hok' : ok l.sched.toCore l.world x := by
      rw [← hr.sched.core,← hr.world]
      exact hok
    exact ⟨l',⟨hok',he'⟩,hr'⟩
  obtain ⟨l',hl,hr⟩ := hrun.simulate hS h
  exact ⟨l',⟨as,hl⟩,hr⟩

/-- Runs with a condition on every step and with notes on the steps taken. -/
def annotated {η Q : Type} [TaskQueue Q] (ok : Core → World → ServerAction → Prop)
    (note : η → Core → World → ServerAction → η) :
    State Q × η → ServerAction → State Q × η → Prop :=
  FiresIf (fun s => ok s.1.sched.toCore s.1.world)
    (withLabels serverStep fun notes s => note notes s.sched.toCore s.world)

theorem annotated_state {η Q : Type} [TaskQueue Q] {note : η → Core → World → ServerAction → η}
    {s s' : State Q × η} (h : Reaches (annotated ok note) s s') :
    Reaches (Fires serverStep) s.1 s'.1 :=
  Reaches.project (f := Prod.fst)
    (fun _ _ _ hr => (Reaches.refl _).tail (withLabels_eq_some hr.2).1) h

/-- Without its notes the run still meets the condition. -/
theorem annotated_checked {η Q : Type} [TaskQueue Q] {note : η → Core → World → ServerAction → η}
    {s s' : State Q × η} (h : Reaches (annotated ok note) s s') :
    Reaches (FiresIf (fun s => ok s.sched.toCore s.world) serverStep) s.1 s'.1 :=
  Reaches.project (f := Prod.fst)
    (fun _ _ _ hr => (Reaches.refl _).tail ⟨hr.1,(withLabels_eq_some hr.2).1⟩) h

theorem annotated_refines {η : Type} {note : η → Core → World → ServerAction → η} {notes notes' : η}
    (h : ServerRefines c l) (hrun : Reaches (annotated ok note) (c,notes) (c',notes')) :
    ∃ l', Reaches (annotated ok note) (l,notes) (l',notes') ∧ ServerRefines c' l' := by
  obtain ⟨as,hrun⟩ := hrun
  have hS : ∀ (s : State TaskLinks × η) (x : ServerAction) (s' : State TaskLinks × η)
      (l : State TaskLists × η), (ServerRefines s.1 l.1 ∧ s.2 = l.2) → annotated ok note s x s' →
        ∃ l', annotated ok note l x l' ∧ ServerRefines s'.1 l'.1 ∧ s'.2 = l'.2 := by
    rintro ⟨s,notes⟩ x ⟨s',notes'⟩ ⟨l,_⟩ ⟨hr,rfl⟩ ⟨hok,he⟩
    replace hr : ServerRefines s l := hr
    obtain ⟨hs,hn⟩ := withLabels_eq_some he
    obtain ⟨l',hl,hr'⟩ := serverStep_refines hr hs
    rw [hr.sched.core,hr.world] at hok hn
    refine ⟨(l',note notes l.sched.toCore l.world x),⟨hok,?_⟩,hr',hn⟩
    simp only [withLabels,hl,Option.map_some]
  obtain ⟨⟨l',_⟩,hl,hr,rfl⟩ := hrun.simulate (t := (l,notes)) hS ⟨h,rfl⟩
  exact ⟨l',⟨as,hl⟩,hr⟩

end Refinement

end UnixShell.Server
