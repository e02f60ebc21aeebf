import UnixShell.Server.References

/-! # What one client thread does

A thread that waits for a command stays there, whatever the other threads do. Otherwise
it makes its own moves, and the final packets that it writes are for its own tasks.
-/
namespace UnixShell.Server
open Foundation Scheduler

/-- The task of the thread that an event answers. -/
def answeredTo (owner : ContextRef → ThreadId) (c : ThreadId) : ServerEvent → Option ContextRef
  | .answered k => if owner k = c then some k else none
  | _ => none

/-- The tasks whose final packet the thread has written, in order. -/
def finals (w : World) (c : ThreadId) : List ContextRef :=
  (w.log.filterMap (answeredTo w.owner c)).reverse

/-- What a thread that is not woken up by a command does. -/
inductive ThreadStep (c : ThreadId) (w w' : World) : Prop
  | kept : (w'.clients c).pc = (w.clients c).pc → finals w' c = finals w c → ThreadStep c w w'
  | connected : c = w.nextThread → (w'.clients c).pc = .receiving → finals w' c = finals w c →
      ThreadStep c w w'
  | turned {pc : ClientPc} {events : List ServerEvent} : (w.clients c).pc ≠ .receiving →
      ClientShift w (w.clients c).pc pc events → (w'.clients c).pc = pc →
      finals w' c = finals w c ++ (events.filterMap (answeredTo w.owner c)).reverse →
      ThreadStep c w w'
  | closed : (w'.clients c).pc = .gone → finals w' c = finals w c → ThreadStep c w w'

section Receiving
variable {w w' : World} {a : ServerAction} {c d : ThreadId} {core : Core}
  {toFree : ThreadId → Option TaskRef} {x : Option Action}

theorem setPc_other (pc : ClientPc) (h : c ≠ d) : (setPc w d pc).clients c = w.clients c :=
  Function.update_of_ne h _ _

theorem clientSend_other {ok : Bool} (hcd : c ≠ d) (h : clientSend w d ok = some w') :
    w'.clients c = w.clients c := by
  unfold clientSend at h
  dsimp only at h
  split at h
  · split at h <;> cases h
    · exact setPc_other _ hcd
    · exact setPc_other _ hcd
  · cases h
    exact setPc_other _ hcd
  · cases h
    exact setPc_other _ hcd
  · cases h
    exact setPc_other _ hcd
  · cases h

/-- A thread that is there already moves by its own actions only. -/
theorem respond_other (hc : a.client ≠ some c) (hlt : c < w.nextThread)
    (h : respond core toFree w a = some (x,w')) : w'.clients c = w.clients c := by
  have hne : ∀ d, a.client = some d → c ≠ d := by
    rintro d ha rfl
    exact hc ha
  cases a with
  | accept fd =>
    simp only [respond] at h
    split at h <;> cases h
    exact Function.update_of_ne hlt.ne _ _
  | request d request =>
    simp only [respond] at h
    split at h
    · cases request <;> cases h <;> exact setPc_other _ (hne d rfl)
    · cases h
  | send d ok =>
    obtain ⟨u,hu,he⟩ := Option.map_eq_some_iff.mp h
    cases he
    exact clientSend_other (hne d rfl) hu
  | print d =>
    simp only [respond] at h
    split at h <;> cases h
    rw [setPc_other _ (hne d rfl)]
    unfold printSummaryIfNeeded
    split <;> rfl
  | cancelled d =>
    simp only [respond] at h
    split at h <;> cases h
    · exact setPc_other _ (hne d rfl)
    · exact setPc_other _ (hne d rfl)
  | exec i =>
    simp only [respond] at h
    split at h
    · obtain ⟨m,_,he⟩ := Option.map_eq_some_iff.mp h
      cases he
      rfl
    · cases h
  | childWrite pid bytes | childExit pid =>
    simp only [respond] at h
    split at h <;> cases h
    rfl
  | cleanupNext _ | requestStop | enter | finish =>
    cases h
    rfl
  | hangup d | poll d | fetch d | peek d closed | cancel d | checkIdle d | release d | close d =>
    simp only [respond] at h
    split at h <;> cases h
    exact setPc_other _ (hne d rfl)

/-- In `recv_command` a thread takes commands and the end of the connection. -/
theorem respond_receiving (hp : (w.clients c).pc = .receiving) (ha : a.client = some c)
    (h : respond core toFree w a = some (x,w')) :
    (∃ request, a = .request c request) ∨ a = .hangup c ∨ w' = w := by
  cases a <;> cases ha
  case request request => exact Or.inl ⟨request,rfl⟩
  case hangup => exact Or.inr (Or.inl rfl)
  case cleanupNext =>
    cases h
    exact Or.inr (Or.inr rfl)
  all_goals simp [respond,clientSend,hp] at h

theorem callbacks_clients (y : Action) (core : Core) (w : World) :
    (callbacks y core w).clients = w.clients := by
  have hcleanup : ∀ (u : World) (task : Task), (serverTaskCleanup u task).clients = u.clients :=
    fun u task => (sameClients_cleanup u task).clients
  unfold callbacks
  split
  · split <;> rfl
  · exact hcleanup _ _
  · rfl
  · exact hcleanup _ _
  · rfl

/-- Only a command or the end of the connection takes a thread out of `recv_command`. -/
theorem serverStep_receiving {Q : Type} [TaskQueue Q] {s s' : State Q}
    (hp : (s.world.clients c).pc = .receiving) (hlt : c < s.world.nextThread)
    (hr : ∀ request, a ≠ .request c request) (hh : a ≠ .hangup c)
    (he : serverStep s a = some s') : (s'.world.clients c).pc = .receiving := by
  have hstays : ∀ x w, respond s.sched.toCore (TaskQueue.toFree s.sched.queue) s.world a =
      some (x,w) → (w.clients c).pc = .receiving := by
    intro x w hw
    by_cases ha : a.client = some c
    · rcases respond_receiving hp ha hw with ⟨request,hx⟩ | hx | hx
      · exact (hr request hx).elim
      · exact (hh hx).elim
      · rw [hx,hp]
    · rw [respond_other ha hlt hw,hp]
  rcases serverStep_cases he with ⟨w,hw,rfl⟩ | ⟨y,w,sched,hw,_,rfl⟩
  · exact hstays _ w hw
  · rw [callbacks_clients]
    exact hstays _ w hw

end Receiving

section Threads
variable {s s' : State TaskLinks} {a : ServerAction} {c : ThreadId}

/-- Threads hold the contexts of their own tasks, and only tasks are answered. -/
structure Conversing (s : State TaskLinks) : Prop where
  live : ∀ c, (s.world.clients c).pc ≠ .gone → c < s.world.nextThread
  mine : ∀ c k, (s.world.clients c).pc.context = some k →
    k < s.sched.allocated ∧ s.world.owner k = c
  answered : ∀ k, .answered k ∈ s.world.log → k < s.sched.allocated

theorem answered_turn {w : World} {pc pc' : ClientPc} {events : List ServerEvent} {k : ContextRef}
    (h : ClientShift w pc pc' events) (hk : .answered k ∈ events) : pc.context = some k := by
  cases h with
  | prints he =>
    obtain ⟨timeline,ht⟩ := he _ hk
    cases ht
  | sendsLast connection =>
    rcases List.mem_cons.mp hk with hk | hk
    · cases hk
      rfl
    · cases List.mem_singleton.mp hk
  | sends connection => cases List.mem_singleton.mp hk
  | farewell connection _ => cases List.mem_singleton.mp hk
  | _ => cases hk

theorem serverStep_answered (h : ∀ k, .answered k ∈ s.world.log → k < s.sched.allocated)
    (hmine : ∀ c k, (s.world.clients c).pc.context = some k → k < s.sched.allocated)
    (he : serverStep s a = some s') :
    ∀ k, .answered k ∈ s'.world.log → k < s'.sched.allocated := by
  intro k hk
  cases serverStep_client he with
  | quiet hn _ _ _ _ hl =>
    obtain ⟨new,hlog,hnew⟩ := hl
    rw [hlog] at hk
    rw [hn]
    rcases List.mem_append.mp hk with hk | hk
    · cases hnew _ hk
    · exact h k hk
  | accept hn _ _ _ _ _ _ hl =>
    rw [hl] at hk
    rw [hn]
    exact h k hk
  | submit hn _ _ _ _ _ _ hl =>
    rw [hl] at hk
    rw [hn]
    exact (h k hk).trans (Nat.lt_succ_self _)
  | turn hn hshift _ _ _ _ hl =>
    rw [hl] at hk
    rw [hn]
    rcases List.mem_append.mp hk with hk | hk
    · exact hmine _ k (answered_turn hshift hk)
    · exact h k hk
  | close hn _ _ _ _ _ hl =>
    rw [hl] at hk
    rw [hn]
    exact h k hk

theorem serverReachable_conversing (h : ServerReachable s) : Conversing s := by
  have hheld : ∀ s : State TaskLinks, ServerReachable s →
      (∀ c, (s.world.clients c).pc ≠ .gone → c < s.world.nextThread) ∧
      ∀ c k, (s.world.clients c).pc.context = some k →
        k < s.sched.allocated ∧ s.world.owner k = c := by
    intro s hs
    obtain ⟨l,hl,hr⟩ := serverReachable_refines hs
    obtain ⟨destroyed,href⟩ := serverReachable_referenced hl
    rw [hr.world,hr.sched.core]
    exact ⟨fun c hc => (href.live c hc).1,href.mine⟩
  have hrun := h.invariant (P := fun s => ServerReachable s ∧
      ∀ k, .answered k ∈ s.world.log → k < s.sched.allocated)
    (fun s a s' ⟨hs,ha⟩ he => ⟨hs.tail he,
      serverStep_answered ha (fun c k hk => ((hheld s hs).2 c k hk).1) he⟩)
    ⟨Reaches.refl _,fun _ hk => by cases hk⟩
  exact ⟨(hheld s h).1,(hheld s h).2,hrun.2⟩

theorem answeredTo_eq_nil {owner : ContextRef → ThreadId} {events : List ServerEvent}
    (h : ∀ k, .answered k ∈ events → owner k ≠ c) : events.filterMap (answeredTo owner c) = [] := by
  apply List.filterMap_eq_nil_iff.mpr
  intro e he
  cases e with
  | answered k => simp only [answeredTo,if_neg (h k he)]
  | _ => rfl

theorem finals_append {w w' : World} {new : List ServerEvent} (hl : w'.log = new ++ w.log)
    (ho : ∀ k, .answered k ∈ w.log → w'.owner k = w.owner k) :
    finals w' c = finals w c ++ (new.filterMap (answeredTo w'.owner c)).reverse := by
  have hold : w.log.filterMap (answeredTo w'.owner c) = w.log.filterMap (answeredTo w.owner c) := by
    apply List.filterMap_congr
    intro e he
    cases e with
    | answered k => simp only [answeredTo,ho k he]
    | _ => rfl
  rw [finals,hl,List.filterMap_append,List.reverse_append,hold,finals]

/-- Nothing is answered to the thread by events that answer none of its tasks. -/
theorem finals_same {w w' : World} {new : List ServerEvent} (hl : w'.log = new ++ w.log)
    (ho : ∀ k, .answered k ∈ w.log → w'.owner k = w.owner k)
    (hn : ∀ k, .answered k ∈ new → w'.owner k ≠ c) : finals w' c = finals w c := by
  rw [finals_append hl ho,answeredTo_eq_nil hn,List.reverse_nil,List.append_nil]

/-- A step that neither hands a command to the thread nor the end of its connection. -/
theorem serverStep_thread (h : Conversing s) (hr : ∀ request, a ≠ .request c request)
    (hh : a ≠ .hangup c) (he : serverStep s a = some s') : ThreadStep c s.world s'.world := by
  have hstep := serverStep_client he
  have ho : ∀ k, .answered k ∈ s.world.log → s'.world.owner k = s.world.owner k :=
    fun k hk => client_owner hstep (h.answered k hk)
  have hstays : (s.world.clients c).pc = .receiving → (s'.world.clients c).pc = .receiving :=
    fun hp => serverStep_receiving hp (h.live c (by rw [hp]; simp)) hr hh he
  cases hstep with
  | quiet _ hcl _ _ _ hl =>
    obtain ⟨new,hlog,hnew⟩ := hl
    refine .kept (by rw [hcl]) (finals_same hlog ho (fun k hk => ?_))
    cases hnew _ hk
  | accept _ _ _ hcl _ _ _ hl =>
    have hlog : s'.world.log = [] ++ s.world.log := hl
    have hf := finals_same (c := c) hlog ho (fun _ hk => by cases hk)
    by_cases hc : c = s.world.nextThread
    · exact .connected hc (by rw [hcl,hc,Function.update_self]) hf
    · exact .kept (by rw [hcl,Function.update_of_ne hc]) hf
  | @submit d _ hp _ hcl _ _ _ hl =>
    have hlog : s'.world.log = [] ++ s.world.log := hl
    have hf := finals_same (c := c) hlog ho (fun _ hk => by cases hk)
    have hcd : c ≠ d := by
      rintro rfl
      have hpc := hstays hp
      rw [hcl] at hpc
      simp [setPc] at hpc
    exact .kept (by rw [hcl,setPc_other _ hcd]) hf
  | @turn d pc events _ hshift hcl _ _ hown hl =>
    by_cases hcd : c = d
    · subst hcd
      have hpc : (s'.world.clients c).pc = pc := by
        rw [hcl]
        simp [setPc]
      refine .turned (fun hp => ?_) hshift hpc ?_
      · have hback := hpc.symm.trans (hstays hp)
        rw [hp,hback] at hshift
        cases hshift
      · rw [finals_append hl ho,hown]
    · refine .kept (by rw [hcl,setPc_other _ hcd]) (finals_same hl ho (fun k hk => ?_))
      rw [hown,(h.mine d k (answered_turn hshift hk)).2]
      exact Ne.symm hcd
  | @close d _ hp hcl _ _ _ hl =>
    have hlog : s'.world.log = [] ++ s.world.log := hl
    have hf := finals_same (c := c) hlog ho (fun _ hk => by cases hk)
    by_cases hcd : c = d
    · subst hcd
      refine .closed ?_ hf
      rw [hcl]
      simp [setPc]
    · exact .kept (by rw [hcl,setPc_other _ hcd]) hf

/-- The tasks that were asked for and those that were answered, at a point of the thread. -/
def Owed (asked done : List ContextRef) : ClientPc → Prop
  | .receiving => done = asked
  | .idleCheck _ => done = asked
  | .printing _ => done = asked
  | .releasing _ true => done = asked
  | .waiting k => asked = done ++ [k]
  | .peeking k => asked = done ++ [k]
  | .answering k => asked = done ++ [k]
  | .responding k _ => asked = done ++ [k]
  | _ => done <+: asked

theorem Owed.prefix_of {asked done : List ContextRef} {pc : ClientPc} (h : Owed asked done pc) :
    done <+: asked := by
  cases pc with
  | releasing k again =>
    cases again with
    | true => exact (show done = asked from h) ▸ List.prefix_rfl
    | false => exact h
  | receiving => exact (show done = asked from h) ▸ List.prefix_rfl
  | idleCheck => exact (show done = asked from h) ▸ List.prefix_rfl
  | printing => exact (show done = asked from h) ▸ List.prefix_rfl
  | waiting k => exact ⟨[k],h.symm⟩
  | peeking k => exact ⟨[k],h.symm⟩
  | answering k => exact ⟨[k],h.symm⟩
  | responding k pieces => exact ⟨[k],h.symm⟩
  | _ => exact h

/-- A move of the thread, which answers the task that it owes and no other. -/
theorem Owed.turn {w : World} {asked done : List ContextRef} {pc pc' : ClientPc}
    {events : List ServerEvent} {owner : ContextRef → ThreadId} (h : Owed asked done pc)
    (hp : pc ≠ .receiving) (hs : ClientShift w pc pc' events)
    (hk : ∀ k, pc.context = some k → owner k = c) :
    Owed asked (done ++ (events.filterMap (answeredTo owner c)).reverse) pc' := by
  have hpre := h.prefix_of
  have hsilent : (∀ k, .answered k ∉ events) →
      done ++ (events.filterMap (answeredTo owner c)).reverse = done := by
    intro hn
    rw [answeredTo_eq_nil (fun k hk => (hn k hk).elim),List.reverse_nil,List.append_nil]
  cases hs with
  | exits => exact (hp rfl).elim
  | dropped => exact (hp rfl).elim
  | hangup => exact (hp rfl).elim
  | @sendsLast k piece connection =>
    have hown : owner k = c := hk k rfl
    have hasked : asked = done ++ [k] := h
    simp [answeredTo,hown,Owed,hasked]
  | sends connection =>
    rw [hsilent (by simp)]
    exact h
  | farewell connection hpc =>
    rw [hsilent (by simp)]
    rcases hpc with rfl | ⟨rest,rfl⟩
    · exact hpre
    · exact hpre
  | prints he =>
    rw [hsilent (fun k hm => by obtain ⟨timeline,ht⟩ := he _ hm; cases ht)]
    exact h
  | @releases k again =>
    rw [hsilent (by simp)]
    cases again with
    | true => exact h
    | false => exact hpre
  | _ =>
    rw [hsilent (by simp)]
    first
      | exact h
      | exact hpre

/-- What the thread owes, across a step that is no command of its own. -/
theorem Owed.step {w w' : World} {asked : List ContextRef}
    (h : Owed asked (finals w c) (w.clients c).pc) (hs : ThreadStep c w w')
    (hk : ∀ k, (w.clients c).pc.context = some k → w.owner k = c)
    (hf : c = w.nextThread → asked = []) : Owed asked (finals w' c) (w'.clients c).pc := by
  have hpre := h.prefix_of
  cases hs with
  | kept hp hd => rwa [hp,hd]
  | connected hc hp hd =>
    rw [hf hc] at hpre ⊢
    rw [hp,hd]
    exact List.prefix_nil.mp hpre
  | turned hp hshift hpc hd =>
    rw [hpc,hd]
    exact h.turn hp hshift hk
  | closed hp hd =>
    rw [hp,hd]
    exact hpre

end Threads

section Commands
variable {Q : Type} [TaskQueue Q] {s s' : State Q} {a : ServerAction} {c : ThreadId}

theorem serverStep_grows (he : serverStep s a = some s') :
    s.world.nextThread ≤ s'.world.nextThread ∧ s.sched.allocated ≤ s'.sched.allocated := by
  cases serverStep_client he with
  | quiet hn _ ht => exact ⟨ht.ge,hn.ge⟩
  | accept hn _ _ _ ht => exact ⟨by rw [ht]; exact Nat.le_succ _,hn.ge⟩
  | submit hn _ _ _ ht => exact ⟨ht.ge,by rw [hn]; exact Nat.le_succ _⟩
  | turn hn _ _ ht => exact ⟨ht.ge,hn.ge⟩
  | close hn _ _ ht => exact ⟨ht.ge,hn.ge⟩

theorem serverStep_hangup (he : serverStep s (.hangup c) = some s') :
    (s.world.clients c).pc = .receiving ∧
      s' = { s with world := setPc s.world c (.cancelling none) } := by
  cases hp : (s.world.clients c).pc with
  | receiving =>
    simp only [serverStep,respond,hp,Option.some.injEq] at he
    exact ⟨rfl,he.symm⟩
  | _ => simp [serverStep,respond,hp] at he

theorem serverStep_exit (he : serverStep s (.request c .exit) = some s') :
    (s.world.clients c).pc = .receiving ∧
      s' = { s with world := setPc s.world c (.farewell (packetPieces .serverExit [])) } := by
  cases hp : (s.world.clients c).pc with
  | receiving =>
    simp only [serverStep,respond,hp,handleRequest,Option.some.injEq] at he
    exact ⟨rfl,he.symm⟩
  | _ => simp [serverStep,respond,hp] at he

/-- A command of the thread that becomes a task. -/
structure TaskAsked (c : ThreadId) (s s' : State Q) : Prop where
  waiting : (s'.world.clients c).pc = .waiting s.sched.allocated
  allocated : s'.sched.allocated = s.sched.allocated + 1
  receiving : (s.world.clients c).pc = .receiving
  owner : s'.world.owner = Function.update s.world.owner s.sched.allocated c
  log : s'.world.log = s.world.log

theorem serverStep_asks {request : Request} {created : TaskRequest × TaskContext}
    (hr : handleRequest s.world c s.sched.allocated request =
      submitTask s.world c s.sched.allocated created)
    (he : serverStep s (.request c request) = some s') : TaskAsked c s s' := by
  cases hp : (s.world.clients c).pc with
  | receiving =>
    simp only [serverStep,respond,hp,hr,submitTask] at he
    obtain ⟨sched,hs,rfl⟩ := Option.map_eq_some_iff.mp he
    refine ⟨?_,step_allocates hs,hp,rfl,rfl⟩
    simp [callbacks,setPc]
  | _ => simp [serverStep,respond,hp] at he

end Commands

end UnixShell.Server
