import UnixShell.Server.Clients

/-! # Descriptors and the connections behind them

A context keeps the number of its client's socket after the client thread has closed
it. A number is given to a new connection while a task may still be drained to it only
if `accept` picks it in that window; otherwise every progress packet goes to the
connection that submitted the task.
-/
namespace UnixShell.Server
open Foundation Scheduler

/-- From this point of its round, or in a later round, the task may be drained again. -/
def willDrain (task : Task) (r : Round) : Bool :=
  match r.pc with
  | .start | .program | .loopTest =>
    !(task.cancelRequested && decide (r.slice < r.quantum) && decide (0 < task.remainingBurst))
  | .shell => false
  | .exiting exit _ => decide (mayRequeue task (exitResult exit))
  | .returned exit => decide (mayRequeue task (exitResult exit))
  | _ => true

def mayDrain (core : Core) (w : World) (t : TaskRef) : Bool :=
  decide ((core.tasks t).state = .waiting) ||
    w.round.any (fun r => decide (r.task = t) && willDrain (core.tasks t) r)

/-- The number that the task's context keeps. -/
def taskSocket (core : Core) (w : World) (t : TaskRef) : Option Fd :=
  (core.tasks t).userData.bind (fun k => (w.contexts k).socketFd)

/-- `accept` returns no number that is kept for a task which may still be drained. -/
def sparesDescriptors (core : Core) (w : World) : ServerAction → Bool
  | .accept fd => (List.range core.allocated).all (fun t =>
      decide (taskSocket core w t ≠ some fd) || !mayDrain core w t)
  | _ => true

theorem mayDrain_iff {core : Core} {w : World} {t : TaskRef} : mayDrain core w t = true ↔
    (core.tasks t).state = .waiting ∨
      ∃ r, w.round = some r ∧ r.task = t ∧ willDrain (core.tasks t) r = true := by
  simp only [mayDrain,Bool.or_eq_true,decide_eq_true_eq,Option.any_eq_true,Bool.and_eq_true]

/-- Descriptors of live clients lead to them; those kept for tasks lead to their owners
or nowhere; and so did every progress packet. -/
structure Isolated (s : State TaskLists) : Prop where
  live : ∀ c, (s.world.clients c).pc ≠ .gone →
    c < s.world.nextThread ∧ s.world.sockets (s.world.clients c).socketFd = some c
  waiting : ∀ t ∈ s.sched.queue.waiting, (s.sched.tasks t).state = .waiting
  bound : ∀ t < s.sched.allocated, mayDrain s.sched.toCore s.world t = true →
    ∀ fd, (s.world.contexts t).socketFd = some fd →
      s.world.sockets fd = none ∨ s.world.sockets fd = some (s.world.owner t)
  sent : ∀ connection k piece, .progress connection k piece ∈ s.world.log →
    k < s.sched.allocated ∧ connection = s.world.owner k

theorem isolated_init : Isolated (serverInit TaskLists) :=
  ⟨fun c hc => (hc rfl).elim,fun t ht => (by cases ht),fun t ht => absurd ht (Nat.not_lt_zero t),
    fun _ _ _ h => (by cases h)⟩

variable {s s' : State TaskLists} {a : ServerAction} {t : TaskRef}

section Clients
variable {n n' : ℕ} {w w' : World}

/-- The table of clients and the table of descriptors stay in step. -/
theorem step_live (h : ∀ c, (w.clients c).pc ≠ .gone →
      c < w.nextThread ∧ w.sockets (w.clients c).socketFd = some c)
    (hs : ClientStep n n' a w w') (c : ThreadId) (hc : (w'.clients c).pc ≠ .gone) :
    c < w'.nextThread ∧ w'.sockets (w'.clients c).socketFd = some c := by
  -- a move of one client changes no descriptor
  have hmove : ∀ (d : ThreadId) (pc : ClientPc), (w.clients d).pc ≠ .gone →
      ((setPc w d pc).clients c).pc ≠ .gone →
      c < w.nextThread ∧ w.sockets ((setPc w d pc).clients c).socketFd = some c := by
    intro d pc hd hc
    by_cases hcd : c = d
    · subst hcd
      simpa only [setPc,Function.update_self] using h c hd
    · simp only [setPc,Function.update_of_ne hcd] at hc ⊢
      exact h c hc
  cases hs with
  | quiet _ hcl ht hk _ _ =>
    rw [hcl] at hc ⊢
    rw [ht,hk]
    exact h c hc
  | @accept fd _ _ hfd hcl ht hk _ _ =>
    rw [hcl] at hc ⊢
    rw [ht,hk]
    by_cases hcn : c = w.nextThread
    · subst hcn
      simp
    · simp only [Function.update_of_ne hcn] at hc ⊢
      obtain ⟨hlt,hsock⟩ := h c hc
      refine ⟨hlt.trans (Nat.lt_succ_self _),?_⟩
      rw [Function.update_of_ne]
      · exact hsock
      · intro he
        rw [he,hfd] at hsock
        cases hsock
  | submit _ hp _ hcl ht hk _ _ =>
    rw [hcl] at hc ⊢
    rw [ht,hk]
    exact hmove _ _ (by rw [hp]; simp) hc
  | turn _ hshift hcl ht hk _ _ =>
    rw [hcl] at hc ⊢
    rw [ht,hk]
    refine hmove _ _ ?_ hc
    intro hg
    rw [hg] at hshift
    cases hshift
  | @close d _ hp hcl ht hk _ _ =>
    rw [hcl] at hc ⊢
    rw [ht,hk]
    have hcd : c ≠ d := by
      rintro rfl
      simp [setPc] at hc
    simp only [setPc,Function.update_of_ne hcd] at hc ⊢
    obtain ⟨hlt,hsock⟩ := h c hc
    refine ⟨hlt,?_⟩
    rw [Function.update_of_ne]
    · exact hsock
    · intro he
      have hd := (h d (by rw [hp]; simp)).2
      rw [he,hd] at hsock
      exact hcd (Option.some.inj hsock).symm

/-- Every thread that is there was started by an accept, and has its descriptor. -/
theorem ServerReachable.live {Q : Type} [TaskQueue Q] {s : State Q} (h : ServerReachable s) :
    ∀ c, (s.world.clients c).pc ≠ .gone →
      c < s.world.nextThread ∧ s.world.sockets (s.world.clients c).socketFd = some c := by
  apply h.invariant (P := fun s => ∀ c, (s.world.clients c).pc ≠ .gone →
    c < s.world.nextThread ∧ s.world.sockets (s.world.clients c).socketFd = some c)
  · intro s a s' hs he
    exact step_live hs (serverStep_client he)
  · intro c hc
    exact (hc rfl).elim

theorem client_owner (hs : ClientStep n n' a w w') {k : ContextRef} (hk : k < n) :
    w'.owner k = w.owner k := by
  cases hs with
  | submit _ _ _ _ _ _ ho _ => rw [ho,Function.update_of_ne hk.ne]
  | quiet _ _ _ _ ho _ => rw [ho]
  | accept _ _ _ _ _ _ ho _ => rw [ho]
  | turn _ _ _ _ _ ho _ => rw [ho]
  | close _ _ _ _ _ ho _ => rw [ho]

end Clients

section Drains
variable {v : View} {r r' : Round} {i : Input} {pc pc' : ExecutorPc} {x : Option Action}
  {events : List ServerEvent}

theorem willDrain_mono {task task' : Task}
    (hc : task.cancelRequested = true → task'.cancelRequested = true)
    (hb : task'.remainingBurst = task.remainingBurst) (hd : willDrain task' r = true) :
    willDrain task r = true := by
  have hreq : ∀ exit, decide (mayRequeue task' (exitResult exit)) = true →
      decide (mayRequeue task (exitResult exit)) = true := by
    intro exit he
    obtain ⟨h₁,h₂,h₃⟩ := of_decide_eq_true he
    refine decide_eq_true ⟨h₁,?_,hb ▸ h₃⟩
    cases hcan : task.cancelRequested with
    | false => rfl
    | true => rw [hc hcan] at h₂; cases h₂
  have hloop : (!(task'.cancelRequested && decide (r.slice < r.quantum) &&
      decide (0 < task'.remainingBurst))) = true →
      (!(task.cancelRequested && decide (r.slice < r.quantum) &&
        decide (0 < task.remainingBurst))) = true := by
    rw [hb]
    cases hcan : task.cancelRequested with
    | false => exact fun _ => rfl
    | true => rw [hc hcan]; exact id
  unfold willDrain at hd ⊢
  split <;> simp_all

/-- A round that is over for the task is over for good. -/
theorem shift_willDrain (h : Shift v r pc i pc' x events) (hp : r.pc = pc) (hp' : r'.pc = pc')
    (hq : r'.quantum = r.quantum) (hs : pc = .pollPreempt ∨ r'.slice = r.slice)
    (hcancel : (v.shouldCancel || v.task.cancelRequested) = v.task.cancelRequested)
    (hd : willDrain v.task r' = true) : willDrain v.task r = true := by
  cases h with
  | noContext _ => simp [willDrain,hp',mayRequeue,exitResult] at hd
  | shell _ => simp [willDrain,hp'] at hd
  | program _ =>
    obtain hs | hs := hs
    · cases hs
    · simpa only [willDrain,hp,hp',hq,hs] using hd
  | shellNoLine _ _ _ => simp [willDrain,hp',mayRequeue,exitResult] at hd
  | shellDone _ _ => simp [willDrain,hp',mayRequeue,exitResult] at hd
  | shellNoOutput _ => simp [willDrain,hp',mayRequeue,exitResult] at hd
  | early he =>
    rcases he with rfl | rfl | rfl <;> simp [willDrain,hp',mayRequeue,exitResult] at hd
  | running =>
    obtain hs | hs := hs
    · cases hs
    · simpa only [willDrain,hp,hp',hq,hs] using hd
  | cancelled _ _ _ => simp [willDrain,hp',mayRequeue,exitResult] at hd
  | tick _ _ hc =>
    rw [hcancel] at hc
    simp [willDrain,hp,hc]
  | loopEnd hl =>
    simp only [willDrain,hp,Bool.not_eq_true',Bool.and_eq_false_iff,decide_eq_false_iff_not]
    rcases not_and_or.mp hl with hl | hl
    · exact Or.inl (Or.inr hl)
    · exact Or.inr hl
  | op _ => simpa only [willDrain,hp,hp'] using hd
  | opFailed => simpa only [willDrain,hp,hp'] using hd
  | mark _ _ => simpa only [willDrain,hp,hp'] using hd
  | done => simpa only [willDrain,hp,hp'] using hd
  | _ => simp only [willDrain,hp]

/-- A burst is stored in the middle of a round. -/
theorem shift_setBurst_willDrain {b : ℤ} {task : Task}
    (h : Shift v r pc i pc' (some (.setBurst b)) events) (hp : r.pc = pc) :
    willDrain task r = true := by
  cases h <;> simp only [willDrain,hp]

theorem shift_progress (h : Shift v r pc i pc' x events) {connection : ThreadId} {k : ContextRef}
    {piece : Piece} (hm : .progress connection k piece ∈ events) :
    k = r.context ∧ v.connection = some connection ∧
      ∃ site chunk pieces, pc = .sending site chunk pieces := by
  cases h <;> simp at hm
  rename_i site bytes piece' rest connection' hc
  obtain ⟨rfl,rfl,rfl⟩ := hm
  exact ⟨rfl,hc,site,bytes,_,rfl⟩

end Drains

/-- The state of a record turns to waiting only where its round sends it back. -/
theorem waitingState_of_step (hc : Consistent s) (hshape : RoundStep s s' a)
    (ht : t < s.sched.allocated) (hw : (s'.sched.tasks t).state = .waiting) :
    (s.sched.tasks t).state = .waiting ∨ ∃ quantum result, a = .finish ∧
      s.sched.main = .returned t quantum result ∧ mayRequeue (s.sched.tasks t) result := by
  rcases hshape.sched with hs | ⟨y,hs,hfin,_⟩
  · rw [hs] at hw
    exact Or.inl hw
  · rcases step_state hc.sched hs ht with he | ⟨hne,_⟩ | ⟨quantum,result,hy,hm,hr,_⟩
    · exact Or.inl (he ▸ hw)
    · exact (hne hw).elim
    · exact Or.inr ⟨quantum,result,hfin hy,hm,hr⟩

theorem waitingState_of_ne_finish (hc : Consistent s) (hshape : RoundStep s s' a)
    (ht : t < s.sched.allocated) (ha : a ≠ .finish) (hw : (s'.sched.tasks t).state = .waiting) :
    (s.sched.tasks t).state = .waiting :=
  (waitingState_of_step hc hshape ht hw).resolve_right fun ⟨_,_,hf,_⟩ => ha hf

/-- No step makes an old task drainable again. -/
theorem mayDrain_of_step (h : Isolated s) (hc : Consistent s) (hshape : RoundStep s s' a)
    (ht : t < s.sched.allocated) (hd : mayDrain s'.sched.toCore s'.world t = true) :
    mayDrain s.sched.toCore s.world t = true := by
  rw [mayDrain_iff] at hd ⊢
  have hwait := waitingState_of_step hc hshape ht
  have hne := waitingState_of_ne_finish hc hshape ht
  cases hshape with
  | outside ha hw hs =>
    rcases hd with hd | ⟨r,hr,hrt,hd⟩
    · exact Or.inl (hne (by rintro rfl; cases ha) hd)
    · rw [hw.round] at hr
      refine Or.inr ⟨r,hr,hrt,?_⟩
      rcases hs with hs | ⟨y,hy,_,hs⟩
      · rwa [hs] at hd
      · have hb : (s'.sched.tasks t).remainingBurst = (s.sched.tasks t).remainingBurst := by
          rcases step_remainingBurst hs ht with hb | ⟨b,q,rfl,_⟩
          · exact hb
          · cases hy
        exact willDrain_mono (step_continues hs ht).cancelRequested hb hd
  | @exec i r m hr hm hw hs =>
    rcases hd with hd | ⟨r',hr',hrt,hd⟩
    · exact Or.inl (hne (by simp) hd)
    · obtain rfl : m.round = r' := by
        rw [hw] at hr'
        exact Option.some.inj hr'
      rw [hm.task] at hrt
      subst hrt
      refine Or.inr ⟨r,hr,rfl,?_⟩
      by_cases hb : ∃ b, m.action = some (.setBurst b)
      · obtain ⟨b,hb⟩ := hb
        have hshift := hm.shift
        rw [hb] at hshift
        exact shift_setBurst_willDrain hshift rfl
      · rw [hm.tasks hs (fun b hx => hb ⟨b,hx⟩)] at hd
        exact shift_willDrain hm.shift rfl rfl hm.quantum hm.slice (hc.view_cancel hr) hd
  | idle hr hs hmain hw =>
    rcases hd with hd | ⟨r',hr',_,_⟩
    · exact Or.inl (hne (by simp) hd)
    · rw [hw,hr] at hr'
      cases hr'
  | @dispatch u quantum hr hs hu hmain hcur hw =>
    rcases hd with hd | ⟨r',hr',hrt,_⟩
    · exact Or.inl (hne (by simp) hd)
    · rw [hw] at hr'
      obtain rfl := Option.some.inj hr'
      subst hrt
      exact Or.inl (h.waiting _ hu)
  | @finish r exit hr hp hs hse hr' hw =>
    rcases hd with hd | ⟨r',hr'',_,_⟩
    · rcases hwait hd with hst | ⟨quantum,result,_,hm,hreq⟩
      · exact Or.inl hst
      · have hmain := (hc.running r hr).1
        rw [hm] at hmain
        obtain ⟨exit',hp',rfl,rfl,rfl⟩ := mainOf_returned hmain.symm
        refine Or.inr ⟨r,hr,rfl,?_⟩
        simpa only [willDrain,hp'] using decide_eq_true hreq
    · rw [hr'] at hr''
      cases hr''

theorem step_socketFd (hshape : RoundStep s s' a) {k : ContextRef}
    (hk : k < s.sched.allocated) :
    (s'.world.contexts k).socketFd = (s.world.contexts k).socketFd := by
  cases hshape with
  | outside _ hw _ => exact (hw.contexts k hk.ne).socketFd
  | @exec i r m hr hm hw hs =>
    rw [hw,hm.contexts]
    by_cases hkr : k = r.context
    · subst hkr
      rw [Function.update_self,hm.socketFd]
      rfl
    · rw [Function.update_of_ne hkr]
  | idle _ _ _ hw => rw [hw]
  | dispatch _ _ _ _ _ hw => rw [hw]; rfl
  | finish _ _ _ _ _ hw => exact (hw.contexts k hk.ne).socketFd

theorem Isolated.waiting_step (h : Isolated s) (hc : Consistent s) (hshape : RoundStep s s' a) :
    ∀ t ∈ s'.sched.queue.waiting, (s'.sched.tasks t).state = .waiting := by
  rcases hshape.sched with hs | ⟨y,hs,_,_⟩
  · rw [hs]
    exact h.waiting
  · exact step_waitingState hc.sched h.waiting hs

/-- A number that is kept for a task which may be drained leads to the owner or nowhere. -/
theorem step_bound (h : Isolated s) (hc : Consistent s) (hshape : RoundStep s s' a)
    (hclient : ClientStep s.sched.allocated s'.sched.allocated a s.world s'.world)
    (hok : sparesDescriptors s.sched.toCore s.world a = true)
    (ht : t < s'.sched.allocated) (hd : mayDrain s'.sched.toCore s'.world t = true) {fd : Fd}
    (hfd : (s'.world.contexts t).socketFd = some fd) :
    s'.world.sockets fd = none ∨ s'.world.sockets fd = some (s'.world.owner t) := by
  by_cases hlt : t < s.sched.allocated
  · have hd' := mayDrain_of_step h hc hshape hlt hd
    rw [step_socketFd hshape hlt] at hfd
    have hb := h.bound t hlt hd' fd hfd
    rw [client_owner hclient hlt]
    cases hclient with
    | quiet _ _ _ hk _ _ => rwa [hk]
    | @accept fd' _ ha _ _ _ hk _ _ =>
      subst ha
      rw [hk]
      by_cases hff : fd = fd'
      · subst hff
        have hsocket : taskSocket s.sched.toCore s.world t = some fd := by
          simp only [taskSocket,hc.named t hlt,Option.bind_some,hfd]
        have hall := List.all_eq_true.mp hok t (List.mem_range.mpr hlt)
        simp [hsocket,hd'] at hall
      · rwa [Function.update_of_ne hff]
    | submit _ _ _ _ _ hk _ _ => rwa [hk]
    | turn _ _ _ _ hk _ _ => rwa [hk]
    | @close c _ _ _ _ hk _ _ =>
      rw [hk]
      by_cases hff : fd = (s.world.clients c).socketFd
      · subst hff
        exact Or.inl (Function.update_self _ _ _)
      · rwa [Function.update_of_ne hff]
  · cases hclient with
    | @submit c hn hp hfd' _ _ hk ho _ =>
      obtain rfl : t = s.sched.allocated := by
        rw [hn] at ht
        exact Nat.le_antisymm (Nat.le_of_lt_succ ht) (Nat.le_of_not_lt hlt)
      rw [hfd] at hfd'
      rcases hfd' with hfd' | hfd'
      · cases hfd'
      · right
        rw [hk,ho,Function.update_self,Option.some.inj hfd']
        exact (h.live c (by rw [hp]; simp)).2
    | quiet hn _ _ _ _ _ => exact (hlt (hn ▸ ht)).elim
    | accept hn _ _ _ _ _ _ _ => exact (hlt (hn ▸ ht)).elim
    | turn hn _ _ _ _ _ _ => exact (hlt (hn ▸ ht)).elim
    | close hn _ _ _ _ _ _ => exact (hlt (hn ▸ ht)).elim

/-- The executor looks the number up when it sends, while the task may be drained. -/
theorem moved_sent (h : Isolated s) (hc : Consistent s) {r : Round} (hr : s.world.round = some r)
    {i : Input} {m : Move} (hmv : Moved (view s.sched.toCore s.world r) r i m)
    {connection : ThreadId} {k : ContextRef} {piece : Piece}
    (hm : .progress connection k piece ∈ m.events) :
    k < s.sched.allocated ∧ connection = s.world.owner k := by
  obtain ⟨rfl,hconn,site,chunk,pieces,hp⟩ := shift_progress hmv.shift hm
  obtain ⟨_,hctx⟩ := hc.running r hr
  have hlt := hc.task_lt hr
  rw [hctx]
  refine ⟨hlt,?_⟩
  simp only [view,connectionOf,hctx] at hconn
  obtain ⟨fd,hfd,hsock⟩ := Option.bind_eq_some_iff.mp hconn
  have hd : mayDrain s.sched.toCore s.world r.task = true :=
    mayDrain_iff.mpr (Or.inr ⟨r,hr,rfl,by simp only [willDrain,hp]⟩)
  rcases h.bound r.task hlt hd fd hfd with hn | ho
  · rw [hn] at hsock
    cases hsock
  · rw [ho] at hsock
    exact (Option.some.inj hsock).symm

theorem step_sent (h : Isolated s) (hc : Consistent s) (hshape : RoundStep s s' a)
    (hclient : ClientStep s.sched.allocated s'.sched.allocated a s.world s'.world)
    {connection : ThreadId} {k : ContextRef} {piece : Piece}
    (hm : .progress connection k piece ∈ s'.world.log) :
    k < s'.sched.allocated ∧ connection = s'.world.owner k := by
  have hold : k < s.sched.allocated ∧ connection = s.world.owner k → _ := fun ⟨hk,hconn⟩ =>
    (⟨hk.trans_le hshape.allocated,by rw [client_owner hclient hk]; exact hconn⟩ :
      k < s'.sched.allocated ∧ connection = s'.world.owner k)
  obtain ⟨new,hlog,hnew⟩ := hshape.newEvents
  rw [hlog] at hm
  rcases List.mem_append.mp hm with hm | hm
  · cases hnew with
    | client hb =>
      have hc := hb _ hm
      cases hc
    | invoked _ => cases List.mem_singleton.mp hm
    | moved hr hmv => exact hold (moved_sent h hc hr hmv hm)
  · exact hold (h.sent connection k piece hm)

theorem step_isolated (h : Isolated s) (hc : Consistent s)
    (hok : sparesDescriptors s.sched.toCore s.world a = true) (he : serverStep s a = some s') :
    Isolated s' := by
  have hshape := serverStep_shape hc he
  have hclient := serverStep_client he
  exact ⟨step_live h.live hclient,h.waiting_step hc hshape,
    fun t ht hd fd hfd => step_bound h hc hshape hclient hok ht hd hfd,
    fun connection k piece hm => step_sent h hc hshape hclient hm⟩

/-- Every piece of a progress packet went to the connection that submitted the task. -/
def OwnConnection (s : State TaskLinks) : Prop :=
  ∀ connection k piece, .progress connection k piece ∈ s.world.log → connection = s.world.owner k

theorem ownConnection {s : State TaskLinks}
    (h : ServerReachableIf (fun core w a => sparesDescriptors core w a = true) s) :
    OwnConnection s := by
  obtain ⟨l,hl,hr⟩ := serverReachableIf_refines h
  have hrun := hl.invariant (P := fun l => Consistent l ∧ Isolated l)
    (fun _ _ _ ⟨hc,hi⟩ ⟨hok,he⟩ => ⟨step_consistent hc he,step_isolated hi hc hok he⟩)
    ⟨consistent_init,isolated_init⟩
  intro connection k piece hm
  rw [hr.world] at hm ⊢
  exact (hrun.2.sent connection k piece hm).2

/-- A client leaves while its demo sleeps, and the next one gets another number. -/
def freshDescriptor : List ServerAction :=
  [.accept 4,.request 0 (.program "./demo 3".toList ["./demo".toList,"3".toList] 3),.enter,
   .exec .go,.exec (.started true),.childWrite 1 "x".toList,.exec .go,.exec .go,
   .exec (.readSome 1 true),.exec (.sent true),.poll 0,.peek 0 true,.cancel 0,.cancelled 0,
   .release 0,.close 0,.accept 5]

theorem ownConnection_freshDescriptor :
    ∃ s : State TaskLinks, exec
        (guarded (fun s a => sparesDescriptors s.sched.toCore s.world a = true) serverStep)
        (serverInit TaskLinks) freshDescriptor = some s ∧
      .progress 0 0 (.status .serverProgress) ∈ s.world.log ∧ OwnConnection s := by
  obtain ⟨s,he⟩ := Option.isSome_iff_exists.mp
    (show (exec (guarded (fun s a => sparesDescriptors s.sched.toCore s.world a = true) serverStep)
      (serverInit TaskLinks) freshDescriptor).isSome = true from rfl)
  refine ⟨s,he,?_,ownConnection (reaches_of_guarded he)⟩
  cases he
  decide

/-- A client leaves after the executor's cancellation test, and its number is taken by
the next client before the executor drains the pipe. -/
def reusedDescriptor : List ServerAction :=
  [.accept 4,.request 0 (.program "./demo 3".toList ["./demo".toList,"3".toList] 3),.enter,
   .exec .go,.exec (.started true),.exec .go,.poll 0,.peek 0 true,.cancel 0,.cancelled 0,
   .release 0,.close 0,.accept 4,.childWrite 1 "x".toList,.exec .go,.exec (.readSome 1 true),
   .exec (.sent true)]

theorem progress_to_stranger :
    ∃ s : State TaskLinks, exec serverStep (serverInit TaskLinks) reusedDescriptor = some s ∧
      ServerReachable s ∧ s.world.owner 0 = 0 ∧
      .progress 1 0 (.status .serverProgress) ∈ s.world.log ∧ ¬ OwnConnection s := by
  obtain ⟨s,he⟩ := Option.isSome_iff_exists.mp
    (show (exec serverStep (serverInit TaskLinks) reusedDescriptor).isSome = true from rfl)
  have howner : s.world.owner 0 = 0 := by cases he; rfl
  have hm : .progress 1 0 (.status .serverProgress) ∈ s.world.log := by cases he; decide
  refine ⟨s,he,reaches_of_exec he,howner,hm,fun hf => ?_⟩
  have hc := hf 1 0 _ hm
  rw [howner] at hc
  cases hc

end UnixShell.Server
