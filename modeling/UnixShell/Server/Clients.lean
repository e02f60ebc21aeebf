import UnixShell.Server.Rounds

/-! # What one step of a client thread can do

Four kinds of steps change the table of clients: a new connection, a submission, a move,
and the closing of a descriptor. Every other step leaves clients, descriptors and owners alone.
-/
namespace UnixShell.Server
open Foundation Scheduler

/-- One step, as the table of clients sees it. The numbers are those of the records. -/
inductive ClientStep (n n' : ℕ) (a : ServerAction) (w w' : World) : Prop
  | quiet : n' = n → w'.clients = w.clients → w'.nextThread = w.nextThread →
      w'.sockets = w.sockets → w'.owner = w.owner →
      (∃ new, w'.log = new ++ w.log ∧ ∀ e ∈ new, e.byClient = false) → ClientStep n n' a w w'
  | accept {fd : Fd} : n' = n → a = .accept fd → w.sockets fd = none →
      w'.clients = Function.update w.clients w.nextThread
        { socketFd := fd, clientNumber := w.nextThread + 1, pc := .receiving } →
      w'.nextThread = w.nextThread + 1 →
      w'.sockets = Function.update w.sockets fd (some w.nextThread) → w'.owner = w.owner →
      w'.log = w.log → ClientStep n n' a w w'
  | submit {c : ThreadId} : n' = n + 1 → (w.clients c).pc = .receiving →
      (w'.contexts n).socketFd = none ∨ (w'.contexts n).socketFd = some (w.clients c).socketFd →
      w'.clients = (setPc w c (.waiting n)).clients → w'.nextThread = w.nextThread →
      w'.sockets = w.sockets → w'.owner = Function.update w.owner n c → w'.log = w.log →
      ClientStep n n' a w w'
  | turn {c : ThreadId} {pc : ClientPc} {events : List ServerEvent} : n' = n →
      ClientShift w (w.clients c).pc pc events → w'.clients = (setPc w c pc).clients →
      w'.nextThread = w.nextThread → w'.sockets = w.sockets → w'.owner = w.owner →
      w'.log = events ++ w.log → ClientStep n n' a w w'
  | close {c : ThreadId} : n' = n → (w.clients c).pc = .closing →
      w'.clients = (setPc w c .gone).clients → w'.nextThread = w.nextThread →
      w'.sockets = Function.update w.sockets (w.clients c).socketFd none → w'.owner = w.owner →
      w'.log = w.log → ClientStep n n' a w w'

/-- The number of records that an action allocates. -/
def allocates : Option Action → ℕ
  | some (.submit _) => 1
  | _ => 0

theorem step_allocates {Q : Type} [TaskQueue Q] {s s' : System Q} {y : Action}
    (he : Scheduler.step s y = some s') : s'.allocated = s.allocated + allocates (some y) := by
  rcases step_allocated he with ⟨hn,_⟩ | ⟨⟨request,rfl⟩,hn,_⟩
  · cases y with
    | submit request =>
      obtain rfl := Option.some.inj he
      simp [allocates]
    | _ => exact hn
  · exact hn

/-- Before the callbacks, an action of another thread is one of the steps of the table. -/
theorem Responded.client {n : ℕ} {a : ServerAction} {w w' : World} {x : Option Action}
    (h : Responded n w a x w') : ClientStep n (n + allocates x) a w w' := by
  cases h with
  | accept hfd => exact .accept rfl rfl hfd rfl rfl rfl rfl rfl
  | shell command hp =>
    exact .submit rfl hp
      (Or.inl (by simp [submitTask,setPc,setContext,createShellTask,taskContextCreate]))
      rfl rfl rfl rfl rfl
  | program command argv iterations hp =>
    exact .submit rfl hp
      (Or.inr (by simp [submitTask,setPc,setContext,createProgramTask])) rfl rfl rfl rfl rfl
  | turn hs => exact .turn rfl hs rfl rfl rfl rfl rfl
  | @print _ c k hp =>
    have hs : ∀ events : List ServerEvent, (∀ e ∈ events, ∃ timeline, e = .printed timeline) →
        ClientShift w (w.clients c).pc (.releasing k true) events := by
      intro events he
      rw [hp]
      exact .prints he
    unfold printSummaryIfNeeded
    split
    · exact .turn rfl (hs [.printed w.clock.timeline] (by simp)) rfl rfl rfl rfl rfl
    · exact .turn rfl (hs [] (by simp)) rfl rfl rfl rfl rfl
  | release hp => exact .turn rfl (by rw [hp]; exact .releases) rfl rfl rfl rfl rfl
  | close hp => exact .close rfl hp rfl rfl rfl rfl rfl
  | cancel hp => exact .turn rfl (by rw [hp]; exact .cancels) rfl rfl rfl rfl rfl
  | free => exact .quiet rfl rfl rfl rfl rfl ⟨[],rfl,by simp⟩
  | stop => exact .quiet rfl rfl rfl rfl rfl ⟨[],rfl,by simp⟩
  | child => exact .quiet rfl rfl rfl rfl rfl ⟨[],rfl,by simp⟩

/-- Worlds that differ in rounds and in the contents of contexts only. -/
structure SameClients (w w' : World) : Prop where
  clients : w'.clients = w.clients
  nextThread : w'.nextThread = w.nextThread
  sockets : w'.sockets = w.sockets
  owner : w'.owner = w.owner
  log : w'.log = w.log
  contexts : ∀ k, SameAnswer (w.contexts k) (w'.contexts k)

theorem sameClients_round (w : World) (round : Option Round) :
    SameClients w { w with round := round } := ⟨rfl,rfl,rfl,rfl,rfl,fun _ => SameAnswer.refl _⟩

theorem sameClients_cleanup (w : World) (task : Task) :
    SameClients w (serverTaskCleanup w task) := by
  unfold serverTaskCleanup
  split
  · exact sameClients_round w w.round
  · rename_i k _
    refine ⟨rfl,rfl,rfl,rfl,rfl,fun j => ?_⟩
    by_cases hj : j = k
    · subst hj
      simpa only [releaseContext,setContext,Function.update_self] using
        sameAnswer_release (w.contexts j) w.procs
    · simpa only [releaseContext,setContext,Function.update_of_ne hj] using SameAnswer.refl _

theorem sameClients_free (thread : ThreadId) (core : Core) (w : World) :
    SameClients w (callbacks (.free thread) core w) := by
  cases he : core.events.head? with
  | none => simpa only [callbacks,he] using sameClients_round w w.round
  | some e =>
    cases e with
    | cleanup t => simpa only [callbacks,he] using sameClients_cleanup w (core.tasks t)
    | _ => simpa only [callbacks,he] using sameClients_round w w.round

theorem sameClients_finish (core : Core) (w : World) :
    SameClients { w with round := none } (callbacks .finish core w) := by
  have hw := sameClients_round { w with round := none } none
  cases he : core.events.head? with
  | none => simpa only [callbacks,he] using hw
  | some e =>
    cases e with
    | cleanup t =>
      simpa only [callbacks,he] using sameClients_cleanup { w with round := none } (core.tasks t)
    | _ => simpa only [callbacks,he] using hw

theorem ClientStep.congr {n n' : ℕ} {a : ServerAction} {w u u' : World} (h : ClientStep n n' a w u)
    (hs : SameClients u u') : ClientStep n n' a w u' := by
  cases h with
  | quiet hn hc ht hk ho hl =>
    exact .quiet hn (hs.clients.trans hc) (hs.nextThread.trans ht) (hs.sockets.trans hk)
      (hs.owner.trans ho) (by rw [hs.log]; exact hl)
  | accept hn ha hfd hc ht hk ho hl =>
    exact .accept hn ha hfd (hs.clients.trans hc) (hs.nextThread.trans ht) (hs.sockets.trans hk)
      (hs.owner.trans ho) (hs.log.trans hl)
  | submit hn hp hfd hc ht hk ho hl =>
    exact .submit hn hp (by rw [(hs.contexts n).socketFd]; exact hfd) (hs.clients.trans hc)
      (hs.nextThread.trans ht) (hs.sockets.trans hk) (hs.owner.trans ho) (hs.log.trans hl)
  | turn hn hp hc ht hk ho hl =>
    exact .turn hn hp (hs.clients.trans hc) (hs.nextThread.trans ht) (hs.sockets.trans hk)
      (hs.owner.trans ho) (hs.log.trans hl)
  | close hn hp hc ht hk ho hl =>
    exact .close hn hp (hs.clients.trans hc) (hs.nextThread.trans ht) (hs.sockets.trans hk)
      (hs.owner.trans ho) (hs.log.trans hl)

theorem shift_byClient {v : View} {r : Round} {i : Input} {pc pc' : ExecutorPc} {x : Option Action}
    {events : List ServerEvent} (h : Shift v r pc i pc' x events) :
    ∀ e ∈ events, e.byClient = false := by
  cases h <;> simp [ServerEvent.byClient]

/-- Every step of the server is a step of the table of clients. -/
theorem serverStep_client {Q : Type} [TaskQueue Q] {s s' : State Q} {a : ServerAction}
    (he : serverStep s a = some s') :
    ClientStep s.sched.allocated s'.sched.allocated a s.world s'.world := by
  by_cases ha : a.outside = true
  · rcases serverStep_cases he with ⟨w,hr,rfl⟩ | ⟨y,w,sched,hr,hs,rfl⟩
    · exact (respond_responded ha hr).client
    · have hc := (respond_responded ha hr).client
      rw [← step_allocates hs] at hc
      obtain ⟨hy,_⟩ := (respond_responded ha hr).action
      cases y with
      | free thread => exact hc.congr (sameClients_free thread sched.toCore w)
      | submit request => exact hc.congr (sameClients_round w w.round)
      | cancel thread client => exact hc.congr (sameClients_round w w.round)
      | requestStop => exact hc.congr (sameClients_round w w.round)
      | _ => cases hy
  cases a with
  | exec i =>
    obtain ⟨r,m,_,hm,hw,hs⟩ := serverStep_exec he
    have hn : s'.sched.allocated = s.sched.allocated := by
      rcases hs with ⟨_,hs⟩ | ⟨y,hy,hs⟩
      · rw [hs]
      · apply allocated_eq hs
        intro request hx
        rw [hx] at hy
        rcases shift_main hm.shift with ⟨_,_,hx | ⟨b,hx⟩⟩ | ⟨exit,_,_,hx⟩ <;> rw [hy] at hx <;>
          cases hx
    rw [hw]
    exact .quiet hn rfl rfl rfl rfl ⟨m.events,rfl,shift_byClient hm.shift⟩
  | enter =>
    obtain ⟨hs,hw⟩ := serverStep_enter he
    have hn := allocated_eq hs (fun _ hx => by cases hx)
    rw [hw]
    unfold callbacks
    dsimp only
    split
    · exact .quiet hn rfl rfl rfl rfl ⟨[_],rfl,by simp [ServerEvent.byClient]⟩
    · exact .quiet hn rfl rfl rfl rfl ⟨[],rfl,by simp⟩
  | finish =>
    obtain ⟨hs,hw⟩ := serverStep_finish he
    have hn := allocated_eq hs (fun _ hx => by cases hx)
    have hc := sameClients_finish s'.sched.toCore s.world
    rw [← hw] at hc
    exact .quiet hn hc.clients hc.nextThread hc.sockets hc.owner ⟨[],hc.log,by simp⟩
  | _ => exact (ha rfl).elim

end UnixShell.Server
