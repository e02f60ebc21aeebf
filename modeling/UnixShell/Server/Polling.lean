import UnixShell.Server.Rounds
import UnixShell.Scheduler.Preemption

/-! # Ticks between two polls

Between two polls of the preemption flag, or a poll and the end of the round, at most
one tick of a task begins. The proof counts a tick that may still begin before the next
poll as a credit of one.
-/
namespace UnixShell.Server
open Foundation Scheduler

/-- The executor polls the flag of the task, or returns from its round. -/
def ServerEvent.polls (t : TaskRef) : ServerEvent → Bool
  | .polled u => u = t
  | .roundEnded u => u = t
  | _ => false

def ticksOf (t : TaskRef) (log : List ServerEvent) : ℕ := log.count (.tick t)

def pollsOf (t : TaskRef) (log : List ServerEvent) : ℕ := log.countP (ServerEvent.polls t)

/-- From here no tick begins before the next poll. -/
def ExecutorPc.ticked : ExecutorPc → Bool
  | .start => false
  | .shell => false
  | .program => false
  | .loopTest => false
  | .returned _ => false
  | _ => true

def ExecutorPc.credit (pc : ExecutorPc) : ℕ := if pc.ticked then 0 else 1

def credit (t : TaskRef) (w : World) : ℕ :=
  match w.round with
  | none => 1
  | some r => if r.task = t then r.pc.credit else 1

variable {v : View} {r : Round} {i : Input} {pc pc' : ExecutorPc} {x : Option Action}
  {events : List ServerEvent} {t : TaskRef}

theorem credit_le (pc : ExecutorPc) : pc.credit ≤ 1 := by
  unfold ExecutorPc.credit
  split <;> omega

/-- A move that does not poll pays for its tick. -/
theorem shift_credit (h : Shift v r pc i pc' x events) (hp : pollsOf r.task events = 0) :
    ticksOf r.task events + pc'.credit ≤ pc.credit := by
  cases h with
  | drained hd => cases hd <;> exact le_rfl
  | piece connection _ =>
    split <;> simp [ticksOf,ExecutorPc.credit,ExecutorPc.ticked]
  | preempted _ => simp [pollsOf,ServerEvent.polls] at hp
  | again _ => simp [pollsOf,ServerEvent.polls] at hp
  | done => simp [pollsOf,ServerEvent.polls] at hp
  | _ => simp [ticksOf,ExecutorPc.credit,ExecutorPc.ticked]

theorem shift_ticks (h : Shift v r pc i pc' x events) (ht : r.task ≠ t) : ticksOf t events = 0 := by
  cases h <;> simp [ticksOf,ht]

theorem ticksOf_append (as bs : List ServerEvent) :
    ticksOf t (as ++ bs) = ticksOf t as + ticksOf t bs := List.count_append

theorem pollsOf_append (as bs : List ServerEvent) :
    pollsOf t (as ++ bs) = pollsOf t as + pollsOf t bs := List.countP_append

theorem ticks_byClient {new : List ServerEvent} (h : ∀ e ∈ new, e.byClient = true) :
    ticksOf t new = 0 := by
  apply List.count_eq_zero.mpr
  intro hm
  have hb := h _ hm
  cases hb

/-- One step of the server, whichever thread takes it. -/
theorem step_credit {s s' : State TaskLists} {a : ServerAction} (h : Consistent s)
    (he : serverStep s a = some s') :
    ∃ new, s'.world.log = new ++ s.world.log ∧
      (pollsOf t new = 0 → ticksOf t new + credit t s'.world ≤ credit t s.world) := by
  cases serverStep_shape h he with
  | outside ha hw hs =>
    obtain ⟨new,hlog,hnew⟩ := hw.log
    refine ⟨new,hlog,fun _ => ?_⟩
    rw [ticks_byClient hnew,credit,hw.round,credit]
    omega
  | @exec i r m hr hm hw hs =>
    refine ⟨m.events,by rw [hw]; rfl,fun hp => ?_⟩
    have hround : s'.world.round = some m.round := by rw [hw]; rfl
    simp only [credit,hr,hround,hm.task]
    by_cases ht : r.task = t
    · subst ht
      simpa using shift_credit hm.shift hp
    · rw [shift_ticks hm.shift ht]
      simp [ht]
  | idle hr hs hmain hw => exact ⟨[],by rw [hw]; rfl,fun _ => by rw [hw]; simp [ticksOf]⟩
  | @dispatch u quantum hr hs hu hmain hc hw =>
    refine ⟨[.invoked u],by rw [hw]; rfl,fun _ => ?_⟩
    have hle : credit t s'.world ≤ 1 := by
      rw [hw]
      simp only [credit,record,newRound]
      split
      · exact credit_le _
      · exact le_rfl
    simpa [ticksOf,credit,hr] using hle
  | @finish r exit hr hp hs hse hr' hw =>
    obtain ⟨new,hlog,hnew⟩ := hw.log
    refine ⟨new,hlog,fun _ => ?_⟩
    rw [ticks_byClient hnew]
    simp [credit,hr',hr,hp,ExecutorPc.credit,ExecutorPc.ticked]

theorem ticks_before_poll {s u : State TaskLists} (h : Consistent s)
    (hu : Reaches (Fires serverStep) s u) (t : TaskRef)
    (hp : pollsOf t u.world.log = pollsOf t s.world.log) :
    ticksOf t u.world.log ≤ ticksOf t s.world.log + 1 := by
  have hcredit : ∀ w, credit t w ≤ 1 := by
    intro w
    unfold credit
    split
    · exact le_rfl
    · split
      · exact credit_le _
      · exact le_rfl
  have hrun := hu.invariant
    (P := fun u => Consistent u ∧ pollsOf t s.world.log ≤ pollsOf t u.world.log ∧
      (pollsOf t u.world.log = pollsOf t s.world.log →
        ticksOf t u.world.log + credit t u.world ≤ ticksOf t s.world.log + 1))
    ?_ ⟨h,le_rfl,fun _ => Nat.add_le_add_left (hcredit _) _⟩
  · have hle := hrun.2.2 hp
    omega
  · rintro v a v' ⟨hc,hle,hv⟩ he
    obtain ⟨new,hlog,hnew⟩ := step_credit (t := t) hc he
    refine ⟨step_consistent hc he,?_,fun hq => ?_⟩
    · rw [hlog,pollsOf_append]
      omega
    · rw [hlog,pollsOf_append] at hq
      rw [hlog,ticksOf_append]
      have h1 := hnew (by omega)
      have h2 := hv (by omega)
      omega

/-- The guarantees of preemption: those of the scheduler for any executor, and with
`execute_program_task` the bound on the ticks that begin before the next poll or the end
of the round, counted from any moment (the one at which the flag is set included). -/
theorem shellPriorityAndPolling {s : System TaskLinks} {u v : State TaskLinks}
    (h : Reachable s) (hu : ServerReachable u) (hv : Reaches (Fires serverStep) u v) :
    ShellPriority s ∧ ∀ t, pollsOf t v.world.log = pollsOf t u.world.log →
      ticksOf t v.world.log ≤ ticksOf t u.world.log + 1 := by
  refine ⟨shellPriority h,fun t hp => ?_⟩
  obtain ⟨l,hl,hr⟩ := serverReachable_refines hu
  obtain ⟨as,hrun⟩ := hv
  obtain ⟨l',hl',hr'⟩ := serverRuns_refines hr hrun
  rw [hr.world,hr'.world] at hp ⊢
  exact ticks_before_poll (serverReachable_consistent hl) ⟨as,hl'⟩ t hp

def preemptedDemo : List ServerAction :=
  [.accept 4,.request 0 (.program "./demo 3".toList ["./demo".toList,"3".toList] 3),.enter,
   .exec .go,.exec (.started true),.accept 5,.request 1 (.shell "ls".toList)]

/-- A shell task arrives at the loop's head: one tick begins, then the flag is polled. -/
theorem shellPriorityAndPolling_preemptedDemo :
    ∃ u v : State TaskLinks, exec serverStep (serverInit TaskLinks) preemptedDemo = some u ∧
      exec serverStep u [.exec .go,.exec .go,.exec .readAgain,.exec .go,.exec .go] = some v ∧
      (v.world.round.map (·.pc) = some .pollPreempt ∧ ticksOf 0 v.world.log = 1) ∧
      ShellPriority u.sched ∧ ∀ t, pollsOf t v.world.log = pollsOf t u.world.log →
        ticksOf t v.world.log ≤ ticksOf t u.world.log + 1 := by
  obtain ⟨u,hu⟩ := Option.isSome_iff_exists.mp
    (show (exec serverStep (serverInit TaskLinks) preemptedDemo).isSome = true from rfl)
  obtain ⟨v,hv⟩ := Option.isSome_iff_exists.mp
    (show (exec serverStep u
      [.exec .go,.exec .go,.exec .readAgain,.exec .go,.exec .go]).isSome = true
      from by cases hu; rfl)
  have hreach : ServerReachable u := reaches_of_exec hu
  refine ⟨u,v,hu,hv,?_,shellPriorityAndPolling hreach.sched hreach (reaches_of_exec hv)⟩
  cases hu
  cases hv
  exact ⟨rfl,rfl⟩

end UnixShell.Server
