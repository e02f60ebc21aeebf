import UnixShell.Server.Clients

/-! # Nothing is done for a context that is done

Every exit of the executor marks its context at most once, and all but the failed drains
of a tick, a preemption or a quantum's end tell the scheduler the truth about it. Where
those three do not send a done task back to the queue, no task is executed, marked or
drained again after its context was marked.
-/
namespace UnixShell.Server
open Foundation Scheduler

/-- The scheduler does not send back a round that left through a failed drain with its
context done. -/
def settlesOnce (core : Core) (w : World) : ServerAction → Bool
  | .finish => w.round.all (fun r =>
      match r.pc with
      | .returned (.drainFailed site) => !(w.contexts r.context).done ||
          !decide (mayRequeue (core.tasks r.task) (exitResult (.drainFailed site)))
      | _ => true)
  | _ => true

/-- The executor works on the context: calls itself, marks it or writes a packet of it. -/
def ServerEvent.worksOn (k : ContextRef) : ServerEvent → Bool
  | .invoked t => t = k
  | .setDone k' => k' = k
  | .progress _ k' _ => k' = k
  | _ => false

/-- The marks that the context has and those still to come on the way out. -/
def MarksLeft (done : Bool) : ExecutorPc → Prop
  | .exiting exit ops =>
    (if done then 1 else 0) + ops.countP ExitOp.marks ≤ (exitOps exit).countP ExitOp.marks
  | .returned exit => (if done then 1 else 0) ≤ (exitOps exit).countP ExitOp.marks
  | _ => done = false

theorem exitOps_marks_le (exit : Exit) : (exitOps exit).countP ExitOp.marks ≤ 1 := by
  cases exit with
  | drainFailed site => cases site <;> decide
  | shellDone e output => exact le_rfl
  | _ => decide

section Moves
variable {v : View} {r : Round} {i : Input} {pc pc' : ExecutorPc} {x : Option Action}
  {events : List ServerEvent} {done : Bool} {k : ContextRef}

theorem marksLeft_exit (h : done = false) (exit : Exit) :
    MarksLeft done (.exiting exit (exitOps exit)) := by
  simp [MarksLeft,h]

theorem shift_marksLeft (h : Shift v r pc i pc' x events) (hm : MarksLeft done pc) :
    MarksLeft (done || events.any ServerEvent.isDone) pc' := by
  cases h with
  | noContext _ => exact marksLeft_exit ((Bool.or_false done).trans hm) _
  | shellNoLine _ _ _ => exact marksLeft_exit ((Bool.or_false done).trans hm) _
  | shellDone e output => exact marksLeft_exit ((Bool.or_false done).trans hm) _
  | shellNoOutput _ => exact marksLeft_exit ((Bool.or_false done).trans hm) .shellNoOutput
  | early _ => exact marksLeft_exit ((Bool.or_false done).trans hm) _
  | cancelled _ _ _ => exact marksLeft_exit ((Bool.or_false done).trans hm) _
  | drained hd =>
    rw [List.any_nil,Bool.or_false]
    cases hd with
    | tick => exact hm
    | _ => exact marksLeft_exit hm _
  | sendFailed => exact marksLeft_exit ((Bool.or_false done).trans hm) _
  | piece connection _ =>
    split <;> simpa [MarksLeft,ServerEvent.isDone] using hm
  | op ho =>
    simp only [MarksLeft,List.countP_cons,ho,Bool.false_eq_true,if_false,List.any_nil,
      Bool.or_false] at hm ⊢
    exact hm
  | opFailed =>
    simp only [MarksLeft,List.countP_cons,ExitOp.marks,if_true,List.any_nil,Bool.or_false] at hm ⊢
    omega
  | @mark exit op rest i ho _ =>
    have hle := exitOps_marks_le exit
    simp only [MarksLeft,List.countP_cons,ho,if_true,List.any_cons,ServerEvent.isDone,Bool.true_or,
      Bool.or_true] at hm ⊢
    omega
  | done =>
    simp only [MarksLeft,List.countP_nil,Nat.add_zero,List.any_cons,ServerEvent.isDone,List.any_nil,
      Bool.or_false] at hm ⊢
    exact hm
  | _ => simpa [MarksLeft,ServerEvent.isDone] using hm

/-- While the context is done the executor does nothing to it. -/
theorem shift_worksOn (h : Shift v r pc i pc' x events) (hm : MarksLeft done pc)
    {e : ServerEvent} (he : e ∈ events) (hw : e.worksOn k = true) :
    k = r.context ∧ done = false := by
  cases h with
  | piece connection _ =>
    obtain rfl := List.mem_singleton.mp he
    exact ⟨(of_decide_eq_true hw).symm,hm⟩
  | @mark exit op rest i ho _ =>
    obtain rfl := List.mem_singleton.mp he
    refine ⟨(of_decide_eq_true hw).symm,?_⟩
    have hle := exitOps_marks_le exit
    simp only [MarksLeft,List.countP_cons,ho,if_true] at hm
    cases done with
    | false => rfl
    | true => simp only [if_true] at hm; omega
  | tick _ _ _ => obtain rfl := List.mem_singleton.mp he; cases hw
  | sendFailed => obtain rfl := List.mem_singleton.mp he; cases hw
  | preempted _ => obtain rfl := List.mem_singleton.mp he; cases hw
  | again _ => obtain rfl := List.mem_singleton.mp he; cases hw
  | done => obtain rfl := List.mem_singleton.mp he; cases hw
  | _ => cases he

/-- A move has one event at most. -/
theorem shift_pairwise (h : Shift v r pc i pc' x events) (R : ServerEvent → ServerEvent → Prop) :
    events.Pairwise R := by
  cases h <;> first | exact List.Pairwise.nil | exact List.pairwise_singleton R _

end Moves

/-- The history of a context ends with its mark, as far as the executor is concerned.
The log stands newest first. -/
def SettledOnce (log : List ServerEvent) : Prop :=
  log.Pairwise (fun later earlier => ∀ k, earlier = .setDone k → later.worksOn k = false)

structure Settled (s : State TaskLists) : Prop where
  waiting : ∀ t ∈ s.sched.queue.waiting, (s.world.contexts t).done = false
  round : ∀ r, s.world.round = some r → MarksLeft (s.world.contexts r.context).done r.pc
  order : SettledOnce s.world.log

theorem settled_init : Settled (serverInit TaskLists) :=
  ⟨fun t ht => (by cases ht),fun r hr => (by cases hr),List.Pairwise.nil⟩

variable {s s' : State TaskLists} {a : ServerAction} {t : TaskRef}

theorem settledOnce_append {new log : List ServerEvent} (h : SettledOnce log)
    (hnew : new.Pairwise (fun later earlier => ∀ k, earlier = .setDone k → later.worksOn k = false))
    (hw : ∀ e ∈ new, ∀ k, .setDone k ∈ log → e.worksOn k = false) : SettledOnce (new ++ log) := by
  refine List.pairwise_append.mpr ⟨hnew,h,fun e he e' he' k hk => ?_⟩
  subst hk
  exact hw e he k he'

theorem settledOnce_byClient {new log : List ServerEvent} (h : SettledOnce log)
    (hb : ∀ e ∈ new, e.byClient = true) : SettledOnce (new ++ log) := by
  have hw : ∀ e ∈ new, ∀ k, e.worksOn k = false := by
    intro e he k
    have he' := hb e he
    cases e <;> first | rfl | cases he'
  exact settledOnce_append h (List.pairwise_of_forall_mem_list fun e he _ _ k _ => hw e he k)
    (fun e he k _ => hw e he k)

/-- A round that is sent back has not marked its context. -/
theorem marksLeft_returned {exit : Exit} {task : Task} {done : Bool}
    (h : MarksLeft done (.returned exit)) (hr : mayRequeue task (exitResult exit))
    (hdrain : ∀ site, exit = .drainFailed site → done = false) : done = false := by
  cases hd : done with
  | false => rfl
  | true =>
    rw [hd] at h
    have hres := hr.1
    cases exit with
    | drainFailed site => rw [hdrain site rfl] at hd; cases hd
    | preempted => exact absurd h (by simp [MarksLeft,exitOps,ExitOp.marks])
    | quantumEnd => exact absurd h (by simp [MarksLeft,exitOps,ExitOp.marks])
    | _ => cases hres

theorem step_waitingDone (h : Settled s) (hc : Consistent s) (hm : Marked s)
    (hok : settlesOnce s.sched.toCore s.world a = true) (hshape : RoundStep s s' a)
    (ht : t ∈ s'.sched.queue.waiting) : (s'.world.contexts t).done = false := by
  rcases hshape.waiting hc ht with hw | ⟨ha,rfl⟩ | ⟨r,exit,rfl,hr,rfl,hp,hreq⟩
  · obtain ⟨place,hpl⟩ := hc.sched.placed
    rcases hshape.done (hpl.waiting_lt hw) with hd | ⟨i,r,_,hr,hctx⟩
    · rw [hd]
      exact h.waiting t hw
    · rw [(hc.running r hr).2] at hctx
      subst hctx
      exact (hc.not_waiting hr hw).elim
  · cases hshape with
    | outside _ hw _ =>
      by_contra hd
      have hlog := (hm.done_iff _).mp (hw.fresh (by simpa using hd))
      exact absurd (hm.lt _ hlog) (lt_irrefl _)
    | _ => cases ha
  · rcases hshape.done (hc.task_lt hr) with hd | ⟨i,_,hx,_⟩
    · have hleft := h.round r hr
      rw [hp,(hc.running r hr).2] at hleft
      rw [hd]
      apply marksLeft_returned hleft hreq
      intro site he
      subst he
      simp only [settlesOnce,hr,Option.all_some,hp,(hc.running r hr).2,Bool.or_eq_true,
        Bool.not_eq_true',decide_eq_false_iff_not] at hok
      exact hok.resolve_right (fun hn => hn hreq)
    · cases hx

theorem step_marksLeft (h : Settled s) (hc : Consistent s) (hshape : RoundStep s s' a) :
    ∀ r, s'.world.round = some r → MarksLeft (s'.world.contexts r.context).done r.pc := by
  intro r hr
  cases hshape with
  | outside _ hw _ =>
    rw [hw.round] at hr
    have hlt := hc.task_lt hr
    rw [← (hc.running r hr).2] at hlt
    rw [(hw.contexts _ hlt.ne).done]
    exact h.round r hr
  | @exec i r₀ m hr₀ hm hw hs =>
    obtain rfl : m.round = r := by
      rw [hw] at hr
      exact Option.some.inj hr
    have hd : (s'.world.contexts m.round.context).done =
        ((s.world.contexts r₀.context).done || m.events.any ServerEvent.isDone) := by
      rw [hw,hm.contexts,hm.context,Function.update_self]
      exact hm.done
    rw [hd]
    exact shift_marksLeft hm.shift (h.round r₀ hr₀)
  | idle hr₀ _ _ hw =>
    rw [hw,hr₀] at hr
    cases hr
  | @dispatch t quantum _ _ ht _ _ hw =>
    rw [hw] at hr ⊢
    obtain rfl := Option.some.inj hr
    exact h.waiting t ht
  | finish _ _ _ _ hr' _ =>
    rw [hr'] at hr
    cases hr

theorem step_order (h : Settled s) (hm : Marked s) (hshape : RoundStep s s' a) :
    SettledOnce s'.world.log := by
  obtain ⟨new,hlog,hnew⟩ := hshape.newEvents
  rw [hlog]
  cases hnew with
  | client hnew => exact settledOnce_byClient h.order hnew
  | @invoked t ht =>
    refine settledOnce_append h.order (List.pairwise_singleton _ _) (fun e he k hk => ?_)
    obtain rfl := List.mem_singleton.mp he
    apply decide_eq_false
    intro htk
    subst htk
    have hd := h.waiting t ht
    rw [(hm.done_iff t).mpr hk] at hd
    cases hd
  | @moved i r m hr hmv =>
    refine settledOnce_append h.order (shift_pairwise hmv.shift _) (fun e he k hk => ?_)
    by_contra hwork
    obtain ⟨rfl,hd⟩ := shift_worksOn hmv.shift (h.round r hr) he (by simpa using hwork)
    rw [(hm.done_iff _).mpr hk] at hd
    cases hd

theorem step_settled (h : Settled s) (hc : Consistent s) (hm : Marked s)
    (hok : settlesOnce s.sched.toCore s.world a = true) (hshape : RoundStep s s' a) : Settled s' :=
  ⟨fun _ ht => step_waitingDone h hc hm hok hshape ht,step_marksLeft h hc hshape,
    step_order h hm hshape⟩

end UnixShell.Server
