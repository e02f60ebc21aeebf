import UnixShell.Server.Threads

/-! # Rounds and the scheduler thread

The scheduler thread executes a task exactly while the world holds a round of it, and
every task carries the context of its own name. On such states the steps of the server
fall into five shapes: other threads, the executor, an idle pass, a dispatch, and the
end of a round.
-/
namespace UnixShell.Server
open Foundation Scheduler

/-- Where the scheduler thread stands while the round is there. -/
def mainOf (r : Round) : MainThread :=
  match r.pc with
  | .returned exit => .returned r.task r.quantum (exitResult exit)
  | _ => .executing r.task r.quantum

theorem mainOf_task (r : Round) : (mainOf r).task = some r.task := by
  unfold mainOf
  split <;> rfl

theorem mainOf_returned {r : Round} {t : TaskRef} {quantum : ℤ} {result : TaskRunResult}
    (h : mainOf r = .returned t quantum result) :
    ∃ exit, r.pc = .returned exit ∧ r.task = t ∧ r.quantum = quantum ∧
      exitResult exit = result := by
  unfold mainOf at h
  split at h
  · rename_i exit hp
    cases h
    exact ⟨exit,hp,rfl,rfl,rfl⟩
  · cases h

def ExecutorPc.inside : ExecutorPc → Bool
  | .returned _ => false
  | _ => true

theorem mainOf_executing {r : Round} (h : r.pc.inside = true) :
    mainOf r = .executing r.task r.quantum := by
  unfold mainOf
  split
  · rename_i hp
    rw [hp] at h
    cases h
  · rfl

/-- A move of control stays inside the executor, or is the return from it. -/
theorem shift_main {v : View} {r : Round} {i : Input} {pc pc' : ExecutorPc} {x : Option Action}
    {events : List ServerEvent} (h : Shift v r pc i pc' x events) :
    (pc.inside = true ∧ pc'.inside = true ∧ (x = none ∨ ∃ b, x = some (.setBurst b))) ∨
    ∃ exit, pc = .exiting exit [] ∧ pc' = .returned exit ∧
      x = some (.result (exitResult exit)) := by
  cases h with
  | done => exact Or.inr ⟨_,rfl,rfl,rfl⟩
  | decrement _ => exact Or.inl ⟨rfl,rfl,Or.inr ⟨_,rfl⟩⟩
  | reaped => exact Or.inl ⟨rfl,rfl,Or.inr ⟨_,rfl⟩⟩
  | drained hd =>
    refine Or.inl ⟨rfl,?_,Or.inl rfl⟩
    cases hd <;> rfl
  | piece connection _ =>
    refine Or.inl ⟨rfl,?_,Or.inl rfl⟩
    split <;> rfl
  | _ => exact Or.inl ⟨rfl,rfl,Or.inl rfl⟩

theorem submit_userData {Q : Type} [TaskQueue Q] {s s' : System Q} {request : TaskRequest}
    (he : Scheduler.step s (.submit request) = some s') :
    (s'.tasks s.allocated).userData = request.userData := by
  obtain rfl := Option.some.inj he
  rw [schedulerSubmitTask_tasks,Function.update_self]
  dsimp only
  split <;> simp [schedulerCreateTask]

structure Consistent (s : State TaskLists) : Prop where
  sched : Invariant s.sched
  named : ∀ t < s.sched.allocated, (s.sched.tasks t).userData = some t
  running : ∀ r, s.world.round = some r → s.sched.main = mainOf r ∧ r.context = r.task
  idle : s.world.round = none → s.sched.main.task = none

theorem consistent_init : Consistent (serverInit TaskLists) :=
  ⟨invariant_init _ _,fun t ht => absurd ht (Nat.not_lt_zero t),fun r hr => (by cases hr),
    fun _ => rfl⟩

namespace Consistent
variable {s : State TaskLists} {r : Round}

theorem current (h : Consistent s) (hr : s.world.round = some r) :
    s.sched.currentTask = some r.task := by
  rw [← h.sched.counted.main_task,(h.running r hr).1,mainOf_task]

theorem task_lt (h : Consistent s) (hr : s.world.round = some r) :
    r.task < s.sched.allocated := by
  obtain ⟨place,hp⟩ := h.sched.placed
  exact hp.current_lt (h.current hr)

theorem round_none (h : Consistent s) (hm : s.sched.main.task = none) : s.world.round = none := by
  cases hr : s.world.round with
  | none => rfl
  | some r =>
    rw [(h.running r hr).1,mainOf_task] at hm
    cases hm

theorem not_waiting (h : Consistent s) (hr : s.world.round = some r) :
    r.task ∉ s.sched.queue.waiting := by
  obtain ⟨place,hp⟩ := h.sched.placed
  exact hp.current_not_waiting (h.current hr)

/-- The executor sees a request to cancel its task through either of its two tests. -/
theorem view_cancel (h : Consistent s) (hr : s.world.round = some r) :
    ((view s.sched.toCore s.world r).shouldCancel ||
      (view s.sched.toCore s.world r).task.cancelRequested) =
      (s.sched.tasks r.task).cancelRequested := by
  simp [view,schedulerTaskShouldCancel,h.current hr]

end Consistent

/-- The steps of the server, as the round sees them. -/
inductive RoundStep (s s' : State TaskLists) : ServerAction → Prop
  | outside {a : ServerAction} : a.outside = true →
      Outside s.sched.allocated s.world s'.world →
      (s'.sched = s.sched ∨ ∃ y, y.outside = true ∧
        (∀ request, y = .submit request → request.userData = some s.sched.allocated) ∧
        Scheduler.step s.sched y = some s'.sched) →
      RoundStep s s' a
  | exec {i : Input} {r : Round} {m : Move} : s.world.round = some r →
      Moved (view s.sched.toCore s.world r) r i m → s'.world = applyMove s.world m →
      (m.action = none ∧ s'.sched = s.sched ∨
        ∃ y, m.action = some y ∧ Scheduler.step s.sched y = some s'.sched) →
      RoundStep s s' (.exec i)
  | idle : s.world.round = none → Scheduler.step s.sched .enter = some s'.sched →
      s'.sched.main.task = none → s'.world = s.world → RoundStep s s' .enter
  | dispatch {t : TaskRef} {quantum : ℤ} : s.world.round = none →
      Scheduler.step s.sched .enter = some s'.sched → t ∈ s.sched.queue.waiting →
      s'.sched.main = .executing t quantum → s'.sched.currentTask = some t →
      s'.world = record { s.world with round := some (newRound t t quantum) } (.invoked t) →
      RoundStep s s' .enter
  | finish {r : Round} {exit : Exit} : s.world.round = some r → r.pc = .returned exit →
      Scheduler.step s.sched .finish = some s'.sched →
      s'.sched = schedulerMainFinish s.sched r.task r.quantum (exitResult exit) →
      s'.world.round = none →
      Outside s.sched.allocated { s.world with round := none } s'.world →
      RoundStep s s' .finish

variable {s s' : State TaskLists} {a : ServerAction}

theorem serverStep_shape (h : Consistent s) (he : serverStep s a = some s') :
    RoundStep s s' a := by
  by_cases ha : a.outside = true
  · obtain ⟨hw,hs⟩ := serverStep_outside ha he
    exact .outside ha hw hs
  cases a with
  | exec i =>
    obtain ⟨r,m,hr,hm,hw,hs⟩ := serverStep_exec he
    exact .exec hr hm hw hs
  | enter =>
    obtain ⟨hs,hw⟩ := serverStep_enter he
    obtain ⟨hm,_,hse⟩ := step_enter hs
    have hr := h.round_none hm
    rcases enter_cases s.sched with ⟨_,_,hc⟩ | ⟨_,hc⟩ | ⟨_,_,q,_,hc⟩ | ⟨_,_,t,q,hd,hc⟩ <;>
      rw [← hse] at hc
    · exact .idle hr hs (by rw [hc]; rfl) (by rw [hw,hc]; rfl)
    · exact .idle hr hs (by rw [hc]; rfl) (by rw [hw,hc]; rfl)
    · exact .idle hr hs (by rw [hc]; rfl) (by rw [hw,hc]; rfl)
    · have ht := nextTask_mem (dequeue_some hd).1
      have hmain : s'.sched.main = .executing t (quantumFor s.sched (s.sched.tasks t)) := by
        rw [hc]; rfl
      obtain ⟨place,hp⟩ := h.sched.placed
      have hk : (s'.sched.tasks t).userData = some t := by
        rw [(step_continues hs (hp.waiting_lt ht)).userData]
        exact h.named t (hp.waiting_lt ht)
      refine .dispatch hr hs ht hmain (by rw [hc]; rfl) ?_
      rw [hw]
      simp only [callbacks,hmain,startRound,hk,Option.getD_some]
  | finish =>
    obtain ⟨hs,hw⟩ := serverStep_finish he
    obtain ⟨t,quantum,result,hm,hse⟩ := step_finish hs
    cases hr : s.world.round with
    | none =>
      have hi := h.idle hr
      rw [hm] at hi
      cases hi
    | some r =>
      obtain ⟨exit,hp,rfl,rfl,rfl⟩ := mainOf_returned ((h.running r hr).1.symm.trans hm)
      have ho := finish_outside s.sched.allocated s'.sched.toCore s.world
      rw [← hw] at ho
      exact .finish hr hp hs hse ho.1 ho.2
  | _ => exact (ha rfl).elim

/-- Only the end of a round is one for the scheduler, and only others submit. -/
theorem RoundStep.sched (h : RoundStep s s' a) : s'.sched = s.sched ∨
    ∃ y, Scheduler.step s.sched y = some s'.sched ∧ (y = .finish → a = .finish) ∧
      (∀ request, y = .submit request → a.outside = true) := by
  cases h with
  | outside ha _ hs =>
    rcases hs with hs | ⟨y,hy,_,hs⟩
    · exact Or.inl hs
    · exact Or.inr ⟨y,hs,fun hf => (by rw [hf] at hy; cases hy),fun _ _ => ha⟩
  | @exec i r m _ hm _ hs =>
    rcases hs with ⟨_,hs⟩ | ⟨y,hy,hs⟩
    · exact Or.inl hs
    · have hno : y ≠ .finish ∧ ∀ request, y ≠ .submit request := by
        rcases shift_main hm.shift with ⟨_,_,hx | ⟨b,hx⟩⟩ | ⟨exit,_,_,hx⟩ <;> rw [hy] at hx <;>
          cases hx <;> simp
      exact Or.inr ⟨y,hs,fun hf => (hno.1 hf).elim,fun request hf => (hno.2 request hf).elim⟩
  | idle _ hs _ _ => exact Or.inr ⟨_,hs,fun hf => (by cases hf),fun _ hf => (by cases hf)⟩
  | dispatch _ hs _ _ _ _ => exact Or.inr ⟨_,hs,fun hf => (by cases hf),fun _ hf => (by cases hf)⟩
  | finish _ _ hs _ _ _ => exact Or.inr ⟨_,hs,fun _ => rfl,fun _ hf => (by cases hf)⟩

theorem RoundStep.invariant (h : RoundStep s s' a) (hc : Consistent s) : Invariant s'.sched := by
  rcases h.sched with hs | ⟨y,hs,_⟩
  · rw [hs]
    exact hc.sched
  · exact step_invariant hc.sched hs

/-- A new record names its own context, and an old one keeps its name. -/
theorem RoundStep.named (h : RoundStep s s' a) (hc : Consistent s) :
    ∀ t < s'.sched.allocated, (s'.sched.tasks t).userData = some t := by
  rcases h.sched with hs | ⟨y,hs,_,hsub⟩
  · rw [hs]
    exact hc.named
  intro t ht
  by_cases hlt : t < s.sched.allocated
  · exact (step_continues hs hlt).userData.trans (hc.named t hlt)
  rcases step_allocated hs with ⟨hn,_⟩ | ⟨⟨request,rfl⟩,hn,_⟩
  · exact (hlt (hn ▸ ht)).elim
  obtain rfl : t = s.sched.allocated := by
    rw [hn] at ht
    exact Nat.le_antisymm (Nat.le_of_lt_succ ht) (Nat.le_of_not_lt hlt)
  have ha := hsub request rfl
  cases h with
  | outside _ _ hs' =>
    rcases hs' with hs' | ⟨y,_,hname,hs'⟩
    · rw [hs'] at hn
      omega
    · rcases step_allocated hs' with ⟨hn',_⟩ | ⟨⟨request',rfl⟩,_⟩
      · omega
      · exact (submit_userData hs').trans (hname request' rfl)
  | _ => cases ha

/-- The scheduler thread follows the executor: it stores a burst and goes on, or it has the
result that the executor returns. -/
theorem Moved.main {r : Round} {i : Input} {m : Move}
    (hm : Moved (view s.sched.toCore s.world r) r i m) (hmain : s.sched.main = mainOf r)
    (hs : m.action = none ∧ s'.sched = s.sched ∨
      ∃ y, m.action = some y ∧ Scheduler.step s.sched y = some s'.sched) :
    s'.sched.main = mainOf m.round := by
  rcases shift_main hm.shift with ⟨hp,hp',hx⟩ | ⟨exit,hp,hp',hx⟩
  · rw [mainOf_executing hp',hm.task,hm.quantum,← mainOf_executing hp,← hmain]
    rcases hs with ⟨_,hs⟩ | ⟨y,hy,hs⟩
    · rw [hs]
    · rcases hx with hx | ⟨b,hx⟩ <;> rw [hy] at hx
      · cases hx
      · obtain rfl := Option.some.inj hx
        obtain ⟨t,quantum,_,hse⟩ := step_setBurst hs
        rw [hse]
        rfl
  · have hmain' : s.sched.main = .executing r.task r.quantum := by
      rw [hmain]
      exact mainOf_executing (by rw [hp]; rfl)
    rcases hs with ⟨hn,_⟩ | ⟨y,hy,hs⟩
    · rw [hn] at hx; cases hx
    · rw [hy] at hx
      obtain rfl := Option.some.inj hx
      obtain ⟨t,quantum,ht,hse⟩ := step_result hs
      rw [hmain'] at ht
      cases ht
      rw [hse]
      simp only [mainOf,hp',hm.task,hm.quantum]

theorem RoundStep.main (hr : RoundStep s s' a) (h : Consistent s) :
    (∀ r, s'.world.round = some r → s'.sched.main = mainOf r ∧ r.context = r.task) ∧
    (s'.world.round = none → s'.sched.main.task = none) := by
  cases hr with
  | outside ha hw hs =>
    rcases hs with hs | ⟨y,hy,_,hs⟩
    · exact ⟨fun r hr => hs ▸ h.running r (hw.round ▸ hr),fun hr => hs ▸ h.idle (hw.round ▸ hr)⟩
    · obtain ⟨hmain,_⟩ := step_outside hy hs
      refine ⟨fun r hr => ?_,fun hr => ?_⟩
      · obtain ⟨hm,hc⟩ := h.running r (hw.round ▸ hr)
        refine ⟨?_,hc⟩
        rcases hmain with hmain | hmain
        · rw [hmain,hm]
        · rw [hmain,MainThread.signal_of_task (by rw [hm,mainOf_task]),hm]
      · have hi := h.idle (hw.round ▸ hr)
        rcases hmain with hmain | hmain
        · rw [hmain,hi]
        · rw [hmain,MainThread.signal_task,hi]
  | @exec i r m hr hm hw hs =>
    obtain ⟨hmain,hc⟩ := h.running r hr
    have hround : s'.world.round = some m.round := by rw [hw]; rfl
    refine ⟨fun r' hr' => ?_,fun hn => ?_⟩
    · obtain rfl : m.round = r' := Option.some.inj (hround.symm.trans hr')
      exact ⟨hm.main hmain hs,by rw [hm.context,hm.task,hc]⟩
    · rw [hround] at hn
      cases hn
  | idle hr hs hmain hw =>
    refine ⟨fun r hr' => ?_,fun _ => hmain⟩
    rw [hw,hr] at hr'
    cases hr'
  | dispatch hr hs ht hmain hc hw =>
    refine ⟨fun r hr' => ?_,fun hr' => ?_⟩
    · rw [hw] at hr'
      obtain rfl := Option.some.inj hr'
      exact ⟨hmain,rfl⟩
    · rw [hw] at hr'
      cases hr'
  | finish hr hp hs hse hr' hw =>
    refine ⟨fun r hr'' => ?_,fun _ => ?_⟩
    · rw [hr'] at hr''
      cases hr''
    · rw [hse]
      rcases finish_cases s.sched _ _ _ with ⟨_,hc⟩ | ⟨_,_,_,hc,_⟩ <;> rw [hc] <;> rfl

theorem step_consistent (h : Consistent s) (he : serverStep s a = some s') : Consistent s' :=
  have hr := serverStep_shape h he
  ⟨hr.invariant h,hr.named h,(hr.main h).1,(hr.main h).2⟩

theorem serverReachable_consistent (h : ServerReachable s) : Consistent s :=
  h.invariant (fun _ _ _ hc he => step_consistent hc he) consistent_init

/-- The events of a step: those of a client thread, a dispatch, or those of a move. -/
inductive NewEvents (s : State TaskLists) : List ServerEvent → Prop
  | client {new : List ServerEvent} : (∀ e ∈ new, e.byClient = true) → NewEvents s new
  | invoked {t : TaskRef} : t ∈ s.sched.queue.waiting → NewEvents s [.invoked t]
  | moved {i : Input} {r : Round} {m : Move} : s.world.round = some r →
      Moved (view s.sched.toCore s.world r) r i m → NewEvents s m.events

theorem RoundStep.newEvents (h : RoundStep s s' a) :
    ∃ new, s'.world.log = new ++ s.world.log ∧ NewEvents s new := by
  have hnone : NewEvents s [] := .client (by simp)
  cases h with
  | outside _ hw _ =>
    obtain ⟨new,hlog,hnew⟩ := hw.log
    exact ⟨new,hlog,.client hnew⟩
  | @exec i r m hr hm hw _ => exact ⟨m.events,by rw [hw]; rfl,.moved hr hm⟩
  | idle _ _ _ hw => exact ⟨[],by rw [hw]; rfl,hnone⟩
  | dispatch _ _ ht _ _ hw => exact ⟨[_],by rw [hw]; rfl,.invoked ht⟩
  | finish _ _ _ _ _ hw =>
    obtain ⟨new,hlog,hnew⟩ := hw.log
    exact ⟨new,hlog,.client hnew⟩

/-- What waits has waited before, is new, or is sent back by the end of its round. -/
theorem RoundStep.waiting (h : RoundStep s s' a) (hc : Consistent s) {t : TaskRef}
    (ht : t ∈ s'.sched.queue.waiting) : t ∈ s.sched.queue.waiting ∨
      (a.outside = true ∧ t = s.sched.allocated) ∨
      ∃ r exit, a = .finish ∧ s.world.round = some r ∧ r.task = t ∧ r.pc = .returned exit ∧
        mayRequeue (s.sched.tasks t) (exitResult exit) := by
  rcases h.sched with hs | ⟨y,hs,hfin,hsub⟩
  · rw [hs] at ht
    exact Or.inl ht
  · by_cases hlt : t < s.sched.allocated
    · rcases step_waiting hs hlt with ⟨hw,_⟩ | ⟨hy,quantum,result,hm,hr⟩
      · exact Or.inl (hw ht)
      · cases hround : s.world.round with
        | none =>
          have hi := hc.idle hround
          rw [hm] at hi
          cases hi
        | some r =>
          obtain ⟨exit,hp,ht,_,rfl⟩ := mainOf_returned ((hc.running r hround).1.symm.trans hm)
          exact Or.inr (Or.inr ⟨r,exit,hfin hy,rfl,ht,hp,hr⟩)
    · obtain ⟨place,hp⟩ := (step_invariant hc.sched hs).placed
      have hlt' := hp.waiting_lt ht
      rcases step_allocated hs with ⟨hn,_⟩ | ⟨⟨request,hy⟩,hn,_⟩
      · exact (hlt (hn ▸ hlt')).elim
      · rw [hn] at hlt'
        exact Or.inr (Or.inl ⟨hsub request hy,
          Nat.le_antisymm (Nat.le_of_lt_succ hlt') (Nat.le_of_not_lt hlt)⟩)

theorem RoundStep.allocated (h : RoundStep s s' a) : s.sched.allocated ≤ s'.sched.allocated := by
  rcases h.sched with hs | ⟨y,hs,_,_⟩
  · rw [hs]
  · exact allocated_le hs

/-- Unless the executor stores a burst, its moves leave the records alone. -/
theorem Moved.tasks {r : Round} {i : Input} {m : Move}
    (hm : Moved (view s.sched.toCore s.world r) r i m)
    (hs : m.action = none ∧ s'.sched = s.sched ∨
      ∃ y, m.action = some y ∧ Scheduler.step s.sched y = some s'.sched)
    (hb : ∀ b, m.action ≠ some (.setBurst b)) : s'.sched.tasks = s.sched.tasks := by
  rcases hs with ⟨_,hs⟩ | ⟨y,hy,hs⟩
  · rw [hs]
  · rcases shift_main hm.shift with ⟨_,_,hx | ⟨b,hx⟩⟩ | ⟨exit,_,_,hx⟩
    · rw [hy] at hx; cases hx
    · exact (hb b hx).elim
    · rw [hy] at hx
      cases hx
      obtain ⟨t,quantum,_,hse⟩ := step_result hs
      rw [hse]

theorem Moved.contexts {w : World} {v : View} {r : Round} {i : Input} {m : Move}
    (hm : Moved v r i m) :
    (applyMove w m).contexts = Function.update w.contexts r.context m.context :=
  applyMove_contexts hm.context

/-- Only the executor marks an old context, and only that of its round. -/
theorem RoundStep.done (h : RoundStep s s' a) {k : ContextRef} (hk : k < s.sched.allocated) :
    (s'.world.contexts k).done = (s.world.contexts k).done ∨
      ∃ i r, a = .exec i ∧ s.world.round = some r ∧ r.context = k := by
  cases h with
  | outside _ hw _ => exact Or.inl (hw.contexts k hk.ne).done
  | @exec i r m hr hm hw hs =>
    by_cases hkr : k = r.context
    · exact Or.inr ⟨i,r,rfl,hr,hkr.symm⟩
    · rw [hw,hm.contexts,Function.update_of_ne hkr]
      exact Or.inl rfl
  | idle _ _ _ hw => rw [hw]; exact Or.inl rfl
  | dispatch _ _ _ _ _ hw => rw [hw]; exact Or.inl rfl
  | finish _ _ _ _ _ hw => exact Or.inl (hw.contexts k hk.ne).done

/-- Being done and the call of `set_done` are one thing, for old contexts and for those
still to come. -/
structure Marked (s : State TaskLists) : Prop where
  done_iff : ∀ k, (s.world.contexts k).done = true ↔ .setDone k ∈ s.world.log
  lt : ∀ k, .setDone k ∈ s.world.log → k < s.sched.allocated

theorem marked_init : Marked (serverInit TaskLists) :=
  ⟨fun _ => ⟨fun h => (by cases h),fun h => (by cases h)⟩,fun _ h => (by cases h)⟩

theorem setDone_byClient {new : List ServerEvent} (h : ∀ e ∈ new, e.byClient = true)
    (k : ContextRef) : .setDone k ∉ new := fun hm => by
  have hb := h _ hm
  cases hb

theorem Marked.outside {w' : World} {n : ℕ} (h : Marked s)
    (hw : Outside s.sched.allocated s.world w') (hn : s.sched.allocated ≤ n) :
    (∀ k, (w'.contexts k).done = true ↔ .setDone k ∈ w'.log) ∧
      ∀ k, .setDone k ∈ w'.log → k < n := by
  obtain ⟨new,hlog,hnew⟩ := hw.log
  have hmem : ∀ k, .setDone k ∈ w'.log ↔ .setDone k ∈ s.world.log := by
    intro k
    rw [hlog,List.mem_append]
    exact or_iff_right (setDone_byClient hnew k)
  refine ⟨fun k => ?_,fun k hk => (h.lt k ((hmem k).mp hk)).trans_le hn⟩
  rw [hmem,← h.done_iff]
  by_cases hk : k = s.sched.allocated
  · subst hk
    refine ⟨hw.fresh,fun hd => ?_⟩
    exact absurd (h.lt _ ((h.done_iff _).mp hd)) (lt_irrefl _)
  · rw [(hw.contexts k hk).done]

theorem shift_setDone {v : View} {r : Round} {i : Input} {pc pc' : ExecutorPc} {x : Option Action}
    {events : List ServerEvent} (h : Shift v r pc i pc' x events) {k : ContextRef}
    (hk : .setDone k ∈ events) : k = r.context := by
  cases h <;> simp at hk
  exact hk

theorem shift_isDone {v : View} {r : Round} {i : Input} {pc pc' : ExecutorPc} {x : Option Action}
    {events : List ServerEvent} (h : Shift v r pc i pc' x events) :
    events.any ServerEvent.isDone = true ↔ .setDone r.context ∈ events := by
  cases h <;> simp [ServerEvent.isDone]

theorem step_marked (h : Marked s) (hc : Consistent s) (he : serverStep s a = some s') :
    Marked s' := by
  have hshape := serverStep_shape hc he
  have hle := hshape.allocated
  cases hshape with
  | outside ha hw hs => exact ⟨(h.outside hw hle).1,(h.outside hw hle).2⟩
  | @exec i r m hr hm hw hs =>
    have hlog : s'.world.log = m.events ++ s.world.log := by rw [hw]; rfl
    have hctx : s'.world.contexts = Function.update s.world.contexts r.context m.context := by
      rw [hw,hm.contexts]
    refine ⟨fun k => ?_,fun k hk => ?_⟩
    · rw [hlog,hctx,List.mem_append]
      by_cases hk : k = r.context
      · subst hk
        rw [Function.update_self,hm.done,Bool.or_eq_true,shift_isDone hm.shift,← h.done_iff,or_comm]
        rfl
      · rw [Function.update_of_ne hk,h.done_iff]
        exact (or_iff_right (fun hn => hk (shift_setDone hm.shift hn))).symm
    · rw [hlog,List.mem_append] at hk
      rcases hk with hk | hk
      · rw [shift_setDone hm.shift hk,(hc.running r hr).2]
        exact (hc.task_lt hr).trans_le hle
      · exact (h.lt k hk).trans_le hle
  | idle hr hs hmain hw =>
    exact ⟨by rw [hw]; exact h.done_iff,fun k hk => (h.lt k (hw ▸ hk)).trans_le hle⟩
  | dispatch hr hs ht hmain hcur hw =>
    refine ⟨fun k => ?_,fun k hk => ?_⟩
    · rw [hw]
      simpa [record] using h.done_iff k
    · rw [hw] at hk
      exact (h.lt k (by simpa [record] using hk)).trans_le hle
  | finish hr hp hs hse hr' hw =>
    have hidle : Marked { s with world := { s.world with round := none } } := ⟨h.done_iff,h.lt⟩
    exact ⟨(hidle.outside hw hle).1,(hidle.outside hw hle).2⟩

/-- A context stays done. -/
theorem Marked.mono (h : Marked s) (h' : Marked s') (hs : RoundStep s s' a) (k : ContextRef)
    (hd : (s.world.contexts k).done = true) : (s'.world.contexts k).done = true := by
  obtain ⟨new,hlog,_⟩ := hs.newEvents
  rw [h'.done_iff,hlog]
  exact List.mem_append_right new ((h.done_iff k).mp hd)

theorem serverReachable_marked (h : ServerReachable s) : Marked s := by
  have hrun := h.invariant (P := fun s => Consistent s ∧ Marked s)
    (fun _ _ _ ⟨hc,hm⟩ he => ⟨step_consistent hc he,step_marked hm hc he⟩)
    ⟨consistent_init,marked_init⟩
  exact hrun.2

end UnixShell.Server
