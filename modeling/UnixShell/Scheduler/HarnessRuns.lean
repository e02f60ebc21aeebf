import Mathlib.Algebra.BigOperators.Group.List.Basic
import Mathlib.Algebra.Ring.Nat
import UnixShell.Scheduler.Harness

/-! # The scheduler's test program returns

Each tick takes one off a burst and each round that is sent back has had a tick, so the
bursts pay for all steps of the scheduler thread; the requests still to be made pay for
their tasks. The only step that changes nothing is a poll, or a wakeup, in vain.
-/
namespace UnixShell.Scheduler.Harness
open Foundation TaskQueue

section Ranks

def taskRank (task : Task) : ℕ :=
  match task.type with
  | .shell => 10
  | .program => 10 * task.remainingBurst.toNat

def requestRank (policy : PolicyConfig) (r : TaskRequest) : ℕ :=
  12 + match r.type with
    | .shell => 10
    | .program => 10 * (burstOf policy r).toNat

def fakeRank (task : Task) (fake : FakePc) : ℕ :=
  match task.type, fake with
  | .shell, _ => 10
  | .program, .entry => 10 * task.remainingBurst.toNat
  | .program, .loop 0 => 10 * task.remainingBurst.toNat - 1
  | .program, .loop (_ + 1) => 10 * task.remainingBurst.toNat + 6
  | .program, .tick _ => 10 * task.remainingBurst.toNat - 2
  | .program, .after _ => 10 * task.remainingBurst.toNat + 7

def threadRank (c : Core) (fake : FakePc) : ℕ :=
  match c.main with
  | .top | .blocked true => 1
  | .blocked false | .exited => 0
  | .executing t _ => fakeRank (c.tasks t) fake
  | .returned t _ r => if mayRequeue (c.tasks t) r then taskRank (c.tasks t) + 5 else 5

def mainRank (policy : PolicyConfig) : MainPc → ℕ
  | .start requests => 20 + (requests.map (requestRank policy)).sum
  | .create requests => 15 + (requests.map (requestRank policy)).sum
  | .submit requests => 10 + (requests.map (requestRank policy)).sum
  | .poll => 9
  | .requestStop _ => 8
  | .join _ => 6
  | .destroy _ => 5
  | .returned _ => 4

def waitingRank (tasks : TaskRef → Task) (waiting : List TaskRef) : ℕ :=
  (waiting.map fun t => taskRank (tasks t)).sum

/-- What the scheduler has still to do. -/
def schedRank (l : System TaskLists) (fake : FakePc) : ℕ :=
  waitingRank l.tasks l.queue.waiting + threadRank l.toCore fake

/-- A bound for the steps that the test has still to take. -/
def rank (policy : PolicyConfig) (s : Bench) : ℕ :=
  mainRank policy s.pc +
    (waitingRank s.sched.tasks (waitingRecords s.sched.allocated s.sched.queue) +
      threadRank s.sched.toCore s.fake)

end Ranks

section Scheduler
variable {l l' : System TaskLists} {a : Action} {t : TaskRef} {task task' : Task} {fake : FakePc}
  {tasks tasks' : TaskRef → Task} {ws : List TaskRef}

theorem taskRank_same (h : SameTask task task') : taskRank task' = taskRank task := by
  rw [taskRank,taskRank,h.type,h.remainingBurst]

theorem fakeRank_entry (task : Task) : fakeRank task .entry = taskRank task := by
  unfold fakeRank taskRank
  cases task.type <;> rfl

theorem waitingRank_congr (h : ∀ t ∈ ws, taskRank (tasks' t) = taskRank (tasks t)) :
    waitingRank tasks' ws = waitingRank tasks ws := by
  rw [waitingRank,waitingRank,List.map_congr_left h]

theorem waitingRank_erase (h : t ∈ ws) :
    waitingRank tasks (ws.erase t) + taskRank (tasks t) = waitingRank tasks ws := by
  have hsum := ((List.perm_cons_erase h).map fun t => taskRank (tasks t)).sum_eq
  rw [List.map_cons,List.sum_cons] at hsum
  unfold waitingRank
  omega

theorem waitingRank_append : waitingRank tasks (ws ++ [t]) =
    waitingRank tasks ws + taskRank (tasks t) := by
  simp [waitingRank]

theorem waitingRank_step (hi : Invariant l) (he : step l a = some l') (ha : Plain a)
    (hb : ∀ remaining, a ≠ .setBurst remaining) :
    waitingRank l'.tasks l.queue.waiting = waitingRank l.tasks l.queue.waiting := by
  obtain ⟨place,hp⟩ := hi.placed
  exact waitingRank_congr fun t ht => taskRank_same (step_same he ha hb (hp.waiting_lt ht))

/-- A signal wakes the thread up, which is one more step for it. -/
theorem threadRank_signal {c c' : Core} (hm : c'.main = c.main.signal)
    (ht : ∀ t, c.main.task = some t → SameTask (c.tasks t) (c'.tasks t) ∧
      (c'.tasks t).cancelRequested = (c.tasks t).cancelRequested) :
    threadRank c' fake ≤ threadRank c fake + 1 := by
  unfold threadRank
  rw [hm]
  cases hc : c.main with
  | executing t quantum =>
    obtain ⟨hs,_⟩ := ht t (by rw [hc]; rfl)
    simp only [MainThread.signal,fakeRank,hs.type,hs.remainingBurst]
    omega
  | returned t quantum r =>
    obtain ⟨hs,hx⟩ := ht t (by rw [hc]; rfl)
    have hmay : mayRequeue (c'.tasks t) r ↔ mayRequeue (c.tasks t) r := by
      rw [mayRequeue,mayRequeue,hs.remainingBurst,hx]
    simp only [MainThread.signal,taskRank_same hs,hmay]
    split_ifs <;> omega
  | blocked signalled => cases signalled <;> simp [MainThread.signal]
  | _ => simp [MainThread.signal]

theorem current_same (hi : Invariant l) (he : step l a = some l') (ha : Plain a)
    (hb : ∀ remaining, a ≠ .setBurst remaining) (ht : l.main.task = some t) :
    SameTask (l.tasks t) (l'.tasks t) ∧
      (l'.tasks t).cancelRequested = (l.tasks t).cancelRequested := by
  obtain ⟨place,hp⟩ := hi.placed
  have hlt := hp.current_lt (hi.counted.main_task ▸ ht)
  exact ⟨step_same he ha hb hlt,(step_keeps he ha hlt).2⟩

theorem submit_rank (hi : Invariant l) (r : TaskRequest) :
    schedRank (schedulerSubmitTask l (schedulerCreateTask r)) fake + 11 ≤
      schedRank l fake + requestRank l.config r := by
  have he : step l (.submit r) = some (schedulerSubmitTask l (schedulerCreateTask r)) := rfl
  obtain ⟨hacc,hburst⟩ := submitted_accepted hi.numbered r
  have hnew : taskRank ((schedulerSubmitTask l (schedulerCreateTask r)).tasks l.allocated) + 12 =
      requestRank l.config r := by
    rw [taskRank,requestRank,hacc.type]
    cases hty : r.type with
    | shell => rfl
    | program =>
      rw [hburst hty,hacc.predictedBurst hty]
      simp only
      omega
  have hold := waitingRank_step hi he trivial (by simp)
  have hthread := @threadRank_signal fake l.toCore _
    (show (schedulerSubmitTask l (schedulerCreateTask r)).main = l.main.signal by simp)
    fun t ht => current_same hi he trivial (by simp) ht
  have hqueue : (schedulerSubmitTask l (schedulerCreateTask r)).queue.waiting =
      l.queue.waiting ++ [l.allocated] := by simp
  simp only [schedRank,hqueue,waitingRank_append]
  omega

theorem stop_rank (hi : Invariant l) :
    schedRank (schedulerRequestStop l) fake ≤ schedRank l fake + 1 := by
  have he : step l .requestStop = some (schedulerRequestStop l) := rfl
  have hthread := @threadRank_signal fake l.toCore _
    (show (schedulerRequestStop l).main = l.main.signal from rfl)
    fun t ht => current_same hi he trivial (by simp) ht
  show waitingRank l.tasks l.queue.waiting + _ ≤ _
  simp only [schedRank]
  omega

theorem enter_rank (ho : Orderly l) (hb : l.main ≠ .blocked false)
    (he : step l .enter = some l') : schedRank l' .entry < schedRank l .entry := by
  obtain ⟨hm,hne,rfl⟩ := step_enter he
  have hone : threadRank l.toCore .entry = 1 := by
    unfold threadRank
    cases hc : l.main with
    | blocked signalled =>
      cases signalled with
      | false => exact (hb hc).elim
      | true => rfl
    | _ => simp_all [MainThread.task]
  have hsignals := ho.signals
  rcases enter_cases l with ⟨_,_,hs⟩ | ⟨_,hs⟩ | ⟨hz,_,q,hd,hs⟩ | ⟨_,_,t,q,hd,hs⟩ <;>
    rw [hs,schedRank,schedRank,hone]
  · exact Nat.lt_succ_self _
  · exact Nat.lt_succ_self _
  · rw [hsignals,(dequeue_none hd).2] at hz
    exact (Nat.lt_irrefl 0 hz).elim
  · obtain ⟨hn,rfl⟩ := dequeue_some hd
    have hmem := nextTask_mem hn
    have hsame : ∀ u, taskRank (Function.update l.tasks t
        { l.tasks t with state := .running, preemptRequested := false } u) =
          taskRank (l.tasks u) := fun u => field_update taskRank rfl
    have herase := @waitingRank_erase _ l.tasks _ hmem
    have hthread : fakeRank (Function.update l.tasks t
        { l.tasks t with state := .running, preemptRequested := false } t) .entry =
          taskRank (l.tasks t) := by
      rw [fakeRank_entry,hsame]
    simp only [dispatchTask_frame,threadRank,hthread]
    rw [waitingRank_congr fun u _ => hsame u]
    omega

theorem finish_rank (he : step l .finish = some l') :
    schedRank l' fake < schedRank l fake := by
  obtain ⟨t,quantum,r,hm,rfl⟩ := step_finish he
  have hthread : threadRank l.toCore fake =
      if mayRequeue (l.tasks t) r then taskRank (l.tasks t) + 5 else 5 := by
    simp only [threadRank,hm]
  rcases finish_cases l t quantum r with ⟨hr,hs⟩ | ⟨hr,state,event,hs,_⟩ <;>
    rw [hs,schedRank,schedRank,hthread]
  · have hsame : ∀ u, taskRank ((requeueTask { l with currentTask := none, main := .top }
        t quantum).tasks u) = taskRank (l.tasks u) := fun u => field_update taskRank rfl
    rw [if_pos hr,waitingRank_congr fun u _ => hsame u]
    simp only [requeueTask_frame,enqueue_lists,waitingRank_append,threadRank]
    omega
  · have hsame : ∀ u, taskRank ((finalizeTask { l with currentTask := none, main := .top }
        t state event).tasks u) = taskRank (l.tasks u) := fun u => field_update taskRank rfl
    rw [if_neg hr,waitingRank_congr fun u _ => hsame u]
    simp only [finalizeTask_frame,threadRank]
    omega

end Scheduler

section Executor
variable {policy : PolicyConfig} {requests : List TaskRequest} {s s' : Bench}
  {l l' : System TaskLists} {t : TaskRef} {quantum : ℤ} {r : TaskRunResult}

theorem rank_eq (h : Refines s.sched l) :
    rank policy s = mainRank policy s.pc + schedRank l s.fake := by
  rw [rank,h.waitingRecords,h.core,schedRank]

theorem result_rank (h : Refines s.sched l) (hm : l.main = .executing t quantum)
    (he : s.result r = some s')
    (hlt : (if mayRequeue (l.tasks t) r then taskRank (l.tasks t) + 5 else 5) <
      fakeRank (l.tasks t) s.fake) : rank policy s' < rank policy s := by
  obtain ⟨c,hc,rfl⟩ := act_eq he
  obtain ⟨l',hl,hr⟩ := step_refines h hc
  obtain ⟨u,q,hrun,rfl⟩ := step_result hl
  rw [hm] at hrun
  cases hrun
  rw [rank_eq h,rank_eq hr]
  simp only [schedRank,threadRank,hm]
  omega

theorem tick_rank {slice : ℕ} (h : Refines s.sched l) (hm : l.main = .executing t quantum)
    (hty : (l.tasks t).type = .program) (hpos : 0 < (l.tasks t).remainingBurst)
    (hf : s.fake = .tick slice) {output : List Line}
    (he : ({ s with output := output, fake := .after slice } : Bench).act
      (.setBurst ((l.tasks t).remainingBurst - 1)) = some s') : rank policy s' < rank policy s := by
  obtain ⟨c,hc,rfl⟩ := act_eq he
  obtain ⟨l',hl,hr⟩ := step_refines h hc
  obtain ⟨place,hp⟩ := h.invariant.placed
  have hcurrent : l.currentTask = some t := by
    rw [← h.invariant.counted.main_task,hm]
    rfl
  have hnot := hp.current_not_waiting hcurrent
  obtain ⟨u,q,hrun,rfl⟩ := step_setBurst hl
  rw [hm] at hrun
  cases hrun
  have hwaiting : waitingRank (setTask l t { l.tasks t with remainingBurst :=
      (l.tasks t).remainingBurst - 1 }).tasks l.queue.waiting =
        waitingRank l.tasks l.queue.waiting := by
    refine waitingRank_congr fun u hu => ?_
    have hut : u ≠ t := by
      rintro rfl
      exact hnot hu
    show taskRank (Function.update l.tasks t _ u) = _
    rw [Function.update_of_ne hut]
  rw [rank_eq h,rank_eq hr]
  show _ + (waitingRank _ l.queue.waiting + _) < _
  rw [hwaiting,hf,schedRank]
  simp only [threadRank,setTask,hm,Function.update_self,fakeRank,hty]
  omega

theorem Sound.execute_rank (h : Sound policy requests s l) (he : s.fakeExecutor = some s') :
    rank policy s' < rank policy s := by
  obtain ⟨t,quantum,hm,he⟩ := Bench.fakeExecutor_executed he
  have hcore := h.refines.core
  rw [hcore] at hm
  obtain ⟨ht,hshown⟩ := h.running hm
  obtain ⟨req,_,hacc⟩ := h.accepted t ht
  have hcancel := hacc.cancelRequested
  -- away from its start the executor has a program
  have hprogram : ∀ {fake : FakePc}, s.fake = fake → fake ≠ .entry →
      (l.tasks t).type = .program ∧ ProgramAt (l.tasks t).remainingBurst (.runs fake quantum) := by
    rintro _ rfl hne
    cases hty : (l.tasks t).type with
    | shell => exact (hne (hshown.shell hty).here).elim
    | program => exact ⟨rfl,(hshown.program hty).here⟩
  have hmoves : ∀ fake, fakeRank (l.tasks t) fake < fakeRank (l.tasks t) s.fake →
      rank policy { s with fake := fake } < rank policy s := by
    intro fake hlt
    rw [rank_eq h.refines,rank_eq (s := { s with fake := fake }) h.refines]
    simp only [schedRank,threadRank,hm]
    omega
  cases he with
  | shell hf hty he =>
    rw [hcore] at hty
    refine result_rank (s := s.print _) h.refines hm he ?_
    simp [mayRequeue,fakeRank,hty]
  | starts hf hty =>
    rw [hcore] at hty
    have hprogram : (l.tasks t).type = .program := by
      cases h : (l.tasks t).type <;> simp_all
    have hpos : 0 < (l.tasks t).remainingBurst := by
      have hhere := (hshown.program hprogram).here
      rw [hf] at hhere
      exact hhere.1
    refine hmoves _ ?_
    simp only [hf,fakeRank,hprogram]
    omega
  | cancels hf hx he =>
    rw [hcore] at hx
    simp [schedulerTaskShouldCancel,hcancel] at hx
  | @polls slice hf hloop =>
    obtain ⟨hty,hpos,_⟩ := hprogram hf (by simp)
    refine hmoves _ ?_
    cases slice <;> simp only [hf,fakeRank,hty] <;> omega
  | @leaves slice s' hf hloop he =>
    obtain ⟨hty,hpos,hquantum⟩ := hprogram hf (by simp)
    rw [hcore] at hloop he
    rw [if_pos hpos] at he
    refine result_rank h.refines hm he ?_
    cases slice with
    | zero => exact (hloop ⟨hquantum,hpos⟩).elim
    | succ slice =>
      simp only [mayRequeue,hcancel,hpos,taskRank,hf,fakeRank,hty]
      simp
  | ticks hf he =>
    obtain ⟨hty,hpos,_⟩ := hprogram hf (by simp)
    rw [hcore] at he
    exact tick_rank h.refines hm hty hpos hf he
  | completes hf hzero he =>
    obtain ⟨hty,_⟩ := hprogram hf (by simp)
    refine result_rank h.refines hm he ?_
    simp [mayRequeue,hf,fakeRank,hty]
  | yields hf hpos he =>
    obtain ⟨hty,_⟩ := hprogram hf (by simp)
    refine result_rank h.refines hm he ?_
    simp only [taskRank,hf,fakeRank,hty]
    split_ifs <;> omega
  | goesOn hf hpos =>
    obtain ⟨hty,_⟩ := hprogram hf (by simp)
    refine hmoves _ ?_
    simp only [hf,fakeRank,hty]
    omega

/-- A call or a return of the executor is always open to it. -/
theorem fakeExecutor_eq_some (hm : s.sched.main = .executing t quantum) :
    ∃ s', s.fakeExecutor = some s' := by
  have hact : ∀ (u : Bench) a, u.sched = s.sched → (step s.sched a).isSome →
      ∃ u', u.act a = some u' := by
    intro u a hu ha
    obtain ⟨c,hc⟩ := Option.isSome_iff_exists.mp ha
    exact ⟨{ u with sched := c },by rw [Bench.act,hu,hc]; rfl⟩
  have hresult : ∀ (u : Bench) r, u.sched = s.sched → ∃ u', u.result r = some u' :=
    fun u r hu => hact { u with fake := .entry } (.result r) hu (by simp only [step,hm]; rfl)
  unfold Bench.fakeExecutor
  simp only [hm]
  cases s.fake with
  | entry =>
    by_cases hty : (s.sched.tasks t).type = .shell
    · simp only [if_pos hty]
      exact hresult _ _ rfl
    · simp only [if_neg hty]
      exact ⟨_,rfl⟩
  | loop slice =>
    dsimp only
    split_ifs
    · exact hresult _ _ rfl
    · exact ⟨_,rfl⟩
    · exact hresult _ _ rfl
    · exact hresult _ _ rfl
  | tick slice =>
    exact hact _ _ rfl (by simp only [step,hm]; rfl)
  | after slice =>
    dsimp only
    split_ifs
    · exact hresult _ _ rfl
    · exact hresult _ _ rfl
    · exact ⟨_,rfl⟩

end Executor

section Ends
variable {policy : PolicyConfig} {requests : List TaskRequest} {s s' : Bench}
  {l l' : System TaskLists} {x : Label}

/-- A step that is not a wakeup or a poll in vain. -/
def Moves (s : Bench) (x : Label) (s' : Bench) : Prop := s.step x = some s' ∧ s' ≠ s

/-- A wakeup without a signal leaves all as it was. -/
theorem Sound.enter_blocked (h : Sound policy requests s l) (hb : l.main = .blocked false)
    (he : s.act .enter = some s') : s' = s := by
  obtain ⟨c,hc,rfl⟩ := act_eq he
  obtain ⟨hsignals,hexit⟩ := h.refines.invariant.counted.blocked hb
  have hcore := h.refines.core
  have hm : s.sched.main = .blocked false := by rw [hcore,hb]
  have hz : s.sched.queuedSignalCount = 0 := by rw [hcore,hsignals]
  have hstay : ¬ mayExit s.sched := by
    rw [mayExit,hcore]
    exact hexit
  obtain ⟨_,_,rfl⟩ := step_enter hc
  rcases enter_cases s.sched with ⟨_,_,hs⟩ | ⟨hx,_⟩ | ⟨hpos,_⟩ | ⟨hpos,_⟩
  · rw [hs,← hm]
  · exact (hstay hx).elim
  · exact absurd hz hpos.ne'
  · exact absurd hz hpos.ne'

theorem Sound.enter_rank (h : Sound policy requests s l) (hb : l.main ≠ .blocked false)
    (he : s.act .enter = some s') : rank policy s' < rank policy s := by
  obtain ⟨c,hc,rfl⟩ := act_eq he
  obtain ⟨l',hl,hr⟩ := step_refines h.refines hc
  have hentry : s.fake = .entry := by
    refine h.entry fun t quantum hm => ?_
    obtain ⟨hnone,_⟩ := step_enter hl
    rw [hm] at hnone
    cases hnone
  have hlt := Harness.enter_rank h.orderly hb hl
  rw [rank_eq h.refines,rank_eq hr]
  simp only [hentry]
  omega

theorem Sound.finish_rank (h : Sound policy requests s l) (he : s.act .finish = some s') :
    rank policy s' < rank policy s := by
  obtain ⟨c,hc,rfl⟩ := act_eq he
  obtain ⟨l',hl,hr⟩ := step_refines h.refines hc
  rw [rank_eq h.refines,rank_eq hr]
  exact Nat.add_lt_add_left (Harness.finish_rank hl) _

theorem Sound.submit_rank (h : Sound policy requests s l) {r : TaskRequest}
    {rest : List TaskRequest} (hpc : s.pc = .submit (r :: rest))
    (he : ({ s with pc := .submit rest } : Bench).act (.submit r) = some s') :
    rank policy s' < rank policy s := by
  obtain ⟨c,hc,rfl⟩ := act_eq he
  obtain ⟨l',hl,hr⟩ := step_refines h.refines hc
  cases hl
  have hlt := @Harness.submit_rank l s.fake h.refines.invariant r
  rw [h.config] at hlt
  rw [rank_eq h.refines,rank_eq hr,hpc]
  simp only [mainRank,List.map_cons,List.sum_cons]
  omega

theorem Sound.stop_rank (h : Sound policy requests s l) {code : ℤ}
    (hpc : s.pc = .requestStop code)
    (he : ({ s with pc := .join code } : Bench).act .requestStop = some s') :
    rank policy s' < rank policy s := by
  obtain ⟨c,hc,rfl⟩ := act_eq he
  obtain ⟨l',hl,hr⟩ := step_refines h.refines hc
  cases hl
  have hlt := @Harness.stop_rank l s.fake h.refines.invariant
  rw [rank_eq h.refines,rank_eq hr,hpc]
  simp only [mainRank]
  omega

/-- `main` moves on, and leaves the scheduler alone. -/
theorem main_rank {started : Bool} {pc : MainPc} (hlt : mainRank policy pc < mainRank policy s.pc) :
    rank policy { s with started := started, pc := pc } < rank policy s :=
  Nat.add_lt_add_right hlt _

/-- Every step takes from the rank, unless it has changed nothing. -/
theorem Sound.moves_rank (h : Sound policy requests s l) (he : Moves s x s') :
    rank policy s' < rank policy s := by
  obtain ⟨he,hne⟩ := he
  cases x with
  | start succeeds =>
    simp only [Bench.step] at he
    split at he
    · rename_i rest hpc
      split_ifs at he <;> cases he <;> refine main_rank ?_ <;> rw [hpc] <;>
        simp only [mainRank] <;> omega
    · cases he
  | create succeeds =>
    simp only [Bench.step] at he
    split at he
    · rename_i rest hpc
      cases he
      refine main_rank ?_
      rw [hpc]
      cases succeeds
      · exact (show 8 < 15 by decide).trans_le (Nat.le_add_right _ _)
      · exact Nat.add_lt_add_right (show 10 < 15 by decide) _
    · cases he
  | submit =>
    simp only [Bench.step] at he
    split at he
    · rename_i r rest hpc
      exact h.submit_rank hpc he
    · rename_i hpc
      cases he
      refine main_rank ?_
      rw [hpc]
      exact Nat.lt_succ_self 9
    · cases he
  | poll =>
    simp only [Bench.step] at he
    split at he
    · rename_i hpc
      split_ifs at he <;> cases he
      · exact (hne rfl).elim
      · refine main_rank ?_
        rw [hpc]
        exact Nat.lt_succ_self 8
    · cases he
  | requestStop =>
    simp only [Bench.step] at he
    split at he
    · rename_i code hpc
      exact h.stop_rank hpc he
    · cases he
  | join =>
    simp only [Bench.step] at he
    split at he
    · rename_i code hpc
      split_ifs at he
      cases he
      refine main_rank ?_
      rw [hpc]
      exact Nat.lt_succ_self 5
    · cases he
  | destroy =>
    simp only [Bench.step] at he
    split at he
    · rename_i code hpc
      have hmain := h.atMain
      rw [hpc] at hmain
      cases he
      rw [h.idle hmain.1.1]
      refine main_rank ?_
      rw [hpc]
      exact Nat.lt_succ_self 4
    · cases he
  | enter =>
    simp only [Bench.step] at he
    split_ifs at he
    exact h.enter_rank (fun hb => hne (h.enter_blocked hb he)) he
  | execute => exact h.execute_rank he
  | finish => exact h.finish_rank he

/-- What takes from the rank has changed something. -/
theorem moves_of_rank (he : s.step x = some s') (hlt : rank policy s' < rank policy s) :
    Moves s x s' :=
  ⟨he,fun hs => absurd (hs ▸ hlt) (lt_irrefl _)⟩

theorem act_eq_some {a : Action} {c : System TaskLinks} (hc : step s.sched a = some c) :
    s.act a = some { s with sched := c } := by
  rw [Bench.act,hc]
  rfl

/-- A thread that has work to do, or is to stop, is not left waiting. -/
theorem Sound.thread_moves (h : Sound policy requests s l) (hstarted : s.started = true)
    (hx : l.main ≠ .exited) (hwork : 0 < l.activeTaskCount ∨ l.stopRequested = true) :
    ∃ x s', Moves s x s' := by
  have hcore : s.sched.main = l.main := by rw [h.refines.core]
  have hcounted := h.refines.invariant.counted
  have henter : ∀ {c}, l.main ≠ .blocked false → step s.sched .enter = some c →
      ∃ x s', Moves s x s' := by
    intro c hb hc
    have he := act_eq_some hc
    exact ⟨.enter,_,moves_of_rank ((if_pos hstarted).trans he) (h.enter_rank hb he)⟩
  cases hm : l.main with
  | top =>
    rw [hm] at hcore
    exact henter (by simp [hm]) (by simp only [step,hcore]; rfl)
  | blocked signalled =>
    rw [hm] at hcore
    cases signalled with
    | true => exact henter (by simp [hm]) (by simp only [step,hcore]; rfl)
    | false =>
      obtain ⟨hz,hstay⟩ := hcounted.blocked hm
      have hactive := hcounted.active
      have hsignals := hcounted.signals
      rw [← hcounted.main_task,hm] at hactive
      simp only [MainThread.task,Option.isSome_none] at hactive
      have hidle : l.activeTaskCount = 0 := by simp at hactive; omega
      rcases hwork with hpos | hstop
      · omega
      · exact (hstay ⟨hstop,hidle⟩).elim
  | executing t quantum =>
    rw [hm] at hcore
    obtain ⟨s',he⟩ := fakeExecutor_eq_some hcore
    exact ⟨.execute,s',moves_of_rank he (h.execute_rank he)⟩
  | returned t quantum r =>
    rw [hm] at hcore
    have he := act_eq_some (s := s) (a := .finish) (by simp only [step,hcore]; rfl)
    exact ⟨.finish,_,moves_of_rank he (h.finish_rank he)⟩
  | exited => exact (hx hm).elim

/-- A test that has not returned goes on. -/
theorem Sound.goes_on (h : Sound policy requests s l) (hpc : ∀ code, s.pc ≠ .returned code) :
    ∃ x s', Moves s x s' := by
  have hmain := h.atMain
  have hmove : ∀ {x s'}, s.step x = some s' → s'.pc ≠ s.pc → ∃ x s', Moves s x s' :=
    fun he hne => ⟨_,_,he,fun hs => hne (hs ▸ rfl)⟩
  cases hp : s.pc with
  | start rest => exact hmove (x := .start true) (by simp only [Bench.step,hp]; rfl) (by simp [hp])
  | create rest =>
    exact hmove (x := .create true) (by simp only [Bench.step,hp]; rfl) (by simp [hp])
  | submit rest =>
    cases rest with
    | nil => exact hmove (x := .submit) (by simp only [Bench.step,hp]; rfl) (by simp [hp])
    | cons r rest => exact hmove (x := .submit) (by simp only [Bench.step,hp]; rfl) (by simp [hp])
  | poll =>
    rw [hp] at hmain
    obtain ⟨_,hstarted,hstop⟩ := hmain
    by_cases hactive : schedulerHasActiveWork s.sched.toCore = true
    · refine h.thread_moves hstarted (fun hx => ?_) (Or.inl ?_)
      · rw [h.orderly.exited hx] at hstop
        cases hstop
      · rw [h.refines.core] at hactive
        simpa [schedulerHasActiveWork] using hactive
    · exact hmove (x := .poll) (by simp only [Bench.step,hp,if_neg hactive]; rfl) (by simp [hp])
  | requestStop code =>
    exact hmove (x := .requestStop) (by simp only [Bench.step,hp]; rfl) (by simp [hp])
  | join code =>
    rw [hp] at hmain
    obtain ⟨_,hstarted,hstop⟩ := hmain
    by_cases hx : s.sched.main = .exited
    · exact hmove (x := .join) (by simp only [Bench.step,hp,if_pos hx]; rfl) (by simp [hp])
    · rw [h.refines.core] at hx
      exact h.thread_moves hstarted hx (Or.inr hstop)
  | destroy code => exact hmove (x := .destroy) (by simp only [Bench.step,hp]; rfl) (by simp [hp])
  | returned code => exact (hpc code hp).elim

/-- Leaving out wakeups and polls in vain, all runs of the test are of bounded length, and one
that cannot be prolonged has returned: whoever is given the next turn, the test ends. -/
theorem test_ends (config : Option SchedulerConfig) (requests : List TaskRequest) :
    ∃ bound, ∀ xs s, Runs Moves (init config requests) xs s → xs.length ≤ bound ∧
      ((∃ code, s.pc = .returned code) ∨ ∃ x s', Moves s x s') := by
  refine ⟨rank (initConfig config) (init config requests),fun xs s hrun => ?_⟩
  have hinit : ∃ l, Sound (initConfig config) requests (init config requests) l :=
    ⟨_,init_sound config requests⟩
  obtain ⟨⟨l,hl⟩,hlen⟩ := hrun.length_le (fun s => ∃ l, Sound (initConfig config) requests s l)
    (rank (initConfig config)) (fun _ _ _ ⟨_,hl⟩ he => ⟨step_sound hl he.1,hl.moves_rank he⟩) hinit
  refine ⟨(Nat.le_add_right _ _).trans hlen,?_⟩
  by_cases hpc : ∃ code, s.pc = .returned code
  · exact Or.inl hpc
  · exact Or.inr (hl.goes_on fun code hp => hpc ⟨code,hp⟩)

end Ends

end UnixShell.Scheduler.Harness
